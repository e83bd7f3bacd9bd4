import Mathlib.Tactic

/-! The blocks that successive `fread` calls of one size return. -/
namespace OsTasks.Lib
variable {α : Type*}

/-- What `fread` of `n` elements returns until it returns none. -/
def freadBlocks (n : ℕ) (l : List α) : List (List α) :=
  (List.range ((l.length + n - 1) / n)).map fun k => (l.drop (n * k)).take n

variable {n : ℕ}

@[simp] theorem freadBlocks_nil (hn : 0 < n) : freadBlocks n ([] : List α) = [] := by
  simp only [freadBlocks, List.length_nil, Nat.div_eq_of_lt (by omega : 0 + n - 1 < n),
    List.range_zero, List.map_nil]

theorem freadBlocks_of_ne_nil (hn : 0 < n) {l : List α} (hl : l ≠ []) :
    freadBlocks n l = l.take n :: freadBlocks n (l.drop n) := by
  have hp := List.length_pos_of_ne_nil hl
  have hc : (l.length + n - 1) / n = (l.length - n + n - 1) / n + 1 := by
    by_cases h : n ≤ l.length
    · rw [show l.length + n - 1 = l.length - n + n - 1 + n by omega, Nat.add_div_right _ hn]
    · rw [show l.length - n + n - 1 = n - 1 by omega, Nat.div_eq_of_lt (by omega : n - 1 < n),
        show l.length + n - 1 = l.length - 1 + n by omega, Nat.add_div_right _ hn,
        Nat.div_eq_of_lt (by omega)]
  simp only [freadBlocks, hc, List.range_succ_eq_map, List.map_cons, List.map_map,
    List.length_drop, Nat.mul_zero, List.drop_zero]
  congr 2
  funext k
  simp [List.drop_drop, Nat.mul_succ, Nat.add_comm]

/-- Induction on the number of `fread` calls left. -/
theorem fread_induction (hn : 0 < n) {P : List α → Prop} (nil : P [])
    (block : ∀ l, l ≠ [] → P (l.drop n) → P l) (l : List α) : P l := by
  induction hl : l.length using Nat.strong_induction_on generalizing l with
  | _ k ih =>
    by_cases h : l = []
    · exact h ▸ nil
    have hp := List.length_pos_of_ne_nil h
    exact block l h (ih _ (by rw [List.length_drop]; omega) _ rfl)

@[simp] theorem flatten_freadBlocks (hn : 0 < n) (l : List α) :
    (freadBlocks n l).flatten = l := by
  induction l using fread_induction hn with
  | nil => simp [hn]
  | block l hl ih => rw [freadBlocks_of_ne_nil hn hl, List.flatten_cons, ih, List.take_append_drop]

theorem freadBlocks_eq_nil_iff (hn : 0 < n) {l : List α} : freadBlocks n l = [] ↔ l = [] := by
  constructor
  · intro h
    by_contra hl
    rw [freadBlocks_of_ne_nil hn hl] at h
    cases h
  · rintro rfl
    exact freadBlocks_nil hn

/-- There is a second block when the first does not take all. -/
theorem one_lt_length_freadBlocks_iff (hn : 0 < n) {l : List α} :
    1 < (freadBlocks n l).length ↔ n < l.length := by
  by_cases hl : l = []
  · simp [hl, hn]
  · rw [freadBlocks_of_ne_nil hn hl, List.length_cons, Nat.lt_add_left_iff_pos,
      List.length_pos_iff, ne_eq, freadBlocks_eq_nil_iff hn, List.drop_eq_nil_iff, not_le]

theorem length_of_mem_freadBlocks (hn : 0 < n) {l b : List α} (hb : b ∈ freadBlocks n l) :
    0 < b.length ∧ b.length ≤ n := by
  induction l using fread_induction hn with
  | nil => simp [hn] at hb
  | block l hl ih =>
    rw [freadBlocks_of_ne_nil hn hl] at hb
    rcases List.mem_cons.mp hb with rfl | hb
    · have := List.length_pos_of_ne_nil hl
      simp only [List.length_take]
      omega
    · exact ih hb

theorem length_of_mem_freadBlocks_of_dvd (hn : 0 < n) {l b : List α} (h : n ∣ l.length)
    (hb : b ∈ freadBlocks n l) : b.length = n := by
  induction l using fread_induction hn with
  | nil => simp [hn] at hb
  | block l hl ih =>
    have hle : n ≤ l.length := Nat.le_of_dvd (List.length_pos_of_ne_nil hl) h
    rw [freadBlocks_of_ne_nil hn hl] at hb
    rcases List.mem_cons.mp hb with rfl | hb
    · rw [List.length_take, Nat.min_eq_left hle]
    · exact ih (by rw [List.length_drop]; exact Nat.dvd_sub h dvd_rfl) hb

theorem length_eq_of_length_flatten {bs : List (List α)} (hle : ∀ b ∈ bs, b.length ≤ n)
    (h : bs.flatten.length = n * bs.length) : ∀ b ∈ bs, b.length = n := by
  induction bs with
  | nil => simp
  | cons c bs ih =>
    have hc := hle c (by simp)
    have htail : bs.flatten.length ≤ n * bs.length := by
      rw [List.length_flatten, Nat.mul_comm, ← smul_eq_mul, ← List.length_map List.length]
      exact List.sum_le_card_nsmul _ _ fun x hx => by
        obtain ⟨b, hb, rfl⟩ := List.mem_map.mp hx
        exact hle b (by simp [hb])
    rw [List.flatten_cons, List.length_append, List.length_cons, Nat.mul_succ] at h
    intro b hb
    rcases List.mem_cons.mp hb with rfl | hb
    · omega
    · exact ih (fun b hb => hle b (by simp [hb])) (by omega) b hb

/-- A block as long as all the blocks together is the only one. -/
theorem eq_singleton_of_length_flatten_le {bs : List (List α)} {b : List α}
    (hne : ∀ b ∈ bs, b ≠ []) (hb : b ∈ bs) (h : bs.flatten.length ≤ b.length) : bs = [b] := by
  obtain ⟨before, after, rfl⟩ := List.append_of_mem hb
  rw [List.flatten_append, List.flatten_cons, List.length_append, List.length_append] at h
  have hnone : ∀ l : List (List α), l.flatten.length = 0 → (∀ c ∈ l, c ≠ []) → l = [] := by
    intro l hl hl'
    apply List.eq_nil_iff_forall_not_mem.mpr
    intro c hc
    exact hl' c hc (List.flatten_eq_nil_iff.mp (List.eq_nil_of_length_eq_zero hl) c hc)
  have hbefore : before = [] :=
    hnone before (by omega) fun c hc => hne c (List.mem_append_left _ hc)
  have hafter : after = [] :=
    hnone after (by omega) fun c hc => hne c (List.mem_append_right _ (List.mem_cons_of_mem _ hc))
  rw [hbefore, hafter]
  rfl

end OsTasks.Lib
