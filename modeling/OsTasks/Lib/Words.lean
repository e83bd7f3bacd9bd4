import Mathlib.Tactic
import Mathlib.Data.List.TakeWhile

/-! The words of a text: the longest pieces without a delimiter. -/
namespace OsTasks.Lib
variable {α : Type} [DecidableEq α] {d : α}

def words (d : α) (t : List α) : List (List α) := (t.splitOn d).filter fun w => !w.isEmpty

theorem words_nil (d : α) : words d [] = [] := rfl

theorem words_append_delim (d : α) (x y : List α) :
    words d (x ++ d :: y) = words d x ++ words d y := by
  unfold words
  rw [List.splitOn_append_cons_self, List.filter_append]

theorem words_cons_delim (d : α) (t : List α) : words d (d :: t) = words d t :=
  words_append_delim d [] t

theorem words_concat_delim (d : α) (t : List α) : words d (t ++ [d]) = words d t := by
  rw [words_append_delim, words_nil, List.append_nil]

theorem words_of_notMem {w : List α} (hne : w ≠ []) (h : d ∉ w) : words d w = [w] := by
  unfold words
  rw [List.splitOn_eq_singleton h, List.filter_cons_of_pos (by simpa using hne), List.filter_nil]

theorem words_append_cons {w : List α} (hne : w ≠ []) (h : d ∉ w) (t : List α) :
    words d (w ++ d :: t) = w :: words d t := by
  rw [words_append_delim, words_of_notMem hne h, List.singleton_append]

theorem ne_nil_of_mem_words {t w : List α} (h : w ∈ words d t) : w ≠ [] := by
  have hne := (List.mem_filter.mp h).2
  simpa using hne

/-- A text that does not begin with the delimiter begins with a word. -/
theorem exists_first_word {c : α} (hc : c ≠ d) (t : List α) :
    ∃ w rest, c :: t = w ++ rest ∧ w ≠ [] ∧ d ∉ w ∧ (rest = [] ∨ ∃ u, rest = d :: u) := by
  refine ⟨(c :: t).takeWhile (· ≠ d), (c :: t).dropWhile (· ≠ d),
    List.takeWhile_append_dropWhile.symm, ?_, ?_, ?_⟩
  · rw [List.takeWhile_cons_of_pos (by simpa using hc)]
    exact List.cons_ne_nil _ _
  · intro hmem
    simpa using List.mem_takeWhile_imp hmem
  · cases hrest : (c :: t).dropWhile (· ≠ d) with
    | nil => exact Or.inl rfl
    | cons e u =>
      have hhead := List.head?_dropWhile_not (· ≠ d) (c :: t)
      rw [hrest] at hhead
      have he : e = d := by simpa using hhead
      exact Or.inr ⟨u, by rw [he]⟩

theorem words_cons_of_ne {c : α} (hc : c ≠ d) (t : List α) :
    ∃ w ws, words d (c :: t) = (c :: w) :: ws ∧ words d t = if w.isEmpty then ws else w :: ws := by
  obtain ⟨s, ss, hs⟩ := List.exists_cons_of_ne_nil (List.splitOn_ne_nil d t)
  have hcd : (c == d) = false := by simpa using hc
  refine ⟨s, ss.filter fun w => !w.isEmpty, ?_, ?_⟩
  · unfold words
    rw [List.splitOn_cons_eq_if_modifyHead, hcd, hs]
    rfl
  · unfold words
    rw [hs, List.filter_cons]
    cases s <;> rfl

/-- The words behind the first character depend on the words alone. -/
theorem words_tail_congr {c c' : α} (hc : c ≠ d) (hc' : c' ≠ d) {t t' : List α}
    (h : words d (c :: t) = words d (c' :: t')) : words d t = words d t' := by
  obtain ⟨w, ws, hw, ht⟩ := words_cons_of_ne hc t
  obtain ⟨w', ws', hw', ht'⟩ := words_cons_of_ne hc' t'
  rw [hw, hw'] at h
  obtain ⟨hfirst, hrest⟩ := List.cons.inj h
  obtain ⟨_, hword⟩ := List.cons.inj hfirst
  rw [ht, ht', hword, hrest]

/-- The words hold all characters but the delimiters. -/
theorem flatten_words (d : α) (t : List α) : (words d t).flatten = t.filter fun c => c ≠ d := by
  induction t with
  | nil => rfl
  | cons c t ih =>
    by_cases hc : c = d
    · rw [hc, words_cons_delim, ih, List.filter_cons_of_neg (by simp)]
    · obtain ⟨w, ws, hw, ht⟩ := words_cons_of_ne hc t
      rw [hw, List.filter_cons_of_pos (by simpa using hc), ← ih, ht]
      cases w <;> rfl

theorem words_cons_ne_self {c : α} (hc : c ≠ d) (t : List α) : words d (c :: t) ≠ words d t := by
  intro h
  have hflat := congrArg (fun l => l.flatten.length) h
  simp only [flatten_words, List.filter_cons_of_pos (p := fun c => c ≠ d) (by simpa using hc),
    List.length_cons] at hflat
  omega

theorem words_length_le (d : α) (t : List α) : (words d t).length ≤ t.length := by
  have hlen : ∀ l : List (List α), (∀ w ∈ l, w ≠ []) → l.length ≤ l.flatten.length := by
    intro l hl
    induction l with
    | nil => exact le_rfl
    | cons w l ih =>
      have hw := List.length_pos_of_ne_nil (hl w List.mem_cons_self)
      have hrest := ih fun v hv => hl v (List.mem_cons_of_mem w hv)
      rw [List.flatten_cons, List.length_append, List.length_cons]
      omega
  refine (hlen _ fun w hw => ne_nil_of_mem_words hw).trans ?_
  rw [flatten_words]
  exact List.length_filter_le _ t

/-- The pieces between two delimiters have none, and only characters of the text. -/
theorem mem_of_mem_splitOn {e : α} {t p : List α} (hp : p ∈ t.splitOn e) :
    ∀ c ∈ p, c ≠ e ∧ c ∈ t := by
  induction t generalizing p with
  | nil =>
    rw [List.splitOn_nil, List.mem_singleton] at hp
    rw [hp]
    exact fun c hc => absurd hc List.not_mem_nil
  | cons b t ih =>
    obtain ⟨s, ss, hs⟩ := List.exists_cons_of_ne_nil (List.splitOn_ne_nil e t)
    have hrest : ∀ q ∈ t.splitOn e, ∀ c ∈ q, c ≠ e ∧ c ∈ b :: t :=
      fun q hq c hc => ⟨(ih hq c hc).1, List.mem_cons_of_mem _ (ih hq c hc).2⟩
    rw [List.splitOn_cons_eq_if_modifyHead] at hp
    by_cases hb : b = e
    · rw [if_pos (by simpa using hb)] at hp
      rcases List.mem_cons.mp hp with rfl | hp
      · exact fun c hc => absurd hc List.not_mem_nil
      · exact hrest p hp
    · rw [if_neg (by simpa using hb), hs, List.modifyHead_cons] at hp
      rw [hs] at hrest
      rcases List.mem_cons.mp hp with rfl | hp
      · intro c hc
        rcases List.mem_cons.mp hc with rfl | hc
        · exact ⟨hb, List.mem_cons_self⟩
        · exact hrest s List.mem_cons_self c hc
      · exact hrest p (List.mem_cons_of_mem _ hp)

/-- A delimiter of words before the first piece is in none of its words. -/
theorem map_words_splitOn_cons {e : α} (he : d ≠ e) (t : List α) :
    ((d :: t).splitOn e).map (words d) = (t.splitOn e).map (words d) := by
  obtain ⟨s, ss, hs⟩ := List.exists_cons_of_ne_nil (List.splitOn_ne_nil e t)
  rw [List.splitOn_cons_eq_if_modifyHead, if_neg (by simpa using he), hs, List.modifyHead_cons,
    List.map_cons, List.map_cons, words_cons_delim]

theorem map_words_splitOn_concat {e : α} (he : d ≠ e) (t : List α) :
    ((t ++ [d]).splitOn e).map (words d) = (t.splitOn e).map (words d) := by
  induction hn : t.length using Nat.strong_induction_on generalizing t with
  | _ n ih =>
    by_cases hmem : e ∈ t
    · obtain ⟨x, y, rfl, hx⟩ := List.eq_append_cons_of_mem hmem
      have hlen : y.length < n := by
        rw [← hn, List.length_append, List.length_cons]
        omega
      rw [List.append_assoc, List.cons_append, List.splitOn_append_cons_self_of_not_mem hx,
        List.splitOn_append_cons_self_of_not_mem hx, List.map_cons, List.map_cons,
        ih y.length hlen y rfl]
    · have hnot : e ∉ t ++ [d] := by
        intro h
        rcases List.mem_append.mp h with h | h
        · exact hmem h
        · exact he (List.mem_singleton.mp h).symm
      rw [List.splitOn_eq_singleton hmem, List.splitOn_eq_singleton hnot, List.map_singleton,
        List.map_singleton, words_concat_delim]

theorem sum_length_splitOn (e : α) (t : List α) :
    ((t.splitOn e).map fun p => p.length + 1).sum = t.length + 1 := by
  have hsum : ∀ (p : List α) ps, ((p :: ps).map fun p => p.length + 1).sum =
      ([e].intercalate (p :: ps)).length + 1 := by
    intro p ps
    induction ps generalizing p with
    | nil => rw [List.intercalate_singleton, List.map_singleton, List.sum_singleton]
    | cons q ps ih =>
      rw [List.map_cons, List.sum_cons, ih q, List.intercalate_cons_cons]
      simp only [List.length_append, List.length_singleton]
      omega
  obtain ⟨p, ps, hp⟩ := List.exists_cons_of_ne_nil (List.splitOn_ne_nil e t)
  rw [hp, hsum, ← hp, List.intercalate_splitOn]

end OsTasks.Lib
