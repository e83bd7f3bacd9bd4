import OsTasks.Shell.Spacing

/-! Where `parse_cmdline` cuts the commands out of its line. -/
namespace OsTasks.Shell
open OsTasks.Lib

section Line
variable (h : Malloc) (cmdline : List Byte)

/-- The text that the cut at `i` copies for `parse_cmd`. -/
def cmdText (i : ℕ) (s : Parse) : List Byte :=
  (strncpy (h.text s.numOfCmd) (cmdline.drop s.prevCmdOffset) (i - s.prevCmdOffset)).set
    (i - s.prevCmdOffset) 0

/-- The iterations that cut out a command, and the variables when they begin. The last one may be
an iteration without a result. -/
def cutsFrom : ℕ → List Byte → Parse → List (ℕ × Parse)
  | _, [], _ => []
  | i, b :: bs, s =>
    if b = bar ∨ b = 0 then
      (i, s) :: match cutCmd h cmdline i b s with
        | none => []
        | some s => if b = 0 then [] else cutsFrom (i + 1) bs s
    else cutsFrom (i + 1) bs s

def cuts : List (ℕ × Parse) := cutsFrom h cmdline 0 cmdline ⟨h.cmdArray, 0, 0⟩

end Line

/-- The length of a command is not negative, and its characters are some of the line. -/
structure CutInside (h : Malloc) (l : CommandLine) (rest : List Byte) (i : ℕ) (s : Parse) :
    Prop where
  offset_le : s.prevCmdOffset ≤ i
  le_length : i ≤ l.bytes.length
  tokenised : cstr (cmdText h (l.bytes ++ 0 :: rest) i s) = (l.bytes.take i).drop s.prevCmdOffset

/-- Every command of a run lies in the line. -/
def CutsInside (h : Malloc) (l : CommandLine) (rest : List Byte) : Prop :=
  ∀ c ∈ cuts h (l.bytes ++ 0 :: rest), CutInside h l rest c.1 c.2

section Line
variable {h : Malloc} {l : CommandLine} (rest : List Byte)

/-- Iterations that cut nothing are passed over. -/
theorem cutsFrom_skip {cmdline w : List Byte} (hw : ∀ b ∈ w, b ≠ bar ∧ b ≠ 0) (i : ℕ)
    (bs : List Byte) (s : Parse) :
    cutsFrom h cmdline i (w ++ bs) s = cutsFrom h cmdline (i + w.length) bs s := by
  induction w generalizing i with
  | nil => rfl
  | cons b w ih =>
    obtain ⟨hbar, hzero⟩ := hw b List.mem_cons_self
    have hnext := ih (fun c hc => hw c (List.mem_cons_of_mem _ hc)) (i + 1)
    rw [List.cons_append]
    conv_lhs => unfold cutsFrom
    rw [if_neg (not_or.mpr ⟨hbar, hzero⟩), hnext, List.length_cons, Nat.add_right_comm]
    rfl

/-- A piece, from which `k` characters are passed over, has a cut in the line when there are as
many. -/
theorem cutInside_piece {g : List Byte} (h0 : 0 ∉ g) {k i : ℕ} {t : List Byte} {s : Parse}
    (hprev : s.prevCmdOffset = i + k) (hi : i ≤ l.bytes.length) (hdrop : l.bytes.drop i = g ++ t) :
    CutInside h l rest (i + g.length) s ↔ k ≤ g.length := by
  constructor
  · intro hcut
    have hle := hcut.offset_le
    omega
  · intro hk
    have hlen : g.length + t.length = l.bytes.length - i := by
      have hlength := congrArg List.length hdrop
      rw [List.length_drop, List.length_append] at hlength
      exact hlength.symm
    have hbound := l.length_lt
    have hz : 0 ∉ g.drop k := fun hmem => h0 (List.mem_of_mem_drop hmem)
    have hline : (l.bytes ++ 0 :: rest).drop s.prevCmdOffset = g.drop k ++ (t ++ 0 :: rest) := by
      rw [hprev, ← List.drop_drop, List.drop_append_of_le_length hi, hdrop, List.append_assoc,
        List.drop_append_of_le_length hk]
    have hcount : i + g.length - s.prevCmdOffset = (g.drop k).length := by
      rw [hprev, List.length_drop]
      omega
    have hroom : (g.drop k).length < (h.text s.numOfCmd).length := by
      rw [h.length_text, List.length_drop]
      omega
    have hslice : (l.bytes.take (i + g.length)).drop s.prevCmdOffset = g.drop k := by
      rw [List.drop_take, hprev, ← List.drop_drop, hdrop, List.drop_append_of_le_length hk,
        show i + g.length - (i + k) = (g.drop k).length by rw [List.length_drop]; omega,
        List.take_left]
    have htext : cstr (g.drop k) = g.drop k := (cstr_eq_self_iff _).mpr hz
    have hblock := strncpy_set_zero hz hroom (t ++ 0 :: rest)
    refine ⟨by omega, by omega, ?_⟩
    unfold cmdText
    rw [hline, hcount, hblock, cstr_append_zero, htext, hslice]

theorem cutsFrom_pieces {g : List Byte} {gs : List (List Byte)} {k i : ℕ} {s : Parse}
    (hplain : ∀ p ∈ g :: gs, ∀ b ∈ p, b ≠ bar ∧ b ≠ 0) (hprev : s.prevCmdOffset = i + k)
    (hi : i ≤ l.bytes.length) (hdrop : l.bytes.drop i = [bar].intercalate (g :: gs))
    (hnum : s.numOfCmd ≤ i) :
    (∀ c ∈ cutsFrom h (l.bytes ++ 0 :: rest) i ([bar].intercalate (g :: gs) ++ 0 :: rest) s,
      CutInside h l rest c.1 c.2) ↔ k ≤ g.length ∧ none ∉ gs.map List.head? := by
  have hg := hplain g List.mem_cons_self
  have h0 : 0 ∉ g := fun hz => (hg 0 hz).2 rfl
  have hline : (l.bytes ++ 0 :: rest).drop i = [bar].intercalate (g :: gs) ++ 0 :: rest := by
    rw [List.drop_append_of_le_length hi, hdrop]
  have hlen : i + ([bar].intercalate (g :: gs)).length < maxStrLen := by
    have hlength := congrArg List.length hdrop
    have hbound := l.length_lt
    rw [List.length_drop] at hlength
    omega
  induction gs generalizing g k i s with
  | nil =>
    rw [List.intercalate_singleton] at hdrop hline hlen ⊢
    have hcut := cutCmd_piece (h := h) h0 0 hprev hline hlen hnum
    have hinside := cutInside_piece (h := h) rest h0 hprev hi
      (hdrop.trans (List.append_nil g).symm)
    rw [cutsFrom_skip hg]
    unfold cutsFrom
    rw [if_pos (Or.inr rfl), List.forall_mem_cons, hinside, hcut]
    by_cases hk : k ≤ g.length
    · rw [if_pos hk]
      dsimp only
      rw [if_pos rfl]
      simp [hk]
    · simp [hk]
  | cons d gs ih =>
    have hcons := intercalate_bar_cons g d gs
    have hinside := cutInside_piece (h := h) rest h0 hprev hi (hdrop.trans hcons)
    rw [hcons] at hdrop
    rw [hcons, List.append_assoc, List.cons_append] at hline ⊢
    rw [hcons, List.length_append, List.length_cons] at hlen
    have hcut := cutCmd_piece (h := h) h0 bar hprev hline (by omega) hnum
    have hnext := drop_piece hdrop
    have hi' : i + g.length + 1 ≤ l.bytes.length := by
      have hlength := congrArg List.length hdrop
      rw [List.length_drop, List.length_append, List.length_cons] at hlength
      omega
    have hline' : (l.bytes ++ 0 :: rest).drop (i + g.length + 1) =
        [bar].intercalate (d :: gs) ++ 0 :: rest := by
      rw [List.drop_append_of_le_length hi', hnext]
    have hd := hplain d (List.mem_cons_of_mem _ List.mem_cons_self)
    rw [cutsFrom_skip hg]
    unfold cutsFrom
    rw [if_pos (Or.inl rfl), List.forall_mem_cons, hinside]
    by_cases hk : k ≤ g.length
    · obtain ⟨s', hs', hprev', hnum'⟩ : ∃ s', cutCmd h (l.bytes ++ 0 :: rest) (i + g.length) bar s =
          some s' ∧ s'.prevCmdOffset = i + g.length + 1 + 1 ∧ s'.numOfCmd ≤ i + g.length + 1 := by
        rw [if_pos hk, if_pos rfl] at hcut
        exact ⟨_, hcut, rfl, by dsimp only; omega⟩
      have htail := ih (k := 1) (fun p hp => hplain p (List.mem_cons_of_mem _ hp)) hprev' hi' hnext
        hnum' hd (fun hz => (hd 0 hz).2 rfl) hline' (by omega)
      rw [hs']
      dsimp only
      rw [if_neg (by decide : ¬ bar = 0)]
      refine (and_congr_right' htail).trans ?_
      cases d <;> simp [hk]
    · simp [hk]

theorem forall_cuts_iff {g : List Byte} {gs : List (List Byte)}
    (hline : l.bytes.splitOn bar = g :: gs) :
    (∀ c ∈ cuts h (l.bytes ++ 0 :: rest), CutInside h l rest c.1 c.2) ↔
      none ∉ gs.map List.head? := by
  have hbytes : [bar].intercalate (g :: gs) = l.bytes := by
    rw [← hline, List.intercalate_splitOn]
  have hplain : ∀ p ∈ g :: gs, ∀ b ∈ p, b ≠ bar ∧ b ≠ 0 := by
    intro p hp b hb
    obtain ⟨hbar, hmem⟩ := mem_of_mem_splitOn (hline ▸ hp) b hb
    exact ⟨hbar, fun hz => l.zero_notMem (hz ▸ hmem)⟩
  have hpieces := cutsFrom_pieces (h := h) rest (s := ⟨h.cmdArray, 0, 0⟩) hplain
    (k := 0) rfl (Nat.zero_le _) hbytes.symm le_rfl
  rw [hbytes] at hpieces
  exact hpieces.trans (and_iff_right (Nat.zero_le _))

end Line

/-- The commands lie in the line exactly when a character other than '|' follows each '|'. -/
theorem cutsInside_iff (h : Malloc) (l : CommandLine) (rest : List Byte) :
    CutsInside h l rest ↔ none ∉ afterBars l := by
  obtain ⟨g, gs, hline⟩ := List.exists_cons_of_ne_nil (List.splitOn_ne_nil bar l.bytes)
  rw [afterBars_eq hline]
  exact forall_cuts_iff rest hline

/-- The line `a|`. -/
def endingInBar : CommandLine := shortLine [0x61, bar] (by decide) (by decide)

/-- The command behind the '|' would begin behind the NUL. -/
theorem cuts_of_endingInBar_not_inside : ¬ CutsInside cleared endingInBar [] := by
  intro hinside
  have hline : endingInBar.bytes.splitOn bar = [[0x61], []] := by decide
  have hafter := (forall_cuts_iff [] hline).mp hinside
  exact hafter List.mem_cons_self

end OsTasks.Shell
