import OsTasks.Lib.Words
import OsTasks.Shell.Parser

/-! What `parse_cmdline` makes of any line: the words of its pieces between '|', without the first
character behind each '|'. -/
namespace OsTasks.Shell
open OsTasks.Lib

/-- An array after the values of `l` are stored from index `i` on. -/
def storeFrom {α β : Type} (value : ℕ → α → β) (a : ℕ → β) : ℕ → List α → ℕ → β
  | _, [] => a
  | i, x :: l => storeFrom value (Function.update a i (value i x)) (i + 1) l

section Store
variable {α β : Type} {value : ℕ → α → β}

theorem storeFrom_of_lt (a : ℕ → β) {i k : ℕ} (l : List α) (hk : k < i) :
    storeFrom value a i l k = a k := by
  induction l generalizing a i with
  | nil => rfl
  | cons x l ih =>
    unfold storeFrom
    rw [ih _ (by omega), Function.update_of_ne (by omega)]

theorem storeFrom_get (a : ℕ → β) (i : ℕ) (l : List α) {j : ℕ} (hj : j < l.length) :
    storeFrom value a i l (i + j) = value (i + j) l[j] := by
  induction l generalizing a i j with
  | nil => exact absurd hj (Nat.not_lt_zero j)
  | cons x l ih =>
    unfold storeFrom
    cases j with
    | zero =>
      change storeFrom value (Function.update a i (value i x)) (i + 1) l i = value i x
      rw [storeFrom_of_lt _ _ (Nat.lt_succ_self i), Function.update_self]
    | succ j =>
      have hnext := ih (Function.update a i (value i x)) (i + 1) (Nat.lt_of_succ_lt_succ hj)
      rw [show i + (j + 1) = i + 1 + j by omega, hnext]
      rfl

theorem storeFrom_map {γ : Type} (f : γ → α) (a : ℕ → β) (i : ℕ) (l : List γ) :
    storeFrom value a i (l.map f) = storeFrom (fun n x => value n (f x)) a i l := by
  induction l generalizing a i with
  | nil => rfl
  | cons x l ih => exact ih _ _

end Store

/-- The block that `parse_cmd` makes for a token. -/
def tokenSlot (_ : ℕ) (w : List Byte) : Slot (List Byte) := .block (w ++ [0])

/-- The argument array of the command that becomes number `n`. -/
def argvSlot (h : Malloc) (n : ℕ) (ws : List (List Byte)) : Slot Argv :=
  .block (storeFrom tokenSlot (h.argv n) 0 ws)

/-- The commands of the pieces, of each of which the first `k` characters are passed over, and the
first one of the pieces behind it. A piece that is shorter has no result. -/
def cutPieces : ℕ → List (List Byte) → Option (List (List (List Byte)))
  | _, [] => some []
  | k, g :: gs => if k ≤ g.length then (cutPieces 1 gs).map (words space (g.drop k) :: ·) else none

theorem parseCmdFrom_zero (a : Argv) (i : ℕ) (m : List Byte) :
    parseCmdFrom a i (0 :: m) = some a := by
  have htok : strtok space (0 :: m) = some none := strtok_zero (by decide) m
  unfold parseCmdFrom
  rw [htok]

theorem strtok_cons_delim (delim : Byte) (m : List Byte) :
    strtok delim (delim :: m) = strtok delim m := by
  unfold strtok
  rw [List.dropWhile_cons_of_pos (by simp)]

theorem parseCmdFrom_space (a : Argv) (i : ℕ) (m : List Byte) :
    parseCmdFrom a i (space :: m) = parseCmdFrom a i m := by
  have htok := strtok_cons_delim space m
  conv_lhs => unfold parseCmdFrom
  conv_rhs => unfold parseCmdFrom
  rw [htok]

theorem parseCmdFrom_token {w : List Byte} (hne : w ≠ []) (hspace : space ∉ w) (h0 : 0 ∉ w)
    {c : Byte} (hc : c = space ∨ c = 0) (a : Argv) {i : ℕ} (hi : i < maxNumOfTokens)
    (m : List Byte) :
    parseCmdFrom a i (w ++ c :: m) = parseCmdFrom (Function.update a i (tokenSlot i w)) (i + 1)
      (if c = 0 then c :: m else m) := by
  have hword : ∀ b ∈ w, isWordByte space b = true := by
    intro b hb
    have hs : b ≠ space := fun he => hspace (he ▸ hb)
    have hz : b ≠ 0 := fun he => h0 (he ▸ hb)
    simp [isWordByte, hs, hz]
  have hend : isWordByte space c = false := by
    rcases hc with rfl | rfl <;> decide
  have htok := strtok_word hne hword hend m
  have hcopy := strncpy_whole h0 m
  conv_lhs => unfold parseCmdFrom
  rw [htok]
  dsimp only
  rw [if_pos hi, hcopy]
  rfl

/-- `parse_cmd` stores the words of its text. -/
theorem parseCmdFrom_text {t : List Byte} (h0 : 0 ∉ t) (a : Argv) {i : ℕ}
    (hi : i + (words space t).length ≤ maxNumOfTokens) (m : List Byte) :
    parseCmdFrom a i (t ++ 0 :: m) = some (storeFrom tokenSlot a i (words space t)) := by
  induction hn : t.length using Nat.strong_induction_on generalizing t a i with
  | _ n ih =>
    cases t with
    | nil => exact parseCmdFrom_zero a i m
    | cons c t =>
      by_cases hc : c = space
      · subst hc
        have hz : 0 ∉ t := fun h => h0 (List.mem_cons_of_mem _ h)
        rw [words_cons_delim] at hi ⊢
        rw [List.cons_append, parseCmdFrom_space]
        exact ih t.length (by rw [← hn, List.length_cons]; omega) hz a hi rfl
      · obtain ⟨w, rest, hsplit, hne, hspace, hrest⟩ := exists_first_word hc t
        rw [hsplit] at h0 hi ⊢
        have hz : 0 ∉ w := fun h => h0 (List.mem_append_left _ h)
        rcases hrest with rfl | ⟨u, rfl⟩
        · rw [List.append_nil, words_of_notMem hne hspace] at hi ⊢
          have hlt : i < maxNumOfTokens := hi
          rw [parseCmdFrom_token hne hspace hz (Or.inr rfl) a hlt, if_pos rfl, parseCmdFrom_zero]
          rfl
        · have hzu : 0 ∉ u := fun h => h0 (List.mem_append_right _ (List.mem_cons_of_mem _ h))
          have hlen : u.length < n := by
            rw [← hn, hsplit, List.length_append, List.length_cons]
            omega
          rw [words_append_cons hne hspace, List.length_cons] at hi
          rw [words_append_cons hne hspace, List.append_assoc, List.cons_append,
            parseCmdFrom_token hne hspace hz (Or.inl rfl) a (by omega),
            if_neg (by decide : ¬ space = 0), ih u.length hlen hzu _ (by omega) rfl]
          rfl

section Line
variable {h : Malloc} {cmdline : List Byte}

/-- Characters that end no command are passed over. -/
theorem parseFrom_skip {w : List Byte} (hw : ∀ b ∈ w, b ≠ bar ∧ b ≠ 0) (i : ℕ) (rest : List Byte)
    (s : Parse) :
    parseFrom h cmdline i (w ++ rest) s = parseFrom h cmdline (i + w.length) rest s := by
  induction w generalizing i with
  | nil => rfl
  | cons b w ih =>
    obtain ⟨hbar, hzero⟩ := hw b List.mem_cons_self
    have hnext := ih (fun c hc => hw c (List.mem_cons_of_mem _ hc)) (i + 1)
    rw [List.cons_append]
    conv_lhs => unfold parseFrom
    rw [if_neg (not_or.mpr ⟨hbar, hzero⟩), hnext, List.length_cons, Nat.add_right_comm]
    rfl

theorem cutCmd_text {t : List Byte} (h0 : 0 ∉ t) (b : Byte) {rest : List Byte} {s : Parse}
    (hdrop : cmdline.drop s.prevCmdOffset = t ++ rest)
    (hlen : s.prevCmdOffset + t.length < maxStrLen) (hnum : s.numOfCmd < maxNumOfCmd) :
    cutCmd h cmdline (s.prevCmdOffset + t.length) b s =
      some { cmdArray :=
               Function.update s.cmdArray s.numOfCmd (argvSlot h s.numOfCmd (words space t))
             numOfCmd := s.numOfCmd + 1
             prevCmdOffset := s.prevCmdOffset + (if b = bar then 2 else 0) + t.length } := by
  have htext : t.length < (h.text s.numOfCmd).length := by
    rw [h.length_text]
    omega
  have hblock := strncpy_set_zero h0 htext rest
  have htokens : 0 + (words space t).length ≤ maxNumOfTokens := by
    have hle := words_length_le space t
    change 0 + (words space t).length ≤ maxStrLen
    omega
  have hparse := parseCmdFrom_text h0 (h.argv s.numOfCmd) htokens
    ((h.text s.numOfCmd).drop (t.length + 1))
  unfold cutCmd
  rw [if_pos ⟨Nat.le_add_right _ _, by rw [Nat.add_sub_cancel_left]; omega, hnum⟩]
  dsimp only
  rw [Nat.add_sub_cancel_left, hdrop, hblock]
  unfold parseCmd
  rw [hparse]
  rfl

theorem cutCmd_of_lt {i : ℕ} {s : Parse} (b : Byte) (hi : i < s.prevCmdOffset) :
    cutCmd h cmdline i b s = none :=
  if_neg fun hguard => (not_le_of_gt hi) hguard.1

theorem cutCmd_piece {g : List Byte} (h0 : 0 ∉ g) (b : Byte) {k i : ℕ} {rest : List Byte} {s : Parse}
    (hprev : s.prevCmdOffset = i + k) (hdrop : cmdline.drop i = g ++ rest)
    (hlen : i + g.length < maxStrLen) (hnum : s.numOfCmd ≤ i) :
    cutCmd h cmdline (i + g.length) b s =
      if k ≤ g.length then
        some { cmdArray := Function.update s.cmdArray s.numOfCmd
                 (argvSlot h s.numOfCmd (words space (g.drop k)))
               numOfCmd := s.numOfCmd + 1
               prevCmdOffset := i + g.length + (if b = bar then 2 else 0) }
      else none := by
  by_cases hk : k ≤ g.length
  · have hz : 0 ∉ g.drop k := fun h => h0 (List.mem_of_mem_drop h)
    have hrest : cmdline.drop s.prevCmdOffset = g.drop k ++ rest := by
      rw [hprev, ← List.drop_drop, hdrop, List.drop_append_of_le_length hk]
    have hend : s.prevCmdOffset + (g.drop k).length = i + g.length := by
      rw [hprev, List.length_drop]
      omega
    have hguard : s.numOfCmd < maxNumOfCmd := by
      change s.numOfCmd < maxStrLen
      omega
    have hcut := cutCmd_text (h := h) hz b hrest (by omega) hguard
    have hnext : s.prevCmdOffset + (if b = bar then 2 else 0) + (g.drop k).length =
        i + g.length + (if b = bar then 2 else 0) := by omega
    rw [if_pos hk, ← hend, hcut, hnext, hend]
  · rw [if_neg hk]
    exact cutCmd_of_lt b (by omega)

theorem intercalate_bar_cons (g d : List Byte) (gs : List (List Byte)) :
    [bar].intercalate (g :: d :: gs) = g ++ bar :: [bar].intercalate (d :: gs) := by
  rw [List.intercalate_cons_cons, List.append_assoc]
  rfl

theorem drop_piece {i : ℕ} {g t : List Byte} (hdrop : cmdline.drop i = g ++ bar :: t) :
    cmdline.drop (i + g.length + 1) = t := by
  rw [Nat.add_assoc, ← List.drop_drop, hdrop, List.drop_length_add_append]
  rfl

theorem parseFrom_pieces {g : List Byte} {gs : List (List Byte)} {k i : ℕ} {s : Parse}
    {rest : List Byte} (hplain : ∀ p ∈ g :: gs, ∀ b ∈ p, b ≠ bar ∧ b ≠ 0)
    (hprev : s.prevCmdOffset = i + k)
    (hdrop : cmdline.drop i = [bar].intercalate (g :: gs) ++ 0 :: rest)
    (hlen : i + ([bar].intercalate (g :: gs)).length < maxStrLen) (hnum : s.numOfCmd ≤ i) :
    (parseFrom h cmdline i ([bar].intercalate (g :: gs) ++ 0 :: rest) s).map Parse.cmdArray =
      (cutPieces k (g :: gs)).map (storeFrom (argvSlot h) s.cmdArray s.numOfCmd) := by
  have hg := hplain g List.mem_cons_self
  have h0 : 0 ∉ g := fun hz => (hg 0 hz).2 rfl
  induction gs generalizing g k i s with
  | nil =>
    rw [List.intercalate_singleton] at hdrop hlen ⊢
    have hcut := cutCmd_piece (h := h) h0 0 hprev hdrop hlen hnum
    rw [parseFrom_skip hg]
    unfold parseFrom cutPieces
    rw [if_pos (Or.inr rfl), hcut]
    by_cases hk : k ≤ g.length
    · rw [if_pos hk, if_pos hk, Option.bind_some, if_pos rfl]
      rfl
    · rw [if_neg hk, if_neg hk]
      rfl
  | cons d gs ih =>
    have hcons := intercalate_bar_cons g d gs
    rw [hcons, List.append_assoc, List.cons_append] at hdrop ⊢
    rw [hcons, List.length_append, List.length_cons] at hlen
    have hcut := cutCmd_piece (h := h) h0 bar hprev hdrop (by omega) hnum
    have hnext := drop_piece hdrop
    rw [parseFrom_skip hg]
    conv_lhs => unfold parseFrom
    conv_rhs => unfold cutPieces
    rw [if_pos (Or.inl rfl), hcut]
    by_cases hk : k ≤ g.length
    · have hd := hplain d (List.mem_cons_of_mem _ List.mem_cons_self)
      rw [if_pos hk, if_pos hk, if_pos rfl, Option.bind_some, if_neg (by decide : ¬ bar = 0),
        ih (k := 1) (fun p hp => hplain p (List.mem_cons_of_mem _ hp)) rfl hnext (by omega)
          (by dsimp only; omega) hd fun hz => (hd 0 hz).2 rfl, Option.map_map]
      rfl
    · rw [if_neg hk, if_neg hk]
      rfl

end Line

end OsTasks.Shell
