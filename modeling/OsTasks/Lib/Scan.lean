import OsTasks.Lib.CString

/-! The `%s` directives of `sscanf`. A scan that would leave its block has no result. -/
namespace OsTasks.Lib

/-- `isspace` in the C locale. -/
def isSpace (b : Byte) : Bool := b = 32 || (9 ≤ b && b ≤ 13)

/-- The bytes a `%s` directive stores. -/
def isToken (b : Byte) : Bool := b ≠ 0 && !isSpace b

/-- At most `n` directives `%s`: the tokens they store, and the block from where they stop. A NUL
ends the scan. -/
def scan : ℕ → List Byte → Option (List (List Byte) × List Byte)
  | 0, m => some ([], m)
  | n + 1, m =>
    match m.dropWhile isSpace with
    | [] => none
    | b :: bs =>
      if b = 0 then some ([], b :: bs)
      else
        match (b :: bs).dropWhile isToken with
        | [] => none
        | c :: cs =>
          (scan n (c :: cs)).map fun r => ((b :: bs).takeWhile isToken :: r.1, r.2)

/-- A word that one `%s` reads back. -/
structure Token where
  bytes : List Byte
  ne_nil : bytes ≠ []
  isToken : ∀ b ∈ bytes, isToken b = true
  deriving DecidableEq

theorem isToken_iff {b : Byte} : isToken b = true ↔ b ≠ 0 ∧ isSpace b = false := by
  simp [isToken]

theorem isToken_of_isSpace {b : Byte} (h : isSpace b = true) : isToken b = false := by
  simp [isToken, h]

theorem scan_space {b : Byte} (h : isSpace b = true) (n : ℕ) (m : List Byte) :
    scan (n + 1) (b :: m) = scan (n + 1) m := by
  unfold scan
  rw [List.dropWhile_cons_of_pos h]

theorem takeWhile_token {t : List Byte} (ht : ∀ b ∈ t, isToken b = true) {c : Byte}
    (hc : isToken c = false) (m : List Byte) : (t ++ c :: m).takeWhile isToken = t := by
  rw [List.takeWhile_append_of_pos ht, List.takeWhile_cons_of_neg (by simp [hc]), List.append_nil]

theorem dropWhile_token {t : List Byte} (ht : ∀ b ∈ t, isToken b = true) {c : Byte}
    (hc : isToken c = false) (m : List Byte) : (t ++ c :: m).dropWhile isToken = c :: m := by
  rw [List.dropWhile_append_of_pos ht, List.dropWhile_cons_of_neg (by simp [hc])]

/-- A directive reads back a token that a space follows. -/
theorem scan_token (t : Token) {c : Byte} (hc : isSpace c = true) (n : ℕ) (m : List Byte) :
    scan (n + 1) (t.bytes ++ c :: m) =
      (scan n (c :: m)).map fun r => (t.bytes :: r.1, r.2) := by
  have hct := isToken_of_isSpace hc
  have htake := takeWhile_token t.isToken hct m
  have hdrop := dropWhile_token t.isToken hct m
  obtain ⟨b, bs, hb⟩ := List.exists_cons_of_ne_nil t.ne_nil
  obtain ⟨hb0, hbs⟩ := isToken_iff.mp (t.isToken b (by simp [hb]))
  have hcons : t.bytes ++ c :: m = b :: (bs ++ c :: m) := by rw [hb, List.cons_append]
  rw [hcons] at htake hdrop ⊢
  rw [scan]
  rw [List.dropWhile_cons_of_neg (by simp [hbs])]
  simp only [hb0, if_false, hdrop, htake]

theorem mem_dropWhile {p : Byte → Bool} {b : Byte} (hp : p b = false) {m : List Byte}
    (h : b ∈ m) : b ∈ m.dropWhile p := by
  rw [← List.takeWhile_append_dropWhile (p := p) (l := m), List.mem_append] at h
  rcases h with h | h
  · have := List.mem_takeWhile_imp h
    simp [hp] at this
  · exact h

theorem scan_of_zero_mem (n : ℕ) {m : List Byte} (h : 0 ∈ m) :
    ∃ r, scan n m = some r ∧ 0 ∈ r.2 := by
  induction n generalizing m with
  | zero => exact ⟨_, rfl, h⟩
  | succ n ih =>
    have hs := mem_dropWhile (p := isSpace) (by decide) h
    unfold scan
    cases hm : m.dropWhile isSpace with
    | nil => simp [hm] at hs
    | cons b bs =>
      rw [hm] at hs
      by_cases hb : b = 0
      · exact ⟨([], b :: bs), by simp [hb], hs⟩
      · have ht := mem_dropWhile (p := isToken) (by decide) hs
        cases hd : (b :: bs).dropWhile isToken with
        | nil => simp [hd] at ht
        | cons c cs =>
          rw [hd] at ht
          obtain ⟨r, hr, h0⟩ := ih ht
          refine ⟨((b :: bs).takeWhile isToken :: r.1, r.2), ?_, h0⟩
          simp only [hb, if_false, hd, hr, Option.map_some]

end OsTasks.Lib
