import OsTasks.Lib.CString

/-! `strtok` with one delimiter. -/
namespace OsTasks.Lib

def isWordByte (delim b : Byte) : Bool := b ≠ delim && b ≠ 0

/-- From where the call starts: the block from the token on, and where the next call starts, or NULL.
A NUL is stored over the delimiter behind the token. A scan that leaves its block has no result. -/
def strtok (delim : Byte) (m : List Byte) : Option (Option (List Byte × List Byte)) :=
  match m.dropWhile (· = delim) with
  | [] => none
  | b :: bs =>
    if b = 0 then some none
    else
      match (b :: bs).dropWhile (isWordByte delim) with
      | [] => none
      | c :: cs =>
        some (some ((b :: bs).takeWhile (isWordByte delim) ++ 0 :: cs, if c = 0 then c :: cs else cs))

/-- A call that finds a token gets ahead. -/
theorem strtok_length_lt {delim : Byte} {m arg rest : List Byte}
    (h : strtok delim m = some (some (arg, rest))) : rest.length < m.length := by
  unfold strtok at h
  have hskip : (m.dropWhile (· = delim)).length ≤ m.length :=
    (List.dropWhile_suffix (· = delim)).length_le
  cases hm : m.dropWhile (· = delim) with
  | nil => simp [hm] at h
  | cons b bs =>
    rw [hm] at h hskip
    dsimp only at h
    have hdelim : b ≠ delim := by
      have hhead := List.head_dropWhile_not (· = delim) (l := m) (by simp [hm])
      simpa [hm] using hhead
    by_cases hb : b = 0
    · rw [if_pos hb] at h
      cases h
    · rw [if_neg hb] at h
      have hword : isWordByte delim b = true := by simp [isWordByte, hdelim, hb]
      have hdrop : ((b :: bs).dropWhile (isWordByte delim)).length ≤ bs.length := by
        rw [List.dropWhile_cons_of_pos hword]
        exact (List.dropWhile_suffix (isWordByte delim)).length_le
      cases hd : (b :: bs).dropWhile (isWordByte delim) with
      | nil => simp [hd] at h
      | cons c cs =>
        rw [hd] at h hdrop
        obtain ⟨_, hrest⟩ := Prod.mk.inj (Option.some.inj (Option.some.inj h))
        rw [List.length_cons] at hdrop hskip
        have hle : rest.length ≤ cs.length + 1 := by
          rw [← hrest]
          split_ifs
          · exact le_rfl
          · omega
        omega

theorem strtok_zero {delim : Byte} (hd : delim ≠ 0) (m : List Byte) :
    strtok delim (0 :: m) = some none := by
  unfold strtok
  rw [List.dropWhile_cons_of_neg (by simpa using hd.symm)]
  rfl

/-- A word and what ends it. -/
theorem strtok_word {delim : Byte} {t : List Byte} (hne : t ≠ [])
    (ht : ∀ b ∈ t, isWordByte delim b = true) {c : Byte} (hc : isWordByte delim c = false)
    (m : List Byte) :
    strtok delim (t ++ c :: m) = some (some (t ++ 0 :: m, if c = 0 then c :: m else m)) := by
  have htake : (t ++ c :: m).takeWhile (isWordByte delim) = t := by
    rw [List.takeWhile_append_of_pos ht, List.takeWhile_cons_of_neg (by simp [hc]), List.append_nil]
  have hdrop : (t ++ c :: m).dropWhile (isWordByte delim) = c :: m := by
    rw [List.dropWhile_append_of_pos ht, List.dropWhile_cons_of_neg (by simp [hc])]
  obtain ⟨b, bs, rfl⟩ := List.exists_cons_of_ne_nil hne
  have hb : b ≠ delim ∧ b ≠ 0 := by
    have hword := ht b List.mem_cons_self
    simpa [isWordByte] using hword
  rw [List.cons_append] at htake hdrop
  unfold strtok
  rw [List.cons_append, List.dropWhile_cons_of_neg (by simpa using hb.1)]
  dsimp only
  rw [if_neg hb.2, hdrop, htake]

end OsTasks.Lib
