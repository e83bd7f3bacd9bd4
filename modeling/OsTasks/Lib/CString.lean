import Mathlib.Tactic
import Mathlib.Data.List.TakeWhile

/-! Memory blocks as lists of bytes, and the C string functions on them. A scan that would
leave its block has no result. -/
namespace OsTasks.Lib

abbrev Byte := UInt8

/-- The bytes before the first NUL. -/
def cstr (m : List Byte) : List Byte := m.takeWhile (· ≠ 0)

def strlen (m : List Byte) : ℕ := (cstr m).length

/-- Stores `src` at the start of `dst`, as `memcpy` and `read` do. -/
def overwrite (dst src : List Byte) : List Byte := src ++ dst.drop src.length

/-- Copies up to `n` bytes of the C string `src`, and NULs after its end. -/
def strncpy (dst src : List Byte) (n : ℕ) : List Byte :=
  overwrite dst (cstr (src.take n) ++ List.replicate (n - strlen (src.take n)) 0)

def strcmp : List Byte → List Byte → Option ℤ
  | a :: as, b :: bs =>
    if a = b then if a = 0 then some 0 else strcmp as bs
    else some ((a.toNat : ℤ) - b.toNat)
  | _, _ => none

/-- How many bytes of its first string `strcmp` reads, one behind the block included where it gets
there. -/
def strcmpReads : List Byte → List Byte → ℕ
  | a :: as, b :: bs => if a = b ∧ a ≠ 0 then strcmpReads as bs + 1 else 1
  | _, _ => 1

theorem cstr_isPrefix (m : List Byte) : cstr m <+: m := List.takeWhile_prefix _

theorem strlen_le (m : List Byte) : strlen m ≤ m.length := (cstr_isPrefix m).length_le

theorem take_strlen (m : List Byte) : m.take (strlen m) = cstr m :=
  (List.prefix_iff_eq_take.mp (cstr_isPrefix m)).symm

@[simp] theorem cstr_append_drop (m : List Byte) : cstr m ++ m.drop (strlen m) = m := by
  rw [← take_strlen, List.take_append_drop]

theorem cstr_eq_self_iff (m : List Byte) : cstr m = m ↔ 0 ∉ m := by
  unfold cstr
  rw [List.takeWhile_eq_self_iff]
  constructor
  · intro h h0
    simpa using h 0 h0
  · intro h x hx
    simpa using fun hz : x = 0 => h (hz ▸ hx)

/-- The scan stops at the NUL a store put behind `m`. -/
theorem cstr_append_zero (m r : List Byte) : cstr (m ++ 0 :: r) = cstr m := by
  induction m with
  | nil => simp [cstr]
  | cons b m ih =>
    by_cases hb : b = 0
    · simp [cstr, hb]
    · simpa [cstr, hb] using ih

@[simp] theorem length_overwrite {dst src : List Byte} (h : src.length ≤ dst.length) :
    (overwrite dst src).length = dst.length := by
  simp only [overwrite, List.length_append, List.length_drop]
  omega

theorem take_overwrite (dst src : List Byte) : (overwrite dst src).take src.length = src := by
  simp [overwrite]

theorem overwrite_of_length_le {dst src : List Byte} (h : dst.length ≤ src.length) :
    overwrite dst src = src := by
  simp [overwrite, h]

theorem length_strncpy {dst src : List Byte} {n : ℕ} (h : n ≤ dst.length) :
    (strncpy dst src n).length = dst.length := by
  have hs := (strlen_le (src.take n)).trans (List.length_take_le n src)
  apply length_overwrite
  simp only [List.length_append, List.length_replicate]
  change strlen (src.take n) + _ ≤ _
  omega

theorem strncpy_whole {m : List Byte} (h : 0 ∉ m) (r : List Byte) :
    strncpy [] (m ++ 0 :: r) (strlen (m ++ 0 :: r) + 1) = m ++ [0] := by
  have hm : cstr m = m := (cstr_eq_self_iff m).mpr h
  have hlen : strlen (m ++ 0 :: r) = m.length := by
    unfold strlen
    rw [cstr_append_zero, hm]
  have htake : (m ++ 0 :: r).take (m.length + 1) = m ++ [0] := by
    rw [List.take_length_add_append]
    rfl
  have hcopy : cstr (m ++ [0]) = m := (cstr_append_zero m []).trans hm
  have hone : m.length + 1 - strlen (m ++ [0]) = 1 := by
    unfold strlen
    rw [hcopy]
    omega
  unfold strncpy
  rw [hlen, htake, hcopy, hone, overwrite_of_length_le (Nat.zero_le _)]
  rfl

/-- Part of a string that is copied, and terminated by a store of its own. -/
theorem strncpy_set_zero {dst p : List Byte} (h : 0 ∉ p) (hlt : p.length < dst.length)
    (r : List Byte) :
    (strncpy dst (p ++ r) p.length).set p.length 0 = p ++ 0 :: dst.drop (p.length + 1) := by
  have hp : cstr p = p := (cstr_eq_self_iff p).mpr h
  have hnone : p.length - strlen p = 0 := by
    unfold strlen
    rw [hp]
    omega
  unfold strncpy overwrite
  rw [List.take_left, hp, hnone, List.replicate_zero, List.append_nil,
    List.set_append_right _ _ le_rfl, Nat.sub_self, List.drop_eq_getElem_cons hlt,
    List.set_cons_zero]

/-- Equality with a string literal is decided within the bytes of the literal and its NUL. -/
theorem strcmp_eq_zero_iff {m lit : List Byte} (h : 0 ∉ lit) :
    strcmp m (lit ++ [0]) = some 0 ↔ lit ++ [0] <+: m := by
  induction lit generalizing m with
  | nil =>
    cases m with
    | nil => simp [strcmp]
    | cons a m =>
      by_cases ha : a = 0
      · simp [strcmp, ha]
      · have hn : ¬ a.toNat = 0 := fun hz => ha (UInt8.toNat_inj.mp hz)
        simp [strcmp, ha, hn, Ne.symm ha]
  | cons b lit ih =>
    obtain ⟨hb, hl⟩ := not_or.mp (List.mem_cons.not.mp h)
    cases m with
    | nil => simp [strcmp]
    | cons a m =>
      by_cases ha : a = b
      · subst ha
        simp [strcmp, Ne.symm hb, ih hl]
      · have hn : ((a.toNat : ℤ) - b.toNat) ≠ 0 := fun hz =>
          ha (UInt8.toNat_inj.mp (by omega))
        simp [strcmp, ha, hn, Ne.symm ha]

/-- `strcmp` reads no more bytes than the string literal has. -/
theorem strcmpReads_le (m lit : List Byte) : strcmpReads m (lit ++ [0]) ≤ lit.length + 1 := by
  induction lit generalizing m with
  | nil =>
    cases m with
    | nil => exact le_rfl
    | cons a m =>
      have hdiffer : ¬ (a = 0 ∧ a ≠ 0) := fun h => h.2 h.1
      change (if a = 0 ∧ a ≠ 0 then _ else 1) ≤ 1
      rw [if_neg hdiffer]
  | cons b lit ih =>
    cases m with
    | nil => exact Nat.le_add_left 1 _
    | cons a m =>
      have hrest := ih m
      rw [List.cons_append, List.length_cons]
      unfold strcmpReads
      split_ifs <;> omega

end OsTasks.Lib
