import OsTasks.Lib.Decimal

/-! IPv4 addresses and their dotted texts. -/
namespace OsTasks.Lib

structure Ip4 where
  a : UInt8
  b : UInt8
  c : UInt8
  d : UInt8
  deriving DecidableEq

namespace Ip4

def octets (x : Ip4) : List UInt8 := [x.a, x.b, x.c, x.d]

/-- `INADDR_ANY` -/
def any : Ip4 := ⟨0, 0, 0, 0⟩

end Ip4

/-- The text of `inet_ntoa`. -/
def inetNtoa (x : Ip4) : List Byte :=
  [point].intercalate (x.octets.map fun o => decimal o.toNat)

/-- One number of a dotted text: zeros before it are not accepted. -/
def octet? (t : List Byte) : Option UInt8 :=
  if t ≠ [] ∧ t.all isDigit = true ∧ (t.head? = some (digitChar 0) → t.length = 1) ∧
      digitsVal t < 256 then
    some (UInt8.ofNat (digitsVal t))
  else none

/-- `inet_pton` of the C string at the start of `m`. -/
def inetPton (m : List Byte) : Option Ip4 :=
  match ((cstr m).splitOn point).mapM octet? with
  | some [a, b, c, d] => some ⟨a, b, c, d⟩
  | _ => none

theorem octet?_decimal (o : UInt8) : octet? (decimal o.toNat) = some o := by
  have hhead : (decimal o.toNat).head? = some (digitChar 0) → (decimal o.toNat).length = 1 := by
    intro h
    by_cases h0 : o.toNat = 0
    · rw [h0]
      rfl
    · exact absurd h (head?_decimal_ne h0)
  have hval := digitsVal_decimal o.toNat
  have hlt : digitsVal (decimal o.toNat) < 256 := by
    rw [hval]
    exact o.toNat_lt
  have hall : (decimal o.toNat).all isDigit = true :=
    List.all_eq_true.mpr fun b hb => isDigit_of_mem_decimal hb
  unfold octet?
  rw [if_pos ⟨decimal_ne_nil _, hall, hhead, hlt⟩, hval, UInt8.ofNat_toNat]

theorem notMem_decimal {b : Byte} (hb : isDigit b = false) (n : ℕ) : b ∉ decimal n := by
  intro h
  rw [isDigit_of_mem_decimal h] at hb
  cases hb

theorem zero_notMem_inetNtoa (x : Ip4) : 0 ∉ inetNtoa x := by
  have hdigits : ∀ n, (0 : Byte) ∉ decimal n := notMem_decimal (by decide)
  have hpoint : (0 : Byte) ≠ point := by decide
  simp [inetNtoa, Ip4.octets, List.intercalate, List.intersperse, hdigits, hpoint]

/-- The numbers of an address are read back from its text. -/
theorem splitOn_inetNtoa (x : Ip4) :
    (inetNtoa x).splitOn point = x.octets.map fun o => decimal o.toNat := by
  apply List.splitOn_intercalate
  · intro l hl
    obtain ⟨o, _, rfl⟩ := List.mem_map.mp hl
    exact notMem_decimal (by decide) _
  · exact List.cons_ne_nil _ _

/-- An address is read back from its text, which a NUL ends. -/
theorem inetPton_inetNtoa (x : Ip4) (r : List Byte) : inetPton (inetNtoa x ++ 0 :: r) = some x := by
  have htext : cstr (inetNtoa x ++ 0 :: r) = inetNtoa x := by
    rw [cstr_append_zero]
    exact (cstr_eq_self_iff _).mpr (zero_notMem_inetNtoa x)
  unfold inetPton
  rw [htext, splitOn_inetNtoa]
  simp [Ip4.octets, octet?_decimal]

theorem length_inetNtoa (x : Ip4) :
    (inetNtoa x).length = (x.octets.map fun o => (decimal o.toNat).length).sum + 3 := by
  simp only [inetNtoa, Ip4.octets, List.intercalate, List.intersperse, List.map_cons, List.map_nil,
    List.flatten_cons, List.flatten_nil, List.length_append, List.length_cons, List.length_nil,
    List.sum_cons, List.sum_nil]
  omega

theorem length_decimal_octet (o : UInt8) :
    (decimal o.toNat).length ≤ 3 ∧ ((decimal o.toNat).length ≤ 2 ↔ o.toNat < 100) := by
  have hlt : o.toNat < 256 := o.toNat_lt
  refine ⟨(length_decimal_le_iff (by norm_num)).mpr (by omega), ?_⟩
  exact length_decimal_le_iff (by norm_num)

/-- A text has 15 characters at most, and all of them when every number has three. -/
theorem length_inetNtoa_le (x : Ip4) :
    (inetNtoa x).length ≤ 15 ∧ ((inetNtoa x).length < 15 ↔ ∃ o ∈ x.octets, o.toNat < 100) := by
  have hpos : ∀ n, 0 < (decimal n).length := fun n => List.length_pos_of_ne_nil (decimal_ne_nil n)
  obtain ⟨ha, hsa⟩ := length_decimal_octet x.a
  obtain ⟨hb, hsb⟩ := length_decimal_octet x.b
  obtain ⟨hc, hsc⟩ := length_decimal_octet x.c
  obtain ⟨hd, hsd⟩ := length_decimal_octet x.d
  rw [length_inetNtoa]
  simp only [Ip4.octets, List.map_cons, List.map_nil, List.sum_cons, List.sum_nil, List.mem_cons,
    List.not_mem_nil, or_false, exists_eq_or_imp, exists_eq_left, ← hsa, ← hsb, ← hsc, ← hsd]
  omega

end OsTasks.Lib
