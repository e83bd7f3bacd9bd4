import Mathlib.Algebra.Order.Floor.Ring
import Mathlib.Data.Nat.Digits.Defs
import Mathlib.Data.Nat.Digits.Lemmas
import OsTasks.Lib.CString

/-! Texts as bytes, and numbers in decimal, as `printf` writes them. -/
namespace OsTasks.Lib

def ascii (s : String) : List Byte := s.toList.map fun c => UInt8.ofNat c.toNat

/-- The character of a digit. -/
def digitChar (d : ℕ) : Byte := UInt8.ofNat (0x30 + d)

/-- `%d` -/
def decimal (n : ℕ) : List Byte :=
  if n = 0 then [digitChar 0] else (Nat.digits 10 n).reverse.map digitChar

/-- `%0wd` -/
def padded (w n : ℕ) : List Byte :=
  List.replicate (w - (decimal n).length) (digitChar 0) ++ decimal n

def minus : Byte := 0x2d

def point : Byte := 0x2e

def sign (negative : Bool) : List Byte := if negative then [minus] else []

/-- `%lld` -/
def signedDecimal (z : ℤ) : List Byte := sign (z < 0) ++ decimal z.natAbs

/-- To the nearest integer, at a midpoint to the even one. -/
def roundEven (q : ℚ) : ℤ :=
  if q - ⌊q⌋ < 1 / 2 then ⌊q⌋
  else if 1 / 2 < q - ⌊q⌋ then ⌊q⌋ + 1
  else ⌊q⌋ + ⌊q⌋ % 2

/-- The millionths that are left of a number without its sign. -/
def millionths (q : ℚ) : ℕ := (roundEven (|q| * 10 ^ 6)).natAbs

/-- `%lf` -/
def fixed6 (q : ℚ) : List Byte :=
  sign (q < 0) ++ decimal (millionths q / 10 ^ 6) ++ point :: padded 6 (millionths q % 10 ^ 6)

def isDigit (b : Byte) : Bool := 0x30 ≤ b && b ≤ 0x39

def digitVal (b : Byte) : ℕ := b.toNat - 0x30

/-- What a row of digits stands for. -/
def digitsVal (l : List Byte) : ℕ := Nat.ofDigits 10 (l.reverse.map digitVal)

theorem digitChar_spec {d : ℕ} (h : d < 10) :
    isDigit (digitChar d) = true ∧ digitVal (digitChar d) = d := by
  interval_cases d <;> decide

theorem digitVal_eq_zero_iff {b : Byte} (h : isDigit b = true) :
    digitVal b = 0 ↔ b = digitChar 0 := by
  have hle : 0x30 ≤ b := by
    unfold isDigit at h
    simp only [Bool.and_eq_true, decide_eq_true_eq] at h
    exact h.1
  have hnat : 0x30 ≤ b.toNat := UInt8.le_iff_toNat_le.mp hle
  unfold digitVal
  constructor
  · intro h0
    apply UInt8.toNat_inj.mp
    change b.toNat = 0x30
    omega
  · rintro rfl
    rfl

theorem digitsVal_append (a b : List Byte) :
    digitsVal (a ++ b) = digitsVal a * 10 ^ b.length + digitsVal b := by
  unfold digitsVal
  rw [List.reverse_append, List.map_append, Nat.ofDigits_append, List.length_map,
    List.length_reverse]
  ring

theorem decimal_ne_nil (n : ℕ) : decimal n ≠ [] := by
  unfold decimal
  split_ifs with h
  · exact List.cons_ne_nil _ _
  · simpa using Nat.digits_ne_nil_iff_ne_zero.mpr h

theorem isDigit_of_mem_decimal {n : ℕ} {b : Byte} (hb : b ∈ decimal n) : isDigit b = true := by
  unfold decimal at hb
  split_ifs at hb
  · rw [List.mem_singleton.mp hb]
    rfl
  · obtain ⟨d, hd, rfl⟩ := List.mem_map.mp hb
    exact (digitChar_spec (Nat.digits_lt_base (by norm_num) (List.mem_reverse.mp hd))).1

theorem digitsVal_decimal (n : ℕ) : digitsVal (decimal n) = n := by
  unfold decimal
  split_ifs with h
  · rw [h]
    rfl
  · have hmap : ((Nat.digits 10 n).map digitChar).map digitVal = Nat.digits 10 n := by
      rw [List.map_map]
      conv_rhs => rw [← List.map_id (Nat.digits 10 n)]
      apply List.map_congr_left
      intro d hd
      exact (digitChar_spec (Nat.digits_lt_base (by norm_num) hd)).2
    unfold digitsVal
    rw [← List.map_reverse, List.reverse_reverse, hmap, Nat.ofDigits_digits]

theorem isDigit_of_mem_padded {w n : ℕ} {b : Byte} (hb : b ∈ padded w n) : isDigit b = true := by
  rcases List.mem_append.mp hb with hb | hb
  · rw [List.eq_of_mem_replicate hb]
    rfl
  · exact isDigit_of_mem_decimal hb

theorem digitsVal_padded (w n : ℕ) : digitsVal (padded w n) = n := by
  unfold padded
  have hzero : digitsVal (List.replicate (w - (decimal n).length) (digitChar 0)) = 0 := by
    unfold digitsVal
    rw [List.reverse_replicate, List.map_replicate]
    exact Nat.ofDigits_replicate_zero
  rw [digitsVal_append, hzero, digitsVal_decimal, zero_mul, zero_add]

theorem length_decimal_le_iff {w n : ℕ} (hw : 0 < w) : (decimal n).length ≤ w ↔ n < 10 ^ w := by
  unfold decimal
  split_ifs with h
  · rw [h]
    exact iff_of_true hw (by positivity)
  · rw [List.length_map, List.length_reverse]
    exact Nat.digits_length_le_iff (by norm_num) n

/-- No zeros stand before a number. -/
theorem head?_decimal_ne {n : ℕ} (hn : n ≠ 0) : (decimal n).head? ≠ some (digitChar 0) := by
  have hne : Nat.digits 10 n ≠ [] := Nat.digits_ne_nil_iff_ne_zero.mpr hn
  have hmem : (Nat.digits 10 n).getLast hne < 10 :=
    Nat.digits_lt_base (by norm_num) (List.getLast_mem hne)
  have hlast := Nat.getLast_digit_ne_zero 10 hn
  unfold decimal
  rw [if_neg hn, List.head?_map, List.head?_reverse, List.getLast?_eq_some_getLast hne]
  intro h
  have hval := congrArg digitVal (Option.some.inj h)
  rw [(digitChar_spec hmem).2] at hval
  exact hlast hval

theorem length_padded {w n : ℕ} (hw : 0 < w) (hn : n < 10 ^ w) : (padded w n).length = w := by
  have hle : (decimal n).length ≤ w := (length_decimal_le_iff hw).mpr hn
  unfold padded
  rw [List.length_append, List.length_replicate]
  omega

theorem isPrefix_append_cases {α : Type} {p a b : List α} (h : p <+: a ++ b) :
    p <+: a ∨ ∃ c, c ≠ [] ∧ c <+: b ∧ p = a ++ c := by
  rcases List.prefix_or_prefix_of_prefix h (List.prefix_append a b) with hp | ⟨c, rfl⟩
  · exact Or.inl hp
  · by_cases hc : c = []
    · left
      rw [hc, List.append_nil]
    · exact Or.inr ⟨c, hc, (List.prefix_append_right_inj a).mp h, rfl⟩

/-- The length without the zeros at the end. -/
def trimmedLength (l : List Byte) : ℕ := (l.reverse.dropWhile (· = digitChar 0)).length

theorem trimmedLength_le_iff {f r : List Byte} :
    trimmedLength (f ++ r) ≤ f.length ↔ ∀ b ∈ r, b = digitChar 0 := by
  have hall : (r.reverse.dropWhile (· = digitChar 0)) = [] ↔ ∀ b ∈ r, b = digitChar 0 := by
    rw [List.dropWhile_eq_nil_iff]
    simp
  unfold trimmedLength
  rw [List.reverse_append, List.dropWhile_append]
  by_cases h : (r.reverse.dropWhile (· = digitChar 0)) = []
  · rw [h]
    have hle := (List.dropWhile_suffix (l := f.reverse) (· = digitChar 0)).length_le
    rw [List.length_reverse] at hle
    exact iff_of_true hle (hall.mp h)
  · have hpos := List.length_pos_of_ne_nil h
    rw [if_neg (by simpa using h), List.length_append, List.length_reverse]
    exact iff_of_false (by omega) (mt hall.mpr h)

theorem digitsVal_eq_zero_iff {l : List Byte} (hl : ∀ b ∈ l, isDigit b = true) :
    digitsVal l = 0 ↔ ∀ b ∈ l, b = digitChar 0 := by
  induction l with
  | nil => exact iff_of_true rfl (fun b hb => absurd hb List.not_mem_nil)
  | cons b l ih =>
    have hb : digitVal b = 0 ↔ b = digitChar 0 := digitVal_eq_zero_iff (hl b List.mem_cons_self)
    have hval : digitsVal (b :: l) = digitVal b * 10 ^ l.length + digitsVal l := by
      have happ := digitsVal_append [b] l
      rwa [show digitsVal [b] = digitVal b from Nat.ofDigits_singleton] at happ
    rw [hval, List.forall_mem_cons, ← hb, ← ih fun c hc => hl c (List.mem_cons_of_mem _ hc)]
    have hten : (10 : ℕ) ^ l.length ≠ 0 := by positivity
    rw [Nat.add_eq_zero_iff, Nat.mul_eq_zero]
    tauto

/-- The first digits of a number stand for less, unless nothing but a zero is missing. -/
theorem digitsVal_cut_decimal {i : List Byte} {n : ℕ} (h : i <+: decimal n) :
    digitsVal i ≤ n ∧ (digitsVal i = n ↔ n = 0 ∨ i = decimal n) := by
  obtain ⟨r, hr⟩ := h
  have hval : digitsVal i * 10 ^ r.length + digitsVal r = n := by
    rw [← digitsVal_append, hr, digitsVal_decimal]
  have hten : 1 ≤ 10 ^ r.length := Nat.one_le_pow _ _ (by norm_num)
  have hle : digitsVal i ≤ digitsVal i * 10 ^ r.length := Nat.le_mul_of_pos_right _ hten
  refine ⟨by omega, ?_⟩
  constructor
  · intro he
    by_cases hn : n = 0
    · exact Or.inl hn
    right
    have hmul : n * 10 ^ r.length ≤ n * 1 := by
      rw [he] at hval
      omega
    have hpow : 10 ^ r.length ≤ 1 := Nat.le_of_mul_le_mul_left hmul (Nat.pos_of_ne_zero hn)
    have hzero : r.length = 0 := by
      by_contra hne
      have hlt : 1 < 10 ^ r.length := Nat.one_lt_pow hne (by norm_num)
      omega
    rw [← hr, List.eq_nil_of_length_eq_zero hzero, List.append_nil]
  · rintro (hn | rfl)
    · omega
    · exact digitsVal_decimal n

/-- The first decimals are the whole fraction when only zeros are missing. -/
theorem digitsVal_cut_padded {f : List Byte} {w n : ℕ} (hw : 0 < w) (hn : n < 10 ^ w)
    (h : f <+: padded w n) :
    (digitsVal f : ℚ) / 10 ^ f.length = n / 10 ^ w ↔ trimmedLength (padded w n) ≤ f.length := by
  obtain ⟨r, hr⟩ := h
  have hval : digitsVal f * 10 ^ r.length + digitsVal r = n := by
    rw [← digitsVal_append, hr, digitsVal_padded]
  have hlen : f.length + r.length = w := by
    rw [← List.length_append, hr, length_padded hw hn]
  have hdigits : ∀ b ∈ r, isDigit b = true := by
    intro b hb
    apply isDigit_of_mem_padded (w := w) (n := n)
    rw [← hr]
    exact List.mem_append_right _ hb
  rw [← hr, trimmedLength_le_iff, ← digitsVal_eq_zero_iff hdigits, ← hlen, pow_add,
    div_eq_div_iff (by positivity) (by positivity)]
  have hcast : (digitsVal f : ℚ) * (10 ^ f.length * 10 ^ r.length) = n * 10 ^ f.length ↔
      (digitsVal f * 10 ^ r.length : ℚ) = n := by
    rw [mul_left_comm, mul_comm (n : ℚ)]
    exact mul_right_inj' (by positivity)
  rw [hcast]
  constructor
  · intro he
    have hnat : digitsVal f * 10 ^ r.length = n := by exact_mod_cast he
    omega
  · intro he
    have hnat : digitsVal f * 10 ^ r.length = n := by omega
    exact_mod_cast hnat

end OsTasks.Lib
