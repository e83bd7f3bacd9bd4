import OsTasks.Lib.Decimal
import OsTasks.Lib.Scan
import OsTasks.Lib.SignedInt

/-! The `%lf` and `%lld` directives of `sscanf`, on numbers written in decimal without an exponent,
and what is left of a number when its text is cut off. -/
namespace OsTasks.Lib

/-- The sign and what follows. -/
def scanSign (m : List Byte) : Bool × List Byte :=
  if m.head? = some minus then (true, m.tail)
  else if m.head? = some 0x2b then (false, m.tail)
  else (false, m)

def withSign {α : Type} [Neg α] (negative : Bool) (a : α) : α := if negative then -a else a

/-- `%lf`: the value and what follows, or a matching failure. -/
def scanLf (m : List Byte) : Option (ℚ × List Byte) :=
  let (negative, m) := scanSign (m.dropWhile isSpace)
  let int := m.takeWhile isDigit
  let m := m.dropWhile isDigit
  let (frac, m) :=
    if m.head? = some point then (m.tail.takeWhile isDigit, m.tail.dropWhile isDigit) else ([], m)
  if int = [] ∧ frac = [] then none
  else some (withSign negative (digitsVal int + digitsVal frac / 10 ^ frac.length), m)

/-- `%lld`. -/
def scanLld (m : List Byte) : Option (ℤ × List Byte) :=
  let (negative, m) := scanSign (m.dropWhile isSpace)
  let int := m.takeWhile isDigit
  if int = [] then none else some (withSign negative (digitsVal int), m.dropWhile isDigit)

/-- `strtol` to base 10: 0 without digits, the nearest `long` for a number that none holds. -/
def strtol (m : List Byte) : SInt 64 := .clamp 64 ((scanLld (cstr m)).elim 0 Prod.fst)

/-- `atoi` is `strtol`, converted to `int`. -/
def atoi (m : List Byte) : SInt 32 := .wrap 32 (strtol m).val

/-- The next character does not go on with a row of digits. -/
def Stops (m : List Byte) : Prop := ∀ b ∈ m.head?, isDigit b = false

theorem takeWhile_digits {l r : List Byte} (hl : ∀ b ∈ l, isDigit b = true) (hr : Stops r) :
    (l ++ r).takeWhile isDigit = l := by
  rw [List.takeWhile_append_of_pos hl]
  cases r with
  | nil => simp
  | cons b r =>
    rw [List.takeWhile_cons_of_neg, List.append_nil]
    rw [hr b rfl]
    exact Bool.false_ne_true

theorem dropWhile_digits {l r : List Byte} (hl : ∀ b ∈ l, isDigit b = true) (hr : Stops r) :
    (l ++ r).dropWhile isDigit = r := by
  rw [List.dropWhile_append_of_pos hl]
  cases r with
  | nil => rfl
  | cons b r =>
    rw [List.dropWhile_cons_of_neg]
    rw [hr b rfl]
    exact Bool.false_ne_true

theorem not_isSpace_of_isDigit {b : Byte} (h : isDigit b = true) : isSpace b = false := by
  have hle : 0x30 ≤ b.toNat := by
    unfold isDigit at h
    simp only [Bool.and_eq_true, decide_eq_true_eq] at h
    exact UInt8.le_iff_toNat_le.mp h.1
  unfold isSpace
  rw [Bool.or_eq_false_iff]
  constructor
  · apply decide_eq_false
    rintro rfl
    exact absurd hle (by decide)
  · rw [Bool.and_eq_false_iff]
    right
    apply decide_eq_false
    intro h13
    have hnat : b.toNat ≤ 13 := UInt8.le_iff_toNat_le.mp h13
    omega

theorem scanSign_sign (negative : Bool) {m : List Byte} (hne : m ≠ [])
    (hm : ∀ b ∈ m.head?, isDigit b = true) :
    scanSign ((sign negative ++ m).dropWhile isSpace) = (negative, m) := by
  obtain ⟨b, r, rfl⟩ := List.exists_cons_of_ne_nil hne
  have hb : isDigit b = true := hm b rfl
  cases negative with
  | true =>
    have hdrop : (sign true ++ b :: r).dropWhile isSpace = minus :: b :: r :=
      List.dropWhile_cons_of_neg (by decide)
    rw [hdrop]
    rfl
  | false =>
    have hdrop : (sign false ++ b :: r).dropWhile isSpace = b :: r :=
      List.dropWhile_cons_of_neg (by rw [not_isSpace_of_isDigit hb]; exact Bool.false_ne_true)
    have hminus : b ≠ minus := by
      rintro rfl
      exact absurd hb (by decide)
    have hplus : b ≠ 0x2b := by
      rintro rfl
      exact absurd hb (by decide)
    rw [hdrop]
    unfold scanSign
    rw [if_neg, if_neg]
    · exact fun h => hplus (Option.some.inj h)
    · exact fun h => hminus (Option.some.inj h)

theorem head?_digits {l r : List Byte} (hne : l ≠ []) (hl : ∀ b ∈ l, isDigit b = true) :
    ∀ b ∈ (l ++ r).head?, isDigit b = true := by
  intro b hb
  rw [List.head?_append_of_ne_nil _ hne] at hb
  exact hl b (List.mem_of_head? hb)

theorem scanLf_int (negative : Bool) {int m : List Byte} (hne : int ≠ [])
    (hint : ∀ b ∈ int, isDigit b = true) (hm : Stops m) (hpoint : m.head? ≠ some point) :
    scanLf (sign negative ++ (int ++ m)) = some (withSign negative (digitsVal int : ℚ), m) := by
  have hsign := scanSign_sign negative (List.append_ne_nil_of_left_ne_nil hne m)
    (head?_digits hne hint)
  unfold scanLf
  simp only [hsign, takeWhile_digits hint hm, dropWhile_digits hint hm, if_neg hpoint, hne,
    false_and, if_false]
  simp [digitsVal]

theorem scanLf_frac (negative : Bool) {int frac m : List Byte} (hne : int ≠ [])
    (hint : ∀ b ∈ int, isDigit b = true) (hfrac : ∀ b ∈ frac, isDigit b = true) (hm : Stops m) :
    scanLf (sign negative ++ (int ++ point :: (frac ++ m))) =
      some (withSign negative (digitsVal int + digitsVal frac / 10 ^ frac.length : ℚ), m) := by
  have hsign := scanSign_sign negative
    (List.append_ne_nil_of_left_ne_nil hne (point :: (frac ++ m))) (head?_digits hne hint)
  have hstop : Stops (point :: (frac ++ m)) := by
    intro b hb
    cases hb
    rfl
  unfold scanLf
  simp only [hsign, takeWhile_digits hint hstop, dropWhile_digits hint hstop, List.head?_cons,
    if_true, List.tail_cons, takeWhile_digits hfrac hm, dropWhile_digits hfrac hm, hne, false_and,
    if_false]

theorem scanLf_sign (negative : Bool) : scanLf (sign negative) = none := by
  cases negative <;> decide

theorem scanLf_space {b : Byte} (h : isSpace b = true) (m : List Byte) :
    scanLf (b :: m) = scanLf m := by
  unfold scanLf
  rw [List.dropWhile_cons_of_pos h]

theorem scanLld_int (negative : Bool) {int m : List Byte} (hne : int ≠ [])
    (hint : ∀ b ∈ int, isDigit b = true) (hm : Stops m) :
    scanLld (sign negative ++ (int ++ m)) = some (withSign negative (digitsVal int : ℤ), m) := by
  have hsign := scanSign_sign negative (List.append_ne_nil_of_left_ne_nil hne m)
    (head?_digits hne hint)
  unfold scanLld
  simp only [hsign, takeWhile_digits hint hm, dropWhile_digits hint hm, if_neg hne]

theorem scanLld_sign (negative : Bool) : scanLld (sign negative) = none := by
  cases negative <;> decide

theorem scanLld_space {b : Byte} (h : isSpace b = true) (m : List Byte) :
    scanLld (b :: m) = scanLld m := by
  unfold scanLld
  rw [List.dropWhile_cons_of_pos h]

theorem stops_nil : Stops [] := by
  intro b hb
  cases hb

/-- The number that `%lf` writes. -/
def rounded (q : ℚ) : ℚ := withSign (decide (q < 0)) (millionths q / 10 ^ 6 : ℚ)

theorem withSign_inj {α : Type} [InvolutiveNeg α] {negative : Bool} {a b : α} :
    withSign negative a = withSign negative b ↔ a = b := by
  cases negative
  · exact Iff.rfl
  · exact neg_inj

theorem rounded_eq (q : ℚ) :
    rounded q = withSign (decide (q < 0))
      ((millionths q / 10 ^ 6 : ℕ) + (millionths q % 10 ^ 6 : ℕ) / 10 ^ 6 : ℚ) := by
  have hsplit : (millionths q : ℚ) =
      10 ^ 6 * (millionths q / 10 ^ 6 : ℕ) + (millionths q % 10 ^ 6 : ℕ) := by
    exact_mod_cast (Nat.div_add_mod (millionths q) (10 ^ 6)).symm
  unfold rounded
  rw [withSign_inj, hsplit]
  field_simp

/-- The whole text is read as the number it writes. -/
theorem scanLf_fixed6 (q : ℚ) {m : List Byte} (hm : Stops m) :
    scanLf (fixed6 q ++ m) = some (rounded q, m) := by
  have hint : ∀ b ∈ decimal (millionths q / 10 ^ 6), isDigit b = true :=
    fun b hb => isDigit_of_mem_decimal hb
  have hfrac : ∀ b ∈ padded 6 (millionths q % 10 ^ 6), isDigit b = true :=
    fun b hb => isDigit_of_mem_padded hb
  have hlen : (padded 6 (millionths q % 10 ^ 6)).length = 6 :=
    length_padded (by norm_num) (Nat.mod_lt _ (by norm_num))
  have hscan := scanLf_frac (decide (q < 0)) (decimal_ne_nil _) hint hfrac hm
  rw [digitsVal_decimal, digitsVal_padded, hlen, ← rounded_eq] at hscan
  unfold fixed6
  rwa [List.append_assoc, List.append_assoc, List.cons_append]

theorem withSign_natAbs (z : ℤ) : withSign (decide (z < 0)) (z.natAbs : ℤ) = z := by
  unfold withSign
  split_ifs with h
  · have hneg : z < 0 := of_decide_eq_true h
    omega
  · have hnonneg : ¬ z < 0 := fun hlt => h (decide_eq_true hlt)
    omega

theorem scanLld_signedDecimal (z : ℤ) {m : List Byte} (hm : Stops m) :
    scanLld (signedDecimal z ++ m) = some (z, m) := by
  have hscan := scanLld_int (decide (z < 0)) (decimal_ne_nil z.natAbs)
    (fun b hb => isDigit_of_mem_decimal hb) hm
  rw [digitsVal_decimal, withSign_natAbs] at hscan
  unfold signedDecimal
  rwa [List.append_assoc]

end OsTasks.Lib
