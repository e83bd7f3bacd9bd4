import OsTasks.Lib.ScanNumber

/-! How far a number written with six decimals is from the number. -/
namespace OsTasks.Lib

theorem abs_roundEven_sub_le (q : ℚ) : |(roundEven q : ℚ) - q| ≤ 1 / 2 := by
  have hlo : (⌊q⌋ : ℚ) ≤ q := Int.floor_le q
  have hhi : q < ⌊q⌋ + 1 := Int.lt_floor_add_one q
  unfold roundEven
  split_ifs with hbelow habove
  · rw [abs_le]
    constructor <;> linarith
  · push_cast
    rw [abs_le]
    constructor <;> linarith
  · -- at a midpoint both neighbours are a half away
    have hmid : q - ⌊q⌋ = 1 / 2 := le_antisymm (not_lt.mp habove) (not_lt.mp hbelow)
    have hparity : ⌊q⌋ % 2 = 0 ∨ ⌊q⌋ % 2 = 1 := by omega
    push_cast
    rcases hparity with h | h
    · have hzero : ((⌊q⌋ % 2 : ℤ) : ℚ) = 0 := by exact_mod_cast h
      rw [hzero, abs_le]
      constructor <;> linarith
    · have hone : ((⌊q⌋ % 2 : ℤ) : ℚ) = 1 := by exact_mod_cast h
      rw [hone, abs_le]
      constructor <;> linarith

theorem roundEven_intCast (k : ℤ) : roundEven k = k := by
  have hfrac : (k : ℚ) - ⌊(k : ℚ)⌋ < 1 / 2 := by
    rw [Int.floor_intCast, sub_self]
    norm_num
  unfold roundEven
  rw [if_pos hfrac, Int.floor_intCast]

theorem roundEven_nonneg {q : ℚ} (h : 0 ≤ q) : 0 ≤ roundEven q := by
  have hfloor : 0 ≤ ⌊q⌋ := Int.floor_nonneg.mpr h
  unfold roundEven
  split_ifs <;> omega

theorem cast_millionths (q : ℚ) : (millionths q : ℚ) = roundEven (|q| * 10 ^ 6) := by
  have hnonneg : 0 ≤ roundEven (|q| * 10 ^ 6) := roundEven_nonneg (by positivity)
  have hcast : ((millionths q : ℤ) : ℚ) = roundEven (|q| * 10 ^ 6) := by
    unfold millionths
    rw [Int.natAbs_of_nonneg hnonneg]
  exact_mod_cast hcast

theorem withSign_abs (q : ℚ) : withSign (decide (q < 0)) |q| = q := by
  unfold withSign
  by_cases h : q < 0
  · rw [if_pos (decide_eq_true h), abs_of_neg h, neg_neg]
  · rw [if_neg (by simpa using h), abs_of_nonneg (not_lt.mp h)]

theorem abs_withSign_sub (negative : Bool) (a b : ℚ) :
    |withSign negative a - withSign negative b| = |a - b| := by
  cases negative
  · rfl
  · change |-a - -b| = |a - b|
    rw [neg_sub_neg, abs_sub_comm]

/-- Six decimals are within half a millionth. -/
theorem abs_rounded_sub_le (q : ℚ) : |rounded q - q| ≤ 1 / 2000000 := by
  have herr : |(roundEven (|q| * 10 ^ 6) : ℚ) - |q| * 10 ^ 6| ≤ 1 / 2 := abs_roundEven_sub_le _
  have hpow : (0 : ℚ) < 10 ^ 6 := by positivity
  have hsame : |rounded q - q| = |(millionths q : ℚ) / 10 ^ 6 - (|q|)| := by
    have hq : rounded q - q = rounded q - withSign (decide (q < 0)) |q| := by rw [withSign_abs]
    rw [hq]
    unfold rounded
    rw [abs_withSign_sub]
  have hscale : |rounded q - q| * 10 ^ 6 = |(roundEven (|q| * 10 ^ 6) : ℚ) - |q| * 10 ^ 6| := by
    calc |rounded q - q| * 10 ^ 6
        = |((millionths q : ℚ) / 10 ^ 6 - (|q|)) * 10 ^ 6| := by rw [hsame, abs_mul, abs_of_pos hpow]
      _ = |(millionths q : ℚ) - |q| * 10 ^ 6| := by rw [sub_mul, div_mul_cancel₀ _ hpow.ne']
      _ = |(roundEven (|q| * 10 ^ 6) : ℚ) - |q| * 10 ^ 6| := by rw [cast_millionths]
  have hbound : |rounded q - q| * 10 ^ 6 ≤ 1 / 2 := hscale.le.trans herr
  rw [← le_div_iff₀ hpow] at hbound
  exact hbound.trans (by norm_num)

theorem rounded_nonneg {q : ℚ} (h : 0 ≤ q) : 0 ≤ rounded q := by
  unfold rounded
  rw [decide_eq_false (not_lt.mpr h)]
  change (0 : ℚ) ≤ millionths q / 10 ^ 6
  positivity

theorem roundEven_le {q : ℚ} {k : ℤ} (h : q ≤ k) : roundEven q ≤ k := by
  have hnear := (abs_le.mp (abs_roundEven_sub_le q)).2
  have hlt : (roundEven q : ℚ) < (k + 1 : ℤ) := by
    push_cast
    linarith
  exact Int.lt_add_one_iff.mp (Int.cast_lt.mp hlt)

theorem rounded_le {q : ℚ} (h0 : 0 ≤ q) {k : ℤ} (h : q ≤ k / 10 ^ 6) : rounded q ≤ k / 10 ^ 6 := by
  have hpow : (0 : ℚ) < 10 ^ 6 := by positivity
  have hscaled : |q| * 10 ^ 6 ≤ k := by
    rw [abs_of_nonneg h0]
    exact (le_div_iff₀ hpow).mp h
  unfold rounded
  rw [decide_eq_false (not_lt.mpr h0)]
  change (millionths q / 10 ^ 6 : ℚ) ≤ k / 10 ^ 6
  rw [cast_millionths]
  have hround : ((roundEven (|q| * 10 ^ 6) : ℤ) : ℚ) ≤ k := Int.cast_le.mpr (roundEven_le hscaled)
  exact div_le_div_of_nonneg_right hround hpow.le

theorem rounded_eq_self {q : ℚ} {k : ℤ} (h : q = k / 10 ^ 6) : rounded q = q := by
  have habs : |q| * 10 ^ 6 = (|k| : ℤ) := by
    rw [h, abs_div, abs_of_pos (by positivity : (0 : ℚ) < 10 ^ 6), div_mul_cancel₀ _ (by positivity)]
    exact (Int.cast_abs).symm
  have hmill : (millionths q / 10 ^ 6 : ℚ) = |q| := by
    rw [cast_millionths, habs, roundEven_intCast, ← habs, mul_div_cancel_right₀ _ (by positivity)]
  unfold rounded
  rw [hmill, withSign_abs]

end OsTasks.Lib
