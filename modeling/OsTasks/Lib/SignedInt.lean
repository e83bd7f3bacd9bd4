import Mathlib.Tactic

/-! Signed integers of a fixed width, as C has them: arithmetic that would leave the range
has no result. -/
namespace OsTasks.Lib

structure SInt (w : ℕ) where
  val : ℤ
  lower : -2 ^ (w - 1) ≤ val
  upper : val < 2 ^ (w - 1)
  deriving DecidableEq

namespace SInt
variable {w v : ℕ}

theorem ext_val {a b : SInt w} (h : a.val = b.val) : a = b := by
  cases a
  cases b
  congr

def ofInt? (w : ℕ) (z : ℤ) : Option (SInt w) :=
  if h : -2 ^ (w - 1) ≤ z ∧ z < 2 ^ (w - 1) then some ⟨z, h.1, h.2⟩ else none

instance : Zero (SInt w) := ⟨0, neg_nonpos.mpr (by positivity), by positivity⟩

@[simp] theorem val_zero : (0 : SInt w).val = 0 := rfl

theorem ofInt?_eq_some_iff {z : ℤ} {a : SInt w} : ofInt? w z = some a ↔ a.val = z := by
  unfold ofInt?
  split_ifs with h
  · rw [Option.some.injEq]
    exact ⟨fun ha => ha ▸ rfl, fun ha => ext_val ha.symm⟩
  · refine iff_of_false nofun fun ha => h ⟨ha ▸ a.lower, ha ▸ a.upper⟩

theorem ofInt?_isSome_iff {z : ℤ} :
    (ofInt? w z).isSome ↔ -2 ^ (w - 1) ≤ z ∧ z < 2 ^ (w - 1) := by
  unfold ofInt?
  split_ifs with h <;> simp [h]

/-- The nearest value of the type. -/
def clamp (w : ℕ) (z : ℤ) : SInt w where
  val := max (-2 ^ (w - 1)) (min z (2 ^ (w - 1) - 1))
  lower := le_max_left _ _
  upper := by
    have hpos : (0 : ℤ) < 2 ^ (w - 1) := by positivity
    exact max_lt (by omega) (lt_of_le_of_lt (min_le_right _ _) (by omega))

theorem clamp_val (a : SInt w) : clamp w a.val = a := by
  have hlo := a.lower
  have hhi := a.upper
  apply ext_val
  change max (-2 ^ (w - 1)) (min a.val (2 ^ (w - 1) - 1)) = a.val
  omega

/-- The value with the same `w` low bits. -/
def wrap (w : ℕ) (z : ℤ) : SInt w where
  val := (z + 2 ^ (w - 1)) % 2 ^ w - 2 ^ (w - 1)
  lower := by
    have hnonneg : 0 ≤ (z + 2 ^ (w - 1)) % 2 ^ w := Int.emod_nonneg _ (by positivity)
    omega
  upper := by
    have hlt : (z + 2 ^ (w - 1)) % 2 ^ w < 2 ^ w := Int.emod_lt_of_pos _ (by positivity)
    have hhalf : (2 : ℤ) ^ w ≤ 2 * 2 ^ (w - 1) := by
      rw [← pow_succ']
      exact pow_le_pow_right₀ (by norm_num) (by omega)
    omega

def add? (a b : SInt w) : Option (SInt w) := ofInt? w (a.val + b.val)

/-- The narrower operand is converted to the type of the first. -/
def mul? (a : SInt w) (b : SInt v) : Option (SInt w) := ofInt? w (a.val * b.val)

/-- Truncating division. -/
def div? (a : SInt w) (b : SInt v) : Option (SInt w) :=
  if b.val = 0 then none else ofInt? w (a.val.tdiv b.val)

theorem add?_eq_some_iff {a b c : SInt w} : a.add? b = some c ↔ c.val = a.val + b.val :=
  ofInt?_eq_some_iff

/-- Whatever lies between zero and a value of the type is a value of the type. -/
theorem exists_ofInt?_of_between {z : ℤ} (a : SInt w) (h1 : min 0 a.val ≤ z)
    (h2 : z ≤ max 0 a.val) : ∃ c, ofInt? w z = some c := by
  rw [← Option.isSome_iff_exists, ofInt?_isSome_iff]
  have hlo : -2 ^ (w - 1) ≤ min 0 a.val := le_min (0 : SInt w).lower a.lower
  have hhi : max 0 a.val < 2 ^ (w - 1) := max_lt (0 : SInt w).upper a.upper
  exact ⟨hlo.trans h1, h2.trans_lt hhi⟩

/-- A share of a truncated quotient stays between zero and the dividend. -/
theorem tdiv_mul_between (a : ℤ) {b c : ℤ} (hb : 0 < b) (hc0 : 0 ≤ c) (hcb : c ≤ b) :
    min 0 a ≤ a.tdiv b * c ∧ a.tdiv b * c ≤ max 0 a := by
  have hpos : ∀ n : ℤ, 0 ≤ n → 0 ≤ n.tdiv b * c ∧ n.tdiv b * c ≤ n := by
    intro n hn
    have hq : 0 ≤ n.tdiv b := Int.tdiv_nonneg hn hb.le
    have hm : n.tdiv b * b ≤ n := by
      rw [Int.tdiv_eq_ediv_of_nonneg hn]
      exact Int.ediv_mul_le n hb.ne'
    exact ⟨mul_nonneg hq hc0, (mul_le_mul_of_nonneg_left hcb hq).trans hm⟩
  rcases le_total 0 a with ha | ha
  · obtain ⟨h1, h2⟩ := hpos a ha
    exact ⟨(min_le_left _ _).trans h1, h2.trans (le_max_right _ _)⟩
  · obtain ⟨h1, h2⟩ := hpos (-a) (by omega)
    rw [Int.neg_tdiv, neg_mul] at h1 h2
    exact ⟨(min_le_right _ _).trans (by omega), le_trans (by omega) (le_max_left 0 a)⟩

end SInt

end OsTasks.Lib
