import Mathlib.Algebra.BigOperators.Expect
import Mathlib.Algebra.BigOperators.Fin
import Mathlib.Algebra.BigOperators.Intervals
import Mathlib.Algebra.Order.Floor.Semiring
import Mathlib.Data.Rat.Floor
import Mathlib.Logic.Equiv.Prod
import Mathlib.Tactic.FieldSimp
import Mathlib.Tactic.Linarith

/-! Means over equally likely values: families of independent values, and the equally spaced points
of an interval. -/
namespace OsTasks.Lib
open scoped BigOperators

section Families
variable {ι : Type*} [Fintype ι] [DecidableEq ι] {X : ι → Type*} [∀ i, Fintype (X i)]
  [∀ i, Nonempty (X i)]

/-- Each value of a family is as likely as any other. -/
theorem expect_value (i : ι) (f : X i → ℚ) : 𝔼 d : (i : ι) → X i, f (d i) = 𝔼 x, f x := by
  have hsplit : 𝔼 d : (i : ι) → X i, f (d i) = 𝔼 p : X i × ((j : {j // j ≠ i}) → X j), f p.1 :=
    Fintype.expect_equiv (Equiv.piSplitAt i X) _ _ fun d => rfl
  rw [hsplit, ← Finset.univ_product_univ, Finset.expect_product]
  apply Finset.expect_congr rfl
  intro x _
  exact Fintype.expect_const (f x)

theorem expect_sum_values (f : (i : ι) → X i → ℚ) :
    𝔼 d : (i : ι) → X i, ∑ i, f i (d i) = ∑ i, 𝔼 x, f i x := by
  rw [Finset.expect_sum_comm]
  exact Finset.sum_congr rfl fun i _ => expect_value i (f i)

end Families

section Interval
variable {m : ℕ}

theorem expect_spaced (hm : 1 ≤ m) (lo hi : ℚ) :
    𝔼 r : Fin (m + 1), (lo + (r : ℕ) / m * (hi - lo)) = (lo + hi) / 2 := by
  have hpos : (m : ℚ) ≠ 0 := by
    have hne : m ≠ 0 := by omega
    exact_mod_cast hne
  have hgauss : ∑ r : Fin (m + 1), ((r : ℕ) : ℚ) = (m + 1) * m / 2 := by
    rw [← Finset.sum_range fun i => (i : ℚ)]
    have hnat := Finset.sum_range_id_mul_two (m + 1)
    rw [Nat.add_sub_cancel] at hnat
    have hcast := congrArg (Nat.cast : ℕ → ℚ) hnat
    rw [Nat.cast_mul, Nat.cast_sum] at hcast
    push_cast at hcast
    linarith
  have hsum : ∑ r : Fin (m + 1), (lo + ((r : ℕ) : ℚ) / m * (hi - lo)) =
      (m + 1) * lo + (m + 1) * m / 2 * ((hi - lo) / m) := by
    have hterm : ∀ r : Fin (m + 1), lo + ((r : ℕ) : ℚ) / m * (hi - lo) =
        lo + (r : ℕ) * ((hi - lo) / m) := by
      intro r
      ring
    rw [Finset.sum_congr rfl fun r _ => hterm r, Finset.sum_add_distrib, ← Finset.sum_mul, hgauss,
      Finset.sum_const, Finset.card_univ, Fintype.card_fin, nsmul_eq_mul]
    push_cast
    rfl
  rw [Fintype.expect_eq_sum_div_card, hsum, Fintype.card_fin]
  push_cast
  have hcard : (m : ℚ) + 1 ≠ 0 := by positivity
  field_simp
  ring

/-- The share of the points below a bound is the bound, up to one point. -/
theorem abs_expect_below_sub_le {t : ℚ} (h0 : 0 ≤ t) (h1 : t ≤ 1) (hm : 1 ≤ m) :
    |𝔼 s : Fin (m + 1), (if ((s : ℕ) : ℚ) / m < t then (1 : ℚ) else 0) - t| ≤ 1 / (m + 1) := by
  have hpos : (0 : ℚ) < m := by exact_mod_cast hm
  have hcard : (0 : ℚ) < m + 1 := by positivity
  have hceil : ⌈t * m⌉₊ ≤ m := by
    rw [Nat.ceil_le]
    exact (mul_le_mul_of_nonneg_right h1 hpos.le).trans (one_mul _).le
  have hbelow : ∀ s : ℕ, (s : ℚ) / m < t ↔ s < ⌈t * m⌉₊ := by
    intro s
    rw [div_lt_iff₀ hpos, Nat.lt_ceil]
  have hfilter : (Finset.range (m + 1)).filter (fun s => s < ⌈t * m⌉₊) =
      Finset.range ⌈t * m⌉₊ := by
    ext s
    rw [Finset.mem_filter, Finset.mem_range, Finset.mem_range]
    omega
  have hcount : ∑ s : Fin (m + 1), (if ((s : ℕ) : ℚ) / m < t then (1 : ℚ) else 0) =
      (⌈t * m⌉₊ : ℚ) := by
    rw [← Finset.sum_range fun s : ℕ => if (s : ℚ) / m < t then (1 : ℚ) else 0]
    simp only [hbelow]
    rw [Finset.sum_boole, hfilter, Finset.card_range]
  have hlow : t * m ≤ ⌈t * m⌉₊ := Nat.le_ceil _
  have hhigh : (⌈t * m⌉₊ : ℚ) < t * m + 1 := Nat.ceil_lt_add_one (mul_nonneg h0 hpos.le)
  have hexpand : t * (m + 1) = t * m + t := by ring
  have hleast : t ≤ (⌈t * m⌉₊ + 1) / (m + 1) := by
    rw [le_div_iff₀ hcard]
    linarith
  have hmost : (⌈t * m⌉₊ : ℚ) / (m + 1) ≤ t + 1 / (m + 1) := by
    rw [div_le_iff₀ hcard, add_mul, one_div_mul_cancel hcard.ne']
    linarith
  rw [add_div] at hleast
  rw [Fintype.expect_eq_sum_div_card, hcount, Fintype.card_fin, abs_le]
  push_cast
  constructor <;> linarith

/-- The share of the spaced points below a place of the interval. -/
theorem abs_expect_spaced_below_sub_le {lo hi x : ℚ} (hm : 1 ≤ m) (hlo : lo ≤ x) (hhi : x ≤ hi) :
    |(hi - lo) *
        𝔼 s : Fin (m + 1), (if lo + ((s : ℕ) : ℚ) / m * (hi - lo) < x then (1 : ℚ) else 0) -
        (x - lo)| ≤ (hi - lo) / (m + 1) := by
  rcases (hlo.trans hhi).eq_or_lt with heq | hlt
  · have hx : x = lo := le_antisymm (heq ▸ hhi) hlo
    rw [hx, ← heq, sub_self, zero_mul, sub_zero, abs_zero, zero_div]
  · have hpos : 0 < hi - lo := sub_pos.mpr hlt
    have hbelow : ∀ s : Fin (m + 1),
        lo + ((s : ℕ) : ℚ) / m * (hi - lo) < x ↔ ((s : ℕ) : ℚ) / m < (x - lo) / (hi - lo) := by
      intro s
      rw [lt_div_iff₀ hpos, lt_sub_iff_add_lt']
    have h1 : (x - lo) / (hi - lo) ≤ 1 := by
      rw [div_le_one hpos]
      linarith
    have hshare := abs_expect_below_sub_le (div_nonneg (sub_nonneg.mpr hlo) hpos.le) h1 hm
    have hfactor : ∀ e : ℚ, (hi - lo) * e - (x - lo) = (hi - lo) * (e - (x - lo) / (hi - lo)) := by
      intro e
      rw [mul_sub, mul_div_cancel₀ _ hpos.ne']
    simp only [hbelow]
    rw [hfactor, abs_mul, abs_of_pos hpos, div_eq_mul_one_div (hi - lo)]
    exact mul_le_mul_of_nonneg_left hshare hpos.le

end Interval

end OsTasks.Lib
