import Mathlib.Tactic
import Mathlib.Order.Interval.Set.Basic

/-! Lists of intervals laid end to end over a linear order. -/
namespace OsTasks.Lib
variable {α : Type*}

/-- The first interval starts at `lo`, each next one where the one before ends, and the last
ends at `hi`. -/
def Tiles (lo hi : α) : List (α × α) → Prop
  | [] => lo = hi
  | p :: ps => p.1 = lo ∧ Tiles p.2 hi ps

@[simp] theorem tiles_nil {lo hi : α} : Tiles lo hi [] ↔ lo = hi := Iff.rfl

theorem tiles_range (f : ℕ → α) (n : ℕ) :
    Tiles (f 0) (f n) ((List.range n).map fun i => (f i, f (i + 1))) := by
  induction n generalizing f with
  | zero => rfl
  | succ n ih =>
    rw [List.range_succ_eq_map, List.map_cons, List.map_map]
    exact ⟨rfl, ih fun i => f (i + 1)⟩

variable [LinearOrder α]

theorem Tiles.le {lo hi : α} {ps : List (α × α)} (h : Tiles lo hi ps)
    (hle : ∀ p ∈ ps, p.1 ≤ p.2) : lo ≤ hi := by
  induction ps generalizing lo with
  | nil => exact (tiles_nil.mp h).le
  | cons p ps ih =>
    obtain ⟨rfl, h⟩ := h
    exact (hle p (by simp)).trans (ih h fun q hq => hle q (by simp [hq]))

/-- Every point between the ends lies in one of the intervals, and only there. -/
theorem Tiles.countP_mem {lo hi x : α} {ps : List (α × α)} (h : Tiles lo hi ps)
    (hle : ∀ p ∈ ps, p.1 ≤ p.2) :
    ps.countP (fun p => p.1 ≤ x ∧ x < p.2) = if lo ≤ x ∧ x < hi then 1 else 0 := by
  induction ps generalizing lo with
  | nil =>
    cases h
    rw [List.countP_nil, if_neg fun hx => absurd hx.2 (not_lt.mpr hx.1)]
  | cons p ps ih =>
    obtain ⟨rfl, h⟩ := h
    have hp := hle p (by simp)
    have hps : ∀ q ∈ ps, q.1 ≤ q.2 := fun q hq => hle q (by simp [hq])
    have hend := h.le hps
    rw [List.countP_cons, ih h hps]
    simp only [decide_eq_true_eq]
    by_cases hx : x < p.2
    · have h1 : ¬ p.2 ≤ x := not_le.mpr hx
      simp [h1, hx, hx.trans_le hend]
    · have h1 : p.2 ≤ x := not_lt.mp hx
      simp [hx, h1, hp.trans h1]

end OsTasks.Lib
