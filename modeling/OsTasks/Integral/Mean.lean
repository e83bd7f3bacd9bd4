import Mathlib.Analysis.SpecialFunctions.Integrals.Basic
import OsTasks.Integral.Redraw
import OsTasks.Lib.Mean

/-! What `monte_carlo` estimates: the mean of its result over all values that `rand_r` can give is
the area between the graph of `func` and the lower edge of the rectangle. -/
namespace OsTasks.Integral
open OsTasks.Lib
open scoped BigOperators

/-- The area between the graph of `func`, the diagonal, and the lower edge of the rectangle. -/
noncomputable def areaUnder (task : WorkerTask) : ℝ :=
  ∫ x in (task.x1 : ℝ)..task.x2, (x - task.y1)

theorem areaUnder_eq (task : WorkerTask) :
    areaUnder task =
      (((task.x1 + task.x2) / 2 - task.y1) * (task.x2 - task.x1) : ℚ) := by
  unfold areaUnder
  rw [intervalIntegral.integral_sub intervalIntegral.intervalIntegrable_id
    intervalIntegrable_const, integral_id, intervalIntegral.integral_const, smul_eq_mul]
  push_cast
  ring

/-- The graph over the slab does not leave the rectangle. -/
structure GraphInside (task : WorkerTask) : Prop where
  width : task.x1 ≤ task.x2
  low : task.y1 ≤ func task.x1
  high : func task.x2 ≤ task.y2

theorem one_le_randMax : 1 ≤ randMax := by
  unfold randMax
  omega

section Chance
variable (task : WorkerTask) (nThreads : ℕ)

/-- How likely a point of thread `k` hits. -/
def hitChance (k : ℕ) : ℚ :=
  𝔼 q : Draw, if (pointDrawn task nThreads k q).Hit then (1 : ℚ) else 0

variable {task nThreads}

theorem abs_hitChance (h : GraphInside task) {k : ℕ} (hk : k < nThreads) :
    |(task.y2 - task.y1) * hitChance task nThreads k -
        (((threadArgs task nThreads k).x1 + (threadArgs task nThreads k).x2) / 2 - task.y1)| ≤
      (task.y2 - task.y1) / (randMax + 1) := by
  set a := threadArgs task nThreads k with ha
  obtain ⟨hleft, hslab, hright⟩ := threadArgs_mem h.width hk
  rw [← ha] at hleft hslab hright
  let below (r : Fin (randMax + 1)) : ℚ :=
    𝔼 s : Fin (randMax + 1), if sampled task.y1 task.y2 s < sampled a.x1 a.x2 r then 1 else 0
  have hchance : hitChance task nThreads k = 𝔼 r, below r := by
    unfold hitChance
    rw [← Finset.univ_product_univ, Finset.expect_product]
    rfl
  have hmiddle : 𝔼 r : Fin (randMax + 1), sampled a.x1 a.x2 r = (a.x1 + a.x2) / 2 :=
    expect_spaced one_le_randMax a.x1 a.x2
  have hmean : (task.y2 - task.y1) * hitChance task nThreads k - ((a.x1 + a.x2) / 2 - task.y1) =
      𝔼 r : Fin (randMax + 1),
        ((task.y2 - task.y1) * below r - (sampled a.x1 a.x2 r - task.y1)) := by
    rw [Finset.expect_sub_distrib, Finset.expect_sub_distrib, ← Finset.mul_expect, hmiddle,
      Fintype.expect_const, hchance]
  have hbound : ∀ r ∈ Finset.univ, |(task.y2 - task.y1) * below r -
      (sampled a.x1 a.x2 (r : Fin (randMax + 1)) - task.y1)| ≤
        (task.y2 - task.y1) / (randMax + 1) := by
    intro r _
    obtain ⟨hlow, hhigh⟩ := sampled_mem hslab r
    exact abs_expect_spaced_below_sub_le one_le_randMax ((h.low.trans hleft).trans hlow)
      ((hhigh.trans hright).trans h.high)
  rw [hmean]
  exact (Finset.abs_expect_le _ _).trans (Finset.expect_le Finset.univ_nonempty hbound)

theorem sum_middles (task : WorkerTask) (nThreads n : ℕ) :
    ∑ k ∈ Finset.range n,
        ((threadArgs task nThreads k).x1 + (threadArgs task nThreads k).x2) / 2 =
      n * task.x1 + (task.x2 - task.x1) / nThreads * n ^ 2 / 2 := by
  induction n with
  | zero => simp
  | succ n ih =>
    rw [Finset.sum_range_succ, ih]
    unfold threadArgs
    push_cast
    ring

theorem abs_sum_hitChance (h : GraphInside task) (hn : 1 ≤ nThreads) :
    |(task.x2 - task.x1) * (task.y2 - task.y1) / nThreads *
        ∑ k ∈ Finset.range nThreads, hitChance task nThreads k -
        ((task.x1 + task.x2) / 2 - task.y1) * (task.x2 - task.x1)| ≤
      (task.x2 - task.x1) * (task.y2 - task.y1) / (randMax + 1) := by
  have hpos : (0 : ℚ) < nThreads := by exact_mod_cast hn
  have hwidth : 0 ≤ (task.x2 - task.x1) / nThreads :=
    div_nonneg (sub_nonneg.mpr h.width) hpos.le
  let off (k : ℕ) : ℚ := (task.y2 - task.y1) * hitChance task nThreads k -
    (((threadArgs task nThreads k).x1 + (threadArgs task nThreads k).x2) / 2 - task.y1)
  have hsum : (task.x2 - task.x1) * (task.y2 - task.y1) / nThreads *
        ∑ k ∈ Finset.range nThreads, hitChance task nThreads k -
        ((task.x1 + task.x2) / 2 - task.y1) * (task.x2 - task.x1) =
      (task.x2 - task.x1) / nThreads * ∑ k ∈ Finset.range nThreads, off k := by
    rw [Finset.sum_sub_distrib, ← Finset.mul_sum, Finset.sum_sub_distrib, sum_middles,
      Finset.sum_const, Finset.card_range, nsmul_eq_mul]
    field_simp
    ring
  have hoff : |∑ k ∈ Finset.range nThreads, off k| ≤
      nThreads * ((task.y2 - task.y1) / (randMax + 1)) := by
    calc |∑ k ∈ Finset.range nThreads, off k|
        ≤ ∑ k ∈ Finset.range nThreads, |off k| := Finset.abs_sum_le_sum_abs _ _
      _ ≤ ∑ _k ∈ Finset.range nThreads, (task.y2 - task.y1) / (randMax + 1) :=
          Finset.sum_le_sum fun k hk => abs_hitChance h (Finset.mem_range.mp hk)
      _ = nThreads * ((task.y2 - task.y1) / (randMax + 1)) := by
          rw [Finset.sum_const, Finset.card_range, nsmul_eq_mul]
  rw [hsum, abs_mul, abs_of_nonneg hwidth]
  calc (task.x2 - task.x1) / nThreads * |∑ k ∈ Finset.range nThreads, off k|
      ≤ (task.x2 - task.x1) / nThreads * (nThreads * ((task.y2 - task.y1) / (randMax + 1))) :=
        mul_le_mul_of_nonneg_left hoff hwidth
    _ = (task.x2 - task.x1) * (task.y2 - task.y1) / (randMax + 1) := by
        field_simp

end Chance

/-- How many of the points of independent draws meet a condition. -/
theorem countP_zipWith_ofFn {κ α : Type} {X : Type*} (P : α → Prop) [DecidablePred P]
    (f : κ → X → α) (ks : List κ) (d : Fin ks.length → X) :
    ((List.zipWith f ks (List.ofFn d)).countP (fun q => P q) : ℚ) =
      ∑ j, if P (f (ks.get j) (d j)) then 1 else 0 := by
  induction ks with
  | nil => rfl
  | cons k ks ih =>
    rw [List.ofFn_succ, List.zipWith_cons_cons, List.countP_cons]
    push_cast
    simp only [decide_eq_true_eq]
    rw [ih, add_comm]
    exact (Fin.sum_univ_succ fun j : Fin (ks.length + 1) =>
      if P (f ((k :: ks).get j) (d j)) then (1 : ℚ) else 0).symm

section Run
variable {task : WorkerTask} {nThreads p : ℕ} {as : List McAction} {s : McState}
  {samples : List Sample}

variable (task nThreads) in
/-- What `monte_carlo` returns in a run. -/
def estimateOf (as : List McAction) : ℚ :=
  (((monteCarlo task nThreads).run as).bind fun u => u.1.shared.resSquare).getD 0

theorem map_thread_zipWith (ks : List ℕ) {qs : List Draw} (hlen : qs.length = ks.length) :
    (List.zipWith (pointDrawn task nThreads) ks qs).map Sample.thread = ks := by
  induction ks generalizing qs with
  | nil => rw [List.zipWith_nil_left, List.map_nil]
  | cons k ks ih =>
    cases qs with
    | nil => cases hlen
    | cons q qs =>
      rw [List.zipWith_cons_cons, List.map_cons, ih (Nat.succ.inj hlen)]
      rfl

theorem count_drawers (hn : 1 ≤ nThreads) (hp : truncate (task.numOfPoints.val / nThreads) = p)
    (h1 : 1 ≤ p) (hrun : (monteCarlo task nThreads).run as = some (s, samples))
    (hret : s.Returned nThreads) :
    (∀ k < nThreads, (drawers as).count k = p) ∧ ∀ k ∈ drawers as, k < nThreads := by
  have hlen : (List.replicate (drawers as).length ((0, 0) : Draw)).length = (drawers as).length :=
    List.length_replicate
  obtain ⟨_, _, _, _, rfl, hdrawn, hthread, _⟩ := redraw_returned hn hp h1 hrun hret hlen
  have hmap : (List.zipWith (pointDrawn task nThreads) (drawers as)
      (List.replicate (drawers as).length (0, 0))).map Sample.thread = drawers as :=
    map_thread_zipWith (drawers as) hlen
  constructor
  · intro k hk
    have hk' := hdrawn k hk
    unfold drawn at hk'
    rw [List.countP_reverse] at hk'
    rw [← hk', ← hmap, List.count, List.countP_map, hmap]
    rfl
  · intro k hk
    rw [← hmap, List.mem_map] at hk
    obtain ⟨q, hq, rfl⟩ := hk
    exact hthread q (List.mem_reverse.mpr hq)

theorem expect_estimateOf (hn : 1 ≤ nThreads)
    (hp : truncate (task.numOfPoints.val / nThreads) = p) (h1 : 1 ≤ p)
    (hrun : (monteCarlo task nThreads).run as = some (s, samples)) (hret : s.Returned nThreads) :
    𝔼 d : Fin (drawers as).length → Draw,
        estimateOf task nThreads (redraw as (List.ofFn d)) =
      (task.x2 - task.x1) * (task.y2 - task.y1) / nThreads *
        ∑ k ∈ Finset.range nThreads, hitChance task nThreads k := by
  have hnpos : (nThreads : ℚ) ≠ 0 := by
    have hne : nThreads ≠ 0 := by omega
    exact_mod_cast hne
  have hppos : (p : ℚ) ≠ 0 := by
    have hne : p ≠ 0 := by omega
    exact_mod_cast hne
  let area := (task.x2 - task.x1) * (task.y2 - task.y1)
  let hit (k : ℕ) (q : Draw) : ℚ := if (pointDrawn task nThreads k q).Hit then 1 else 0
  have hvalue : ∀ d : Fin (drawers as).length → Draw,
      estimateOf task nThreads (redraw as (List.ofFn d)) =
        area / (nThreads * p) * ∑ j, hit ((drawers as).get j) (d j) := by
    intro d
    obtain ⟨_, _, hrun', _, rfl, _, _, hsum⟩ :=
      redraw_returned hn hp h1 hrun hret (List.length_ofFn (f := d))
    unfold estimateOf
    rw [hrun', Option.bind_some, hsum, Option.getD_some, List.countP_reverse,
      countP_zipWith_ofFn Sample.Hit (pointDrawn task nThreads)]
    ring
  have hthreads : ∑ j : Fin (drawers as).length, hitChance task nThreads ((drawers as).get j) =
      p * ∑ k ∈ Finset.range nThreads, hitChance task nThreads k := by
    obtain ⟨hcount, hmem⟩ := count_drawers hn hp h1 hrun hret
    have hlist : ∑ j : Fin (drawers as).length, hitChance task nThreads ((drawers as).get j) =
        ((drawers as).map (hitChance task nThreads)).sum := by
      rw [← Fin.sum_univ_fun_getElem]
      rfl
    rw [hlist, Finset.sum_list_map_count, Finset.mul_sum]
    have hsubset : (drawers as).toFinset ⊆ Finset.range nThreads := by
      intro k hk
      exact Finset.mem_range.mpr (hmem k (List.mem_toFinset.mp hk))
    rw [Finset.sum_subset hsubset]
    · apply Finset.sum_congr rfl
      intro k hk
      rw [hcount k (Finset.mem_range.mp hk), nsmul_eq_mul]
    · intro k _ hk
      rw [List.count_eq_zero_of_not_mem fun h => hk (List.mem_toFinset.mpr h), zero_nsmul]
  calc 𝔼 d : Fin (drawers as).length → Draw,
        estimateOf task nThreads (redraw as (List.ofFn d))
      = 𝔼 d : Fin (drawers as).length → Draw,
          area / (nThreads * p) * ∑ j, hit ((drawers as).get j) (d j) :=
        Finset.expect_congr rfl fun d _ => hvalue d
    _ = area / (nThreads * p) *
          ∑ j : Fin (drawers as).length, hitChance task nThreads ((drawers as).get j) := by
        rw [← Finset.mul_expect, expect_sum_values fun j => hit ((drawers as).get j)]
        rfl
    _ = area / nThreads * ∑ k ∈ Finset.range nThreads, hitChance task nThreads k := by
        rw [hthreads]
        field_simp

/-- The mean of the result is the area under the graph, but for the coarseness of `rand_r`. -/
theorem abs_expect_estimateOf_sub_le (hn : 1 ≤ nThreads) (h : GraphInside task)
    (hp : truncate (task.numOfPoints.val / nThreads) = p) (h1 : 1 ≤ p)
    (hrun : (monteCarlo task nThreads).run as = some (s, samples)) (hret : s.Returned nThreads) :
    |𝔼 d : Fin (drawers as).length → Draw,
        estimateOf task nThreads (redraw as (List.ofFn d)) -
        ((task.x1 + task.x2) / 2 - task.y1) * (task.x2 - task.x1)| ≤
      (task.x2 - task.x1) * (task.y2 - task.y1) / (randMax + 1) := by
  rw [expect_estimateOf hn hp h1 hrun hret]
  exact abs_sum_hitChance h hn

/-- With any values of `rand_r` the run returns the estimate. -/
theorem redraw_estimateOf (hn : 1 ≤ nThreads)
    (hp : truncate (task.numOfPoints.val / nThreads) = p) (h1 : 1 ≤ p)
    (hrun : (monteCarlo task nThreads).run as = some (s, samples)) (hret : s.Returned nThreads)
    (d : Fin (drawers as).length → Draw) : ∃ s' samples',
      (monteCarlo task nThreads).run (redraw as (List.ofFn d)) = some (s', samples') ∧
        s'.Returned nThreads ∧
        s'.shared.resSquare = some (estimateOf task nThreads (redraw as (List.ofFn d))) := by
  obtain ⟨s', samples', hrun', hret', _, _, _, hsum⟩ :=
    redraw_returned hn hp h1 hrun hret (List.length_ofFn (f := d))
  refine ⟨s', samples', hrun', hret', ?_⟩
  unfold estimateOf
  rw [hrun', Option.bind_some, hsum, Option.getD_some]

/-- However the threads are interleaved: with any other values of `rand_r` the same statements are
executed in the same order, and the mean of what is returned is the area under the graph, but for
the coarseness of `rand_r`. -/
theorem mean_estimate (hn : 1 ≤ nThreads) (h : GraphInside task)
    (hp : task.numOfPoints.val / nThreads = p) (h1 : 1 ≤ p)
    (hrun : (monteCarlo task nThreads).run as = some (s, samples)) (hret : s.Returned nThreads) :
    (∀ d : Fin (drawers as).length → Draw, ∃ s' samples',
        (monteCarlo task nThreads).run (redraw as (List.ofFn d)) = some (s', samples') ∧
          s'.Returned nThreads ∧
          s'.shared.resSquare = some (estimateOf task nThreads (redraw as (List.ofFn d)))) ∧
      |((𝔼 d : Fin (drawers as).length → Draw,
          estimateOf task nThreads (redraw as (List.ofFn d)) : ℚ) : ℝ) - areaUnder task| ≤
        ((task.x2 - task.x1) * (task.y2 - task.y1) / (randMax + 1) : ℚ) := by
  have hpoints : 0 ≤ task.numOfPoints.val := by
    by_contra hneg
    have hquot : task.numOfPoints.val / nThreads < 0 :=
      Int.ediv_neg_of_neg_of_pos (not_le.mp hneg) (by exact_mod_cast hn)
    omega
  have htrunc : truncate (task.numOfPoints.val / nThreads) = p := by
    rw [truncate_intCast_div hpoints, hp]
  constructor
  · exact redraw_estimateOf hn htrunc h1 hrun hret
  · have hnear := abs_expect_estimateOf_sub_le hn h htrunc h1 hrun hret
    rw [areaUnder_eq, ← Rat.cast_sub, ← Rat.cast_abs]
    exact_mod_cast hnear

end Run

theorem two_threads_mean :
    |((𝔼 d : Fin (drawers twoThreads).length → Draw,
        estimateOf twoPoints 2 (redraw twoThreads (List.ofFn d)) : ℚ) : ℝ) - areaUnder twoPoints| ≤
      ((2 - 0) * (2 - 0) / (randMax + 1) : ℚ) := by
  have hfinal : ((monteCarlo twoPoints 2).run twoThreads).map (fun r => r.1.joined) = some 2 := by
    decide +kernel
  obtain ⟨⟨s, samples⟩, hrun, hjoined⟩ := Option.map_eq_some_iff.mp hfinal
  have hinside : GraphInside twoPoints := ⟨by decide, by decide, by decide⟩
  exact (mean_estimate (p := 1) (by decide) hinside (by decide) le_rfl hrun hjoined).2

end OsTasks.Integral
