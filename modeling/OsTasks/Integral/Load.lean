import OsTasks.Integral.Partition
import OsTasks.Integral.RoundTrip
import OsTasks.Integral.Estimate

/-! How many points the master of task_8 gives to a worker, and how many of them reach each of the
worker's threads. -/
namespace OsTasks.Integral
open OsTasks.Lib

/-- `MAX_CORES` -/
def maxCores : ℕ := 8

/-- What a worker makes of the task it is sent. -/
def workerDecodes (task : Task) : Option WorkerTask := sscanfTask (printOneTask task ++ [0])

section Run
variable {task : WorkerTask} {nThreads p : ℕ} {as : List McAction} {s : McState}
  {samples : List Sample}

/-- When all threads are joined, each has drawn its share, and the estimate is a number unless that
is nothing. -/
theorem returned_of_run (hn : 1 ≤ nThreads) (hpoints : 0 ≤ task.numOfPoints.val)
    (hp : task.numOfPoints.val / nThreads = p)
    (hrun : (monteCarlo task nThreads).run as = some (s, samples))
    (hret : s.Returned nThreads) :
    (∀ k < nThreads, drawn samples k = p) ∧ (s.shared.resSquare = none ↔ p = 0) := by
  have htrunc : truncate (task.numOfPoints.val / nThreads) = p := by
    rw [truncate_intCast_div hpoints, hp]
  obtain ⟨hinv, _⟩ := mcInv_of_run htrunc hrun
  obtain ⟨hstored, hdrawn, _⟩ := hinv.returned hret
  have hsum := hinv.sum
  have hne : s.stored ≠ ∅ := by
    rw [hstored]
    exact Finset.nonempty_iff_ne_empty.mp (Finset.nonempty_range_iff.mpr (by omega))
  refine ⟨hdrawn, ?_⟩
  unfold storedSum at hsum
  rw [hsum]
  by_cases h0 : p = 0
  · rw [if_pos ⟨h0, hne⟩]
    exact iff_of_true rfl h0
  · rw [if_neg (fun h => h0 h.1)]
    exact iff_of_false (Option.some_ne_none _) h0

/-- A run of a worker's threads is short and can go on until it returns. -/
theorem run_goes_on (hpoints : 0 ≤ task.numOfPoints.val)
    (hp : task.numOfPoints.val / nThreads = p) (h31 : p < 2 ^ 31)
    (hrun : (monteCarlo task nThreads).run as = some (s, samples)) :
    as.length ≤ nThreads * (p + 7) ∧
      (¬ s.Returned nThreads →
        ∃ a r, (monteCarlo task nThreads).step (s, samples) a = some r) := by
  have htrunc : truncate (task.numOfPoints.val / nThreads) = p := by
    rw [truncate_intCast_div hpoints, hp]
  obtain ⟨hinv, hlen⟩ := mcInv_of_run htrunc hrun
  refine ⟨hlen, ?_⟩
  intro hret
  obtain ⟨a, t, ht⟩ := exists_mcStep htrunc h31 hinv hret
  exact ⟨a, (t, _), Machine.withHistory_step_eq_some.mpr ⟨ht, rfl⟩⟩

theorem exists_returned_run (hpoints : 0 ≤ task.numOfPoints.val)
    (hp : task.numOfPoints.val / nThreads = p) (h31 : p < 2 ^ 31) :
    ∃ as s samples, (monteCarlo task nThreads).run as = some (s, samples) ∧
      s.Returned nThreads := by
  have htrunc : truncate (task.numOfPoints.val / nThreads) = p := by
    rw [truncate_intCast_div hpoints, hp]
  obtain ⟨as, ⟨s, samples⟩, hrun, hhalted⟩ := Machine.exists_run_halted
    (I := fun u => McInv task nThreads p u.1 u.2) (μ := fun u => u.1.left nThreads p)
    (fun u a v hu hv => (mcInv_history_step htrunc hu hv).1)
    (fun u a v hu hv => (mcInv_history_step htrunc hu hv).2)
    (mcStart, []) (mcInv_start task nThreads p)
  refine ⟨as, s, samples, hrun, ?_⟩
  by_contra hret
  obtain ⟨a, r, hr⟩ := (run_goes_on hpoints hp h31 hrun).2 hret
  cases (hhalted a).symm.trans hr

end Run

section Sent
variable {server : Server} {main : Task}

theorem SlabOf.points {total cores : ℤ} {t : Task} (h : SlabOf main total cores t)
    (hpoints : 0 ≤ main.numOrPoints.val) :
    t.numOrPoints.val = main.numOrPoints.val / total * cores := by
  rw [h.numOrPoints, Int.tdiv_eq_ediv_of_nonneg hpoints]

theorem SlabOf.width {total cores : ℤ} {t : Task} (h : SlabOf main total cores t) :
    t.x2 - t.x1 = (main.x2 - main.x1) * cores / total := by
  rw [h.x1, h.x2]
  ring

theorem sum_widths {workers : List Worker} (hpos : 0 < coreSum workers) (width : ℚ) :
    (workers.map fun w => width * w.numOfCores.val / coreSum workers).sum = width := by
  have hcores : (workers.map fun w => (w.numOfCores.val : ℚ)).sum = coreSum workers := by
    unfold coreSum
    push_cast
    rw [List.map_map]
    rfl
  have hne : (coreSum workers : ℚ) ≠ 0 := by exact_mod_cast hpos.ne'
  calc (workers.map fun w => width * w.numOfCores.val / coreSum workers).sum
      = (workers.map fun w => width / coreSum workers * (w.numOfCores.val : ℚ)).sum := by
        congr 1
        apply List.map_congr_left
        intro w _
        ring
    _ = width / coreSum workers * coreSum workers := by rw [List.sum_map_mul_left, hcores]
    _ = width := div_mul_cancel₀ _ hne

theorem sum_points (workers : List Worker) (points : ℤ) :
    (workers.map fun w => points / coreSum workers * w.numOfCores.val).sum =
      points - points % coreSum workers := by
  have hdiv := Int.mul_ediv_add_emod points (coreSum workers)
  have hmul : (workers.map fun w => points / coreSum workers * w.numOfCores.val).sum =
      points / coreSum workers * coreSum workers := by
    rw [List.sum_map_mul_left]
    rfl
  rw [hmul, mul_comm]
  omega

/-- A worker that is sent a share for each of its threads gives each thread its share. -/
theorem threads_draw_share {t : Task} {share : ℤ} (h0 : 0 ≤ share) (h31 : share < 2 ^ 31)
    (hload : t.numOrPoints.val = share * (maxCores : ℕ)) :
    ∃ w, workerDecodes t = some w ∧
      ∀ as s samples, (monteCarlo w maxCores).run as = some (s, samples) →
        (as.length : ℤ) ≤ maxCores * (share + 7) ∧
        (¬ s.Returned maxCores → ∃ a r, (monteCarlo w maxCores).step (s, samples) a = some r) ∧
        (s.Returned maxCores → ∀ k < maxCores, (drawn samples k : ℤ) = share) := by
  have hcount : (share.toNat : ℤ) = share := Int.toNat_of_nonneg h0
  have hpoints : t.decoded.numOfPoints.val = share * (maxCores : ℕ) := hload
  have hthreads : t.decoded.numOfPoints.val / (maxCores : ℕ) = share.toNat := by
    rw [hpoints, Int.mul_ediv_cancel _ (by decide), hcount]
  have hnonneg : 0 ≤ t.decoded.numOfPoints.val := by
    rw [hpoints]
    exact mul_nonneg h0 (Int.natCast_nonneg _)
  refine ⟨t.decoded, sscanfTask_printOneTask t [], ?_⟩
  intro as s samples hrun
  obtain ⟨hlen, hgo⟩ := run_goes_on hnonneg hthreads (by omega) hrun
  refine ⟨?_, hgo, ?_⟩
  · rw [← hcount]
    exact_mod_cast hlen
  · intro hr k hk
    rw [(returned_of_run (by decide) hnonneg hthreads hrun hr).1 k hk, hcount]

/-- Both shares are in proportion to the cores, and what the first split drops is all that is lost:
a worker that uses the cores it announces gives each thread a core's share. -/
theorem proportional_load (hn : server.workers ≠ [])
    (hc : ∀ w ∈ server.workers, 1 ≤ w.numOfCores.val) (hsum : coreSum server.workers < 2 ^ 31)
    (hpoints : 0 ≤ main.numOrPoints.val)
    (h31 : main.numOrPoints.val / coreSum server.workers < 2 ^ 31) :
    ∃ sent, (splitTasks server main).bind sendTask = some sent ∧
      List.Forall₂ (fun w p => p.1 = w.socket ∧
        p.2.x2 - p.2.x1 = (main.x2 - main.x1) * w.numOfCores.val / coreSum server.workers ∧
        p.2.numOrPoints.val =
          main.numOrPoints.val / coreSum server.workers * w.numOfCores.val) server.workers sent ∧
      (sent.map fun p => p.2.x2 - p.2.x1).sum = main.x2 - main.x1 ∧
      (sent.map fun p => p.2.numOrPoints.val).sum =
        main.numOrPoints.val - main.numOrPoints.val % coreSum server.workers ∧
      ((∀ w ∈ server.workers, w.numOfCores.val = maxCores) → ∀ p ∈ sent, ∃ t,
        workerDecodes p.2 = some t ∧
        ∀ as s samples, (monteCarlo t maxCores).run as = some (s, samples) →
          (as.length : ℤ) ≤ maxCores * (main.numOrPoints.val / coreSum server.workers + 7) ∧
          (¬ s.Returned maxCores → ∃ a r, (monteCarlo t maxCores).step (s, samples) a = some r) ∧
          (s.Returned maxCores → ∀ k < maxCores,
            (drawn samples k : ℤ) = main.numOrPoints.val / coreSum server.workers)) := by
  obtain ⟨sent, hsent, hslab⟩ := exists_sendTask main hn hc hsum
  have hpos : 0 < coreSum server.workers := coreSum_pos hn hc
  have hloads : List.Forall₂ (fun w p => p.1 = w.socket ∧
      p.2.x2 - p.2.x1 = (main.x2 - main.x1) * w.numOfCores.val / coreSum server.workers ∧
      p.2.numOrPoints.val =
        main.numOrPoints.val / coreSum server.workers * w.numOfCores.val) server.workers sent :=
    hslab.imp fun w p h => ⟨h.1, h.2.width, h.2.points hpoints⟩
  refine ⟨sent, hsent, hloads, ?_, ?_, ?_⟩
  · have hmap : sent.map (fun p => p.2.x2 - p.2.x1) = server.workers.map fun w =>
        (main.x2 - main.x1) * w.numOfCores.val / coreSum server.workers :=
      map_of_forall₂ (hloads.imp fun w p h => h.2.1)
    rw [hmap]
    exact sum_widths hpos _
  · have hmap : sent.map (fun p => p.2.numOrPoints.val) = server.workers.map fun w =>
        main.numOrPoints.val / coreSum server.workers * w.numOfCores.val :=
      map_of_forall₂ (hloads.imp fun w p h => h.2.2)
    rw [hmap]
    exact sum_points _ _
  · intro hall p hp
    obtain ⟨w, hw, _, _, hload⟩ := exists_of_forall₂ hloads hp
    rw [hall w hw] at hload
    exact threads_draw_share (Int.ediv_nonneg hpoints hpos.le) h31 hload

/-- A worker with eight cores and one with a single core: nine cores, and 100000 points leave a
remainder. -/
def twoSizes : Server where
  workers := [⟨⟨8, by decide, by decide⟩, 4, 0⟩, oneCore 5]
  workers_le := by decide
  tasks := []

/-- Three workers that announce the cores they use. -/
def threeFull : Server where
  workers := [⟨⟨8, by decide, by decide⟩, 4, 0⟩, ⟨⟨8, by decide, by decide⟩, 5, 0⟩,
    ⟨⟨8, by decide, by decide⟩, 6, 0⟩]
  workers_le := by decide
  tasks := []

theorem two_sizes_load :
    (∃ sent, (splitTasks twoSizes mainTask).bind sendTask = some sent ∧
      sent.map (fun p => p.2.numOrPoints.val) = [88888, 11111]) ∧
    ∃ sent, (splitTasks threeFull mainTask).bind sendTask = some sent ∧
      (sent.map fun p => p.2.numOrPoints.val).sum = 100000 - 16 ∧
      ∀ p ∈ sent, ∃ t as s samples, workerDecodes p.2 = some t ∧
        (monteCarlo t maxCores).run as = some (s, samples) ∧ s.Returned maxCores ∧
        ∀ k < maxCores, (drawn samples k : ℤ) = 4166 := by
  constructor
  · obtain ⟨sent, hsent, hloads, _⟩ := @proportional_load twoSizes mainTask
      (List.cons_ne_nil _ _) (by decide) (by decide) (by decide) (by decide)
    refine ⟨sent, hsent, ?_⟩
    have hmap : sent.map (fun p => p.2.numOrPoints.val) = twoSizes.workers.map fun w =>
        mainTask.numOrPoints.val / coreSum twoSizes.workers * w.numOfCores.val :=
      map_of_forall₂ (hloads.imp fun w p h => h.2.2)
    rw [hmap]
    decide
  · obtain ⟨sent, hsent, hloads, _, hsum, hthreads⟩ := @proportional_load threeFull mainTask
      (List.cons_ne_nil _ _) (by decide) (by decide) (by decide) (by decide)
    refine ⟨sent, hsent, hsum.trans (by decide), ?_⟩
    intro p hp
    obtain ⟨t, ht, hdraws⟩ := hthreads (by decide) p hp
    obtain ⟨w, hw, _, _, hload⟩ := exists_of_forall₂ hloads hp
    have hfull : ∀ w ∈ threeFull.workers, w.numOfCores.val = 8 := by decide
    have hpoints : p.2.decoded.numOfPoints.val = 33328 := by
      rw [hfull w hw] at hload
      exact hload.trans (by decide)
    have hshare : p.2.decoded.numOfPoints.val / (maxCores : ℕ) = (4166 : ℕ) := by
      rw [hpoints]
      decide
    cases ht.symm.trans (sscanfTask_printOneTask p.2 [])
    obtain ⟨as, s, samples, hrun, hret⟩ := exists_returned_run (by omega) hshare (by decide)
    refine ⟨_, as, s, samples, ht, hrun, hret, ?_⟩
    intro k hk
    exact ((hdraws as s samples hrun).2.2 hret k hk).trans (by decide)

end Sent

/-- The sum in `gather_results`. -/
def sumDoubles (l : List (Option ℚ)) : Option ℚ := l.foldl (Option.map₂ (· + ·)) (some 0)

theorem sumDoubles_ne_none {l : List (Option ℚ)} (h : ∀ v ∈ l, v ≠ none) :
    sumDoubles l ≠ none := by
  have hacc : ∀ acc : ℚ, l.foldl (Option.map₂ (· + ·)) (some acc) ≠ none := by
    induction l with
    | nil => exact fun acc => Option.some_ne_none acc
    | cons v l ih =>
      intro acc
      obtain ⟨q, rfl⟩ := Option.ne_none_iff_exists'.mp (h v List.mem_cons_self)
      exact ih (fun w hw => h w (List.mem_cons_of_mem _ hw)) (acc + q)
  exact hacc 0

/-- The worker decodes the task and `monte_carlo` returns `v`. -/
def WorkerReturns (task : Task) (v : Option ℚ) : Prop :=
  ∃ t as s samples, workerDecodes task = some t ∧
    (monteCarlo t maxCores).run as = some (s, samples) ∧ s.Returned maxCores ∧
    s.shared.resSquare = v

/-- Every thread of the worker draws a point. -/
def DrawsPoints (task : Task) : Prop :=
  ∃ t, workerDecodes task = some t ∧ ∀ k < maxCores, 1 ≤ (threadArgs t maxCores k).pointsNum

theorem drawsPoints_iff {task : Task} (hpoints : 0 ≤ task.numOrPoints.val) :
    DrawsPoints task ↔ (maxCores : ℤ) ≤ task.numOrPoints.val := by
  have hnum : ∀ k, (threadArgs task.decoded maxCores k).pointsNum =
      task.numOrPoints.val / (maxCores : ℕ) := by
    intro k
    exact truncate_intCast_div (z := task.numOrPoints.val) hpoints maxCores
  have hone : 1 ≤ task.numOrPoints.val / (maxCores : ℕ) ↔
      (maxCores : ℤ) ≤ task.numOrPoints.val := by
    rw [Int.le_ediv_iff_mul_le (by decide), one_mul]
  constructor
  · intro h
    obtain ⟨t, ht, hall⟩ := h
    cases ht.symm.trans (sscanfTask_printOneTask task [])
    have hfirst := hall 0 (by decide)
    rw [hnum] at hfirst
    exact hone.mp hfirst
  · intro h
    refine ⟨task.decoded, sscanfTask_printOneTask task [], ?_⟩
    intro k _
    rw [hnum]
    exact hone.mpr h

theorem DrawsPoints.number {task : Task} (h : DrawsPoints task)
    (hpoints : 0 ≤ task.numOrPoints.val) {v : Option ℚ} (hv : WorkerReturns task v) :
    v ≠ none := by
  obtain ⟨t, as, s, samples, ht, hrun, hret, rfl⟩ := hv
  cases ht.symm.trans (sscanfTask_printOneTask task [])
  have hge := (drawsPoints_iff hpoints).mp h
  have hshare : 0 ≤ task.numOrPoints.val / (maxCores : ℕ) := Int.ediv_nonneg hpoints (by decide)
  have hp : task.decoded.numOfPoints.val / (maxCores : ℕ) =
      ((task.numOrPoints.val / (maxCores : ℕ)).toNat : ℤ) := (Int.toNat_of_nonneg hshare).symm
  have hiff := (returned_of_run (by decide) hpoints hp hrun hret).2
  have hone : 1 ≤ task.numOrPoints.val / (maxCores : ℕ) := by
    rw [Int.le_ediv_iff_mul_le (by decide), one_mul]
    exact hge
  rw [ne_eq, hiff]
  omega

theorem maxCores_le_iff {points total cores : ℤ} (ht : 0 < total) (hc : 1 ≤ cores) :
    (maxCores : ℤ) ≤ points / total * cores ↔
      total * ((maxCores + cores - 1) / cores) ≤ points := by
  have hpos : 0 < cores := by omega
  rw [mul_comm total, ← Int.le_ediv_iff_mul_le ht]
  have hlt : (maxCores + cores - 1) / cores < points / total + 1 ↔
      maxCores + cores - 1 < (points / total + 1) * cores := Int.ediv_lt_iff_lt_mul hpos
  rw [add_mul, one_mul] at hlt
  omega

theorem SlabOf.drawsPoints_iff {main : Task} {total cores : ℤ} {t : Task}
    (h : SlabOf main total cores t) (hpoints : 0 ≤ main.numOrPoints.val) (ht : 0 < total)
    (hc : 1 ≤ cores) :
    0 ≤ t.numOrPoints.val ∧ (DrawsPoints t ↔
      total * ((maxCores + cores - 1) / cores) ≤ main.numOrPoints.val) := by
  have hval := h.points hpoints
  have hnonneg : 0 ≤ t.numOrPoints.val := by
    rw [hval]
    exact mul_nonneg (Int.ediv_nonneg hpoints ht.le) (zero_le_one.trans hc)
  refine ⟨hnonneg, ?_⟩
  rw [Integral.drawsPoints_iff hnonneg, hval, maxCores_le_iff ht hc]

theorem sendTask_of_no_workers {server : Server} (main : Task) (h : server.workers = []) :
    (splitTasks server main).bind sendTask = some [] := by
  obtain ⟨workers, hle, tasks⟩ := server
  obtain rfl : workers = [] := h
  rfl

/-- Every thread of every worker draws a point, and the sum is a number, exactly when the main
task has enough points for the worker with the fewest cores. -/
theorem samples_positive_iff {server : Server} {main : Task}
    (hc : ∀ w ∈ server.workers, 1 ≤ w.numOfCores.val) (hpoints : 1 ≤ main.numOrPoints.val) :
    (∃ sent, (splitTasks server main).bind sendTask = some sent ∧
        (∀ p ∈ sent, DrawsPoints p.2) ∧
        ∀ results, List.Forall₂ (fun p v => WorkerReturns p.2 v) sent results →
          sumDoubles results ≠ none) ↔
      coreSum server.workers < 2 ^ 31 ∧ ∀ w ∈ server.workers,
        coreSum server.workers * ((maxCores + w.numOfCores.val - 1) / w.numOfCores.val) ≤
          main.numOrPoints.val := by
  by_cases hsum : coreSum server.workers < 2 ^ 31
  · by_cases hn : server.workers = []
    · apply iff_of_true
      · refine ⟨[], sendTask_of_no_workers main hn, fun p hp => absurd hp List.not_mem_nil, ?_⟩
        intro results hr
        cases hr
        exact sumDoubles_ne_none fun v hv => absurd hv List.not_mem_nil
      · rw [hn]
        exact ⟨by decide, fun w hw => absurd hw List.not_mem_nil⟩
    · obtain ⟨sent, hsent, hslab⟩ := exists_sendTask main hn hc hsum
      have hpos : 0 < coreSum server.workers := coreSum_pos hn hc
      have hload : ∀ w ∈ server.workers, ∀ p,
          SlabOf main (coreSum server.workers) w.numOfCores.val p → _ :=
        fun w hw p hp => hp.drawsPoints_iff (by omega) hpos (hc w hw)
      constructor
      · intro h
        obtain ⟨sent', hsent', hdraws, _⟩ := h
        cases hsent.symm.trans hsent'
        refine ⟨hsum, ?_⟩
        intro w hw
        obtain ⟨p, hp, _, hs⟩ := exists_of_forall₂ hslab.flip hw
        exact (hload w hw p.2 hs).2.mp (hdraws p hp)
      · intro h
        have hall : ∀ p ∈ sent, 0 ≤ p.2.numOrPoints.val ∧ DrawsPoints p.2 := by
          intro p hp
          obtain ⟨w, hw, _, hs⟩ := exists_of_forall₂ hslab hp
          obtain ⟨hnonneg, hiff⟩ := hload w hw p.2 hs
          exact ⟨hnonneg, hiff.mpr (h.2 w hw)⟩
        refine ⟨sent, hsent, fun p hp => (hall p hp).2, ?_⟩
        intro results hr
        apply sumDoubles_ne_none
        intro v hv
        obtain ⟨p, hp, hreturns⟩ := exists_of_forall₂ hr hv
        exact (hall p hp).2.number (hall p hp).1 hreturns
  · apply iff_of_false
    · intro h
      obtain ⟨sent, hsent, _⟩ := h
      rw [splitTasks_eq_none main hc (not_lt.mp hsum)] at hsent
      cases hsent
    · exact fun h => hsum h.1

theorem two_sizes_samples :
    ∃ sent, (splitTasks twoSizes mainTask).bind sendTask = some sent ∧
      ∀ p ∈ sent, DrawsPoints p.2 := by
  obtain ⟨sent, hsent, hdraws, _⟩ := (@samples_positive_iff twoSizes mainTask
    (by decide) (by decide)).mpr ⟨by decide, by decide⟩
  exact ⟨sent, hsent, hdraws⟩

/-- Two workers that announce 20000 cores and one core. -/
def unevenServer : Server where
  workers := [⟨⟨20000, by decide, by decide⟩, 4, 0⟩, oneCore 5]
  workers_le := by decide
  tasks := []

/-- Of the points of `main` the second worker gets four, and its threads none: it returns 0 / 0. -/
theorem uneven_sum_not_a_number :
    ∃ sent results, (splitTasks unevenServer mainTask).bind sendTask = some sent ∧
      (∃ p ∈ sent, p.2.numOrPoints.val = 4 ∧ ¬ DrawsPoints p.2) ∧
      List.Forall₂ (fun p v => WorkerReturns p.2 v) sent results ∧ sumDoubles results = none := by
  obtain ⟨sent, hsent, hslab⟩ := @exists_sendTask unevenServer mainTask
    (List.cons_ne_nil _ _) (by decide) (by decide)
  obtain ⟨first, _, hfirst, hrest, rfl⟩ := List.forall₂_cons_left_iff.mp hslab
  obtain ⟨second, _, hsecond, hnil, rfl⟩ := List.forall₂_cons_left_iff.mp hrest
  cases hnil
  have hfirstPoints : first.2.decoded.numOfPoints.val = 80000 :=
    (hfirst.2.points (by decide)).trans (by decide)
  have hsecondPoints : second.2.decoded.numOfPoints.val = 4 :=
    (hsecond.2.points (by decide)).trans (by decide)
  have hfirstShare : first.2.decoded.numOfPoints.val / (maxCores : ℕ) = (10000 : ℕ) := by
    rw [hfirstPoints]
    decide
  have hsecondShare : second.2.decoded.numOfPoints.val / (maxCores : ℕ) = (0 : ℕ) := by
    rw [hsecondPoints]
    decide
  obtain ⟨as, s, samples, hrun, hret⟩ :=
    exists_returned_run (by omega) hfirstShare (by decide)
  obtain ⟨as', s', samples', hrun', hret'⟩ :=
    exists_returned_run (by omega) hsecondShare (by decide)
  have hnan : s'.shared.resSquare = none :=
    (returned_of_run (by decide) (by omega) hsecondShare hrun' hret').2.mpr rfl
  have hdecodes : ∀ task : Task, workerDecodes task = some task.decoded :=
    fun task => sscanfTask_printOneTask task []
  refine ⟨[first, second], [s.shared.resSquare, none], hsent, ?_, ?_, ?_⟩
  · refine ⟨second, List.mem_cons_of_mem _ List.mem_cons_self, hsecondPoints, ?_⟩
    have hpoints : second.2.numOrPoints.val = 4 := hsecondPoints
    rw [drawsPoints_iff (by omega), hpoints]
    decide
  · exact .cons ⟨_, as, s, samples, hdecodes _, hrun, hret, rfl⟩
      (.cons ⟨_, as', s', samples', hdecodes _, hrun', hret', hnan⟩ .nil)
  · exact Option.map₂_none_right _ _

end OsTasks.Integral
