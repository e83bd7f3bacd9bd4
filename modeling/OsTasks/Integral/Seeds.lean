import OsTasks.Integral.Estimate
import OsTasks.Integral.RoundTrip

/-! The generators of the threads of `monte_carlo`. Each is seeded with the second in which its
thread starts. -/
namespace OsTasks.Integral
open OsTasks.Lib

/-- A function like `rand_r`: the value it returns, and the state it leaves in `*seed`. -/
structure Generator where
  value : UInt32 → Fin (randMax + 1)
  next : UInt32 → UInt32

/-- A run of `monte_carlo` with the variable `seed` of every thread, and all values that it had, the
last first. -/
structure SeededState where
  mc : McState × List Sample
  seed : ℕ → UInt32
  states : ℕ → List UInt32

inductive SeededAction where
  | main
  | sample (k : ℕ)
  | run (k : ℕ)

/-- `time(NULL)` in an `unsigned int`. -/
def startSeed (second : ℕ) : UInt32 := .ofNat second

section Step
variable (task : WorkerTask) (nThreads : ℕ) (g : Generator)

def seededStep (s : SeededState) : SeededAction → Option SeededState
  | .main => ((monteCarlo task nThreads).step s.mc .main).map fun mc => { s with mc := mc }
  | .run k => ((monteCarlo task nThreads).step s.mc (.run k)).map fun mc => { s with mc := mc }
  | .sample k =>
    let s1 := g.next (s.seed k)
    let s2 := g.next s1
    ((monteCarlo task nThreads).step s.mc (.sample k (g.value (s.seed k)) (g.value s1))).map
      fun mc =>
        { mc := mc
          seed := Function.update s.seed k s2
          states := Function.update s.states k (s2 :: s1 :: s.states k) }

/-- Thread `k` starts in the second `start k`. -/
def seededStart (start : ℕ → ℕ) : SeededState where
  mc := (mcStart, [])
  seed := fun k => startSeed (start k)
  states := fun k => [startSeed (start k)]

def seeded (start : ℕ → ℕ) : Machine SeededState SeededAction :=
  ⟨seededStart start, seededStep task nThreads g⟩

/-- Where a point lies in the slab of its thread. -/
def relative (a : Args) (q : Sample) : ℚ × ℚ :=
  ((q.x - a.x1) / (a.x2 - a.x1), (q.y - a.y1) / (a.y2 - a.y1))

/-- The relative positions of the points of thread `k`, the last first. -/
def positions (samples : List Sample) (k : ℕ) : List (ℚ × ℚ) :=
  (samples.filter fun q => q.thread = k).map (relative (threadArgs task nThreads k))

/-- No two threads that draw points go through the same states, and the positions of two threads
can differ. -/
structure StreamsDiffer (start : ℕ → ℕ) : Prop where
  states : ∀ g s, (seeded task nThreads g start).Reachable s → ∀ i < nThreads, ∀ j < nThreads,
    i ≠ j → 0 < drawn s.mc.2 i → s.states i ≠ s.states j
  positions : task.x1 ≠ task.x2 → ∀ i < nThreads, ∀ j < nThreads, i ≠ j →
    ∃ g s, (seeded task nThreads g start).Reachable s ∧ drawn s.mc.2 i = drawn s.mc.2 j ∧
      positions task nThreads s.mc.2 i ≠ positions task nThreads s.mc.2 j

/-- The states behind `d` points. -/
def statesAfter (seed : UInt32) : ℕ → List UInt32
  | 0 => [seed]
  | d + 1 => g.next^[2 * d + 2] seed :: g.next^[2 * d + 1] seed :: statesAfter seed d

/-- Where a point lies for two values. All slabs have the same shape. -/
def valuesPosition (rx ry : ℕ) : ℚ × ℚ :=
  let width := (task.x2 - task.x1) / nThreads
  let height := task.y2 - task.y1
  (rx / randMax * width / width, ry / randMax * height / height)

/-- The positions of `d` points. -/
def positionsAfter (seed : UInt32) : ℕ → List (ℚ × ℚ)
  | 0 => []
  | d + 1 => valuesPosition task nThreads (g.value (g.next^[2 * d] seed))
      (g.value (g.next^[2 * d + 1] seed)) :: positionsAfter seed d

/-- The seed and the number of its points say all about a thread's generator. -/
structure StreamInv (start : ℕ → ℕ) (s : SeededState) (k : ℕ) : Prop where
  seed : s.seed k = g.next^[2 * drawn s.mc.2 k] (startSeed (start k))
  states : s.states k = statesAfter g (startSeed (start k)) (drawn s.mc.2 k)
  positions : positions task nThreads s.mc.2 k =
    positionsAfter task nThreads g (startSeed (start k)) (drawn s.mc.2 k)

end Step

section Inv
variable {task : WorkerTask} {nThreads : ℕ} {g : Generator} {start : ℕ → ℕ}

theorem relative_sampled (k rx ry : ℕ) :
    relative (threadArgs task nThreads k)
        ⟨k, sampled (threadArgs task nThreads k).x1 (threadArgs task nThreads k).x2 rx,
          sampled (threadArgs task nThreads k).y1 (threadArgs task nThreads k).y2 ry⟩ =
      valuesPosition task nThreads rx ry := by
  have hwidth := width_threadArgs task nThreads k
  unfold relative sampled
  dsimp only
  rw [add_sub_cancel_left, add_sub_cancel_left, hwidth]
  rfl

theorem positions_cons (q : Sample) (samples : List Sample) (k : ℕ) :
    positions task nThreads (q :: samples) k =
      if q.thread = k then
        relative (threadArgs task nThreads k) q :: positions task nThreads samples k
      else positions task nThreads samples k := by
  unfold positions
  rw [List.filter_cons]
  split_ifs <;> simp_all

theorem streamInv_sample {s : SeededState} {k : ℕ} {mc : McState × List Sample}
    (h : ∀ j, StreamInv task nThreads g start s j)
    (ht : (monteCarlo task nThreads).step s.mc
      (.sample k (g.value (s.seed k)) (g.value (g.next (s.seed k)))) = some mc) (j : ℕ) :
    StreamInv task nThreads g start
      { mc := mc
        seed := Function.update s.seed k (g.next (g.next (s.seed k)))
        states := Function.update s.states k
          (g.next (g.next (s.seed k)) :: g.next (s.seed k) :: s.states k) } j := by
  obtain ⟨_, hsamples⟩ := Machine.withHistory_step_eq_some.mp ht
  obtain ⟨hseed, hstates, hpositions⟩ := h j
  by_cases hj : j = k
  · subst hj
    have hdrawn : drawn mc.2 j = drawn s.mc.2 j + 1 := by
      rw [hsamples]
      exact (drawn_cons _ _ _).trans (congrArg _ (if_pos rfl))
    have hone : g.next (s.seed j) = g.next^[2 * drawn s.mc.2 j + 1] (startSeed (start j)) := by
      rw [Function.iterate_succ_apply', ← hseed]
    have htwo : g.next (g.next (s.seed j)) =
        g.next^[2 * drawn s.mc.2 j + 2] (startSeed (start j)) := by
      rw [Function.iterate_succ_apply', ← hone]
    refine ⟨?_, ?_, ?_⟩
    · dsimp only
      rw [Function.update_self, hdrawn, htwo, Nat.mul_add, Nat.mul_one]
    · dsimp only
      rw [Function.update_self, hdrawn, htwo, hone, hstates]
      rfl
    · dsimp only
      rw [hdrawn, hsamples]
      change positions task nThreads (_ :: s.mc.2) j = _
      rw [positions_cons, if_pos rfl, relative_sampled, hpositions, hone, hseed]
      rfl
  · have hdrawn : drawn mc.2 j = drawn s.mc.2 j := by
      rw [hsamples]
      exact (drawn_cons _ _ _).trans (congrArg _ (if_neg (Ne.symm hj)))
    refine ⟨?_, ?_, ?_⟩
    · dsimp only
      rw [Function.update_of_ne hj, hdrawn, hseed]
    · dsimp only
      rw [Function.update_of_ne hj, hdrawn, hstates]
    · dsimp only
      rw [hdrawn, hsamples, ← hpositions]
      change positions task nThreads (_ :: s.mc.2) j = _
      rw [positions_cons, if_neg (Ne.symm hj)]

/-- The generators do not depend on how the threads take turns. -/
theorem streamInv_of_reachable {s : SeededState}
    (h : (seeded task nThreads g start).Reachable s) (k : ℕ) :
    StreamInv task nThreads g start s k := by
  apply h.invariant (I := fun s => ∀ k, StreamInv task nThreads g start s k)
    (fun k => ⟨rfl, rfl, rfl⟩)
  intro s a t hs ht
  have hother : ∀ mc, mc.2 = s.mc.2 →
      ∀ k, StreamInv task nThreads g start { s with mc := mc } k := by
    intro mc hmc k
    obtain ⟨hseed, hstates, hpositions⟩ := hs k
    rw [← hmc] at hseed hstates hpositions
    exact ⟨hseed, hstates, hpositions⟩
  cases a with
  | main =>
    obtain ⟨mc, hmc, rfl⟩ := Option.map_eq_some_iff.mp ht
    exact hother mc (Machine.withHistory_step_eq_some.mp hmc).2
  | run k =>
    obtain ⟨mc, hmc, rfl⟩ := Option.map_eq_some_iff.mp ht
    exact hother mc (Machine.withHistory_step_eq_some.mp hmc).2
  | sample k =>
    obtain ⟨mc, hmc, rfl⟩ := Option.map_eq_some_iff.mp ht
    exact streamInv_sample hs hmc

end Inv

section Both
variable {task : WorkerTask} {nThreads : ℕ}

theorem run_create (g : Generator) (start : ℕ → ℕ) {m : ℕ} (hm : m ≤ nThreads) :
    (seeded task nThreads g start).run (List.replicate m .main) =
      some { seededStart start with mc := ({ mcStart with created := m }, []) } := by
  induction m with
  | zero => rfl
  | succ m ih =>
    have hlt : m < nThreads := hm
    have hstep : (seeded task nThreads g start).step
        { seededStart start with mc := ({ mcStart with created := m }, []) } .main =
          some { seededStart start with mc := ({ mcStart with created := m + 1 }, []) } := by
      have hcreate : mcStep task nThreads { mcStart with created := m } .main =
          some { mcStart with created := m + 1 } := by
        refine (if_pos hlt).trans ?_
        have hself : Function.update mcStart.thread m (.loop 0 0) = mcStart.thread :=
          Function.update_eq_self m mcStart.thread
        dsimp only
        rw [hself]
      have hmc : (monteCarlo task nThreads).step ({ mcStart with created := m }, []) .main =
          some ({ mcStart with created := m + 1 }, []) :=
        Machine.withHistory_step_eq_some.mpr ⟨hcreate, rfl⟩
      exact congrArg (Option.map _) hmc
    rw [List.replicate_succ', Machine.run, Machine.runFrom_append]
    rw [Machine.run] at ih
    rw [ih (by omega)]
    exact Machine.runFrom_cons_eq_some.mpr ⟨_, hstep, rfl⟩

theorem exists_first_draw {g : Generator} (start : ℕ → ℕ) {s : SeededState} {k : ℕ}
    (hk : k < s.mc.1.created) (hpc : s.mc.1.thread k = .loop 0 0)
    (hpoints : 0 < (threadArgs task nThreads k).pointsNum) :
    ∃ t, (seeded task nThreads g start).step s (.sample k) = some t ∧
      t.mc.1.created = s.mc.1.created ∧
      (∀ j ≠ k, t.mc.1.thread j = s.mc.1.thread j ∧ drawn t.mc.2 j = drawn s.mc.2 j) ∧
      drawn t.mc.2 k = drawn s.mc.2 k + 1 := by
  have hsample : ∀ rx ry : ℕ, ∃ pc,
      sampleStep (threadArgs task nThreads k) (s.mc.1.thread k) rx ry = some pc := by
    intro rx ry
    rw [hpc]
    refine ⟨_, if_pos ⟨?_, by norm_num⟩⟩
    exact_mod_cast hpoints
  obtain ⟨pc, hpass⟩ := hsample (g.value (s.seed k)) (g.value (g.next (s.seed k)))
  have hstep : mcStep task nThreads s.mc.1
      (.sample k (g.value (s.seed k)) (g.value (g.next (s.seed k)))) =
        some { s.mc.1 with thread := Function.update s.mc.1.thread k pc } := by
    refine (if_pos hk).trans ?_
    rw [hpass]
    rfl
  have hmc : (monteCarlo task nThreads).step s.mc
      (.sample k (g.value (s.seed k)) (g.value (g.next (s.seed k)))) = some (_, _) :=
    Machine.withHistory_step_eq_some.mpr ⟨hstep, rfl⟩
  refine ⟨_, congrArg (Option.map _) hmc, rfl, ?_, ?_⟩
  · intro j hj
    refine ⟨Function.update_of_ne hj _ _, ?_⟩
    exact (drawn_cons _ _ _).trans (congrArg _ (if_neg (Ne.symm hj)))
  · exact (drawn_cons _ _ _).trans (congrArg _ (if_pos rfl))

theorem exists_both_drawn (hpoints : ∀ k, 0 < (threadArgs task nThreads k).pointsNum)
    (g : Generator) (start : ℕ → ℕ) {i j : ℕ} (hi : i < nThreads) (hj : j < nThreads)
    (hij : i ≠ j) :
    ∃ s, (seeded task nThreads g start).Reachable s ∧ drawn s.mc.2 i = 1 ∧
      drawn s.mc.2 j = 1 := by
  have hcreate : (seeded task nThreads g start).run (List.replicate nThreads .main) = _ :=
    run_create g start le_rfl
  obtain ⟨t, ht, hcreated, hother, hdrawn⟩ := exists_first_draw (g := g) start
    (s := { seededStart start with mc := ({ mcStart with created := nThreads }, []) })
    hi rfl (hpoints i)
  obtain ⟨hpc, hnone⟩ := hother j (Ne.symm hij)
  obtain ⟨u, hu, _, hother', hdrawn'⟩ := exists_first_draw (g := g) start (s := t)
    (hcreated.symm ▸ hj) hpc (hpoints j)
  refine ⟨u, Machine.Reachable.step (Machine.Reachable.step ⟨_, hcreate⟩ ht) hu, ?_, ?_⟩
  · rw [(hother' i hij).2, hdrawn]
    rfl
  · rw [hdrawn', hnone]
    rfl

end Both

theorem statesAfter_ne {g : Generator} {seed seed' : UInt32} (h : seed ≠ seed') (d d' : ℕ) :
    statesAfter g seed d ≠ statesAfter g seed' d' := by
  have hlast : ∀ seed d, (statesAfter g seed d).getLast? = some seed := by
    intro seed d
    induction d with
    | zero => rfl
    | succ d ih =>
      unfold statesAfter
      rw [List.getLast?_cons_cons, List.getLast?_cons, ih]
      rfl
  intro he
  have hboth := hlast seed d
  rw [he, hlast seed' d'] at hboth
  exact h (Option.some.inj hboth).symm

/-- A generator that tells one seed from the others by its first value. -/
def telling (seed : UInt32) : Generator where
  value := fun s => if s = seed then Fin.last randMax else ⟨0, Nat.succ_pos randMax⟩
  next := fun _ => seed

theorem positionsAfter_telling {task : WorkerTask} {nThreads : ℕ} {seed seed' : UInt32}
    (hx : task.x1 ≠ task.x2) (hn : 0 < nThreads) (h : seed ≠ seed') :
    positionsAfter task nThreads (telling seed) seed 1 ≠
      positionsAfter task nThreads (telling seed) seed' 1 := by
  have hwidth : (task.x2 - task.x1) / (nThreads : ℚ) ≠ 0 :=
    div_ne_zero (sub_ne_zero.mpr hx.symm) (Nat.cast_ne_zero.mpr hn.ne')
  have hself : (telling seed).value seed = Fin.last randMax := if_pos rfl
  have hother : (telling seed).value seed' = ⟨0, Nat.succ_pos randMax⟩ := if_neg h.symm
  intro he
  have hfirst := congrArg Prod.fst (List.cons.inj he).1
  simp only [valuesPosition, Nat.mul_zero, Function.iterate_zero, id, hself, hother] at hfirst
  rw [mul_div_cancel_right₀ _ hwidth, mul_div_cancel_right₀ _ hwidth] at hfirst
  exact absurd hfirst (by norm_num [randMax])

theorem startSeed_eq_iff (a b : ℕ) : startSeed a = startSeed b ↔ a % 2 ^ 32 = b % 2 ^ 32 := by
  unfold startSeed
  rw [← UInt32.toNat_inj, UInt32.toNat_ofNat', UInt32.toNat_ofNat']

/-- Threads with points to draw use different random numbers exactly when no two of them start in
one second of the `unsigned int`. -/
theorem streamsDiffer_iff {task : WorkerTask} {nThreads : ℕ} (start : ℕ → ℕ)
    (hpoints : 1 ≤ task.numOfPoints.val / nThreads) :
    StreamsDiffer task nThreads start ↔
      ∀ i < nThreads, ∀ j < nThreads, i ≠ j → start i % 2 ^ 32 ≠ start j % 2 ^ 32 := by
  have hnonneg : 0 ≤ task.numOfPoints.val := by
    by_contra hneg
    rcases Nat.eq_zero_or_pos nThreads with rfl | hn
    · rw [Nat.cast_zero, Int.ediv_zero] at hpoints
      omega
    · have hquot : task.numOfPoints.val / nThreads < 0 :=
        Int.ediv_neg_of_neg_of_pos (not_le.mp hneg) (Int.natCast_pos.mpr hn)
      omega
  have hpos : ∀ k, 0 < (threadArgs task nThreads k).pointsNum := by
    intro k
    have htrunc : (threadArgs task nThreads k).pointsNum = task.numOfPoints.val / nThreads :=
      truncate_intCast_div hnonneg nThreads
    omega
  constructor
  · intro h i hi j hj hij heq
    have hseed := (startSeed_eq_iff _ _).mpr heq
    obtain ⟨s, hs, hdi, hdj⟩ := exists_both_drawn hpos (telling 0) start hi hj hij
    have hsi := (streamInv_of_reachable hs i).states
    have hsj := (streamInv_of_reachable hs j).states
    apply h.states _ s hs i hi j hj hij (by omega)
    rw [hsi, hsj, hdi, hdj, hseed]
  · intro h
    have hne : ∀ i < nThreads, ∀ j < nThreads, i ≠ j →
        startSeed (start i) ≠ startSeed (start j) :=
      fun i hi j hj hij he => h i hi j hj hij ((startSeed_eq_iff _ _).mp he)
    constructor
    · intro g s hs i hi j hj hij _
      rw [(streamInv_of_reachable hs i).states, (streamInv_of_reachable hs j).states]
      exact statesAfter_ne (hne i hi j hj hij) _ _
    · intro hx i hi j hj hij
      obtain ⟨s, hs, hdi, hdj⟩ :=
        exists_both_drawn hpos (telling (startSeed (start i))) start hi hj hij
      refine ⟨_, s, hs, hdi.trans hdj.symm, ?_⟩
      rw [(streamInv_of_reachable hs i).positions, (streamInv_of_reachable hs j).positions, hdi,
        hdj]
      exact positionsAfter_telling hx (by omega) (hne i hi j hj hij)

/-- Two threads that start in successive seconds. -/
theorem successive_seconds_differ : StreamsDiffer mainTask.decoded 2 id :=
  (@streamsDiffer_iff mainTask.decoded 2 id (by decide)).mpr fun i hi j hj hij => by
    change i % 2 ^ 32 ≠ j % 2 ^ 32
    omega

/-- Two threads that start in one second. -/
theorem same_second_not_differ : ¬ StreamsDiffer mainTask.decoded 2 fun _ => 0 := by
  intro h
  have hpoints : ∀ k, 0 < (threadArgs mainTask.decoded 2 k).pointsNum := by
    intro k
    change 0 < truncate (((100000 : ℤ) : ℚ) / (2 : ℕ))
    rw [truncate_intCast_div (by norm_num)]
    decide
  obtain ⟨s, hs, h0, h1⟩ :=
    exists_both_drawn hpoints (telling 0) (fun _ => 0) Nat.zero_lt_two Nat.one_lt_two zero_ne_one
  have hs0 := (streamInv_of_reachable hs 0).states
  have hs1 := (streamInv_of_reachable hs 1).states
  apply h.states _ s hs 0 Nat.zero_lt_two 1 Nat.one_lt_two zero_ne_one (by omega)
  rw [hs0, hs1, h0, h1]

end OsTasks.Integral
