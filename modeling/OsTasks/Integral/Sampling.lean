import OsTasks.Integral.Estimate
import OsTasks.Integral.RoundTrip

/-! The loop of a thread of `monte_carlo`: its counter is an `int`, its bound a `long long`. -/
namespace OsTasks.Integral
open OsTasks.Lib

/-- The values of `rand_r` that a pass of the loop uses. -/
abbrev Draw := Fin (randMax + 1) × Fin (randMax + 1)

/-- The passes of the loop. -/
def samplingLoop (a : Args) : Machine ThreadPc Draw where
  init := .loop 0 0
  step := fun pc r => sampleStep a pc r.1 r.2

/-- Whatever is drawn, the loop makes `p` passes, and its test fails behind the last of them and not
before. -/
structure EndsAfter (a : Args) (p : ℕ) : Prop where
  passes : ∀ draws, draws.length ≤ p →
    ∃ square, (samplingLoop a).run draws = some (.loop draws.length square)
  leaves : ∀ k i square sh, i ≤ p → ((threadStep a k (.loop i square) sh).isSome ↔ i = p)

section Loop
variable {a : Args}

theorem sampleStep_loop {i : ℕ} (hi : i < a.pointsNum) (h31 : i + 1 < 2 ^ 31) (square : ℚ)
    (r : Draw) : ∃ square', sampleStep a (.loop i square) r.1 r.2 = some (.loop (i + 1) square') := by
  unfold sampleStep
  dsimp only
  rw [if_pos ⟨hi, h31⟩]
  exact ⟨_, rfl⟩

theorem exists_passes (i : ℕ) (square : ℚ) {draws : List Draw}
    (hpoints : i + draws.length ≤ a.pointsNum) (h31 : i + draws.length < 2 ^ 31) :
    ∃ square', (samplingLoop a).runFrom (.loop i square) draws =
      some (.loop (i + draws.length) square') := by
  induction draws generalizing i square with
  | nil => exact ⟨square, rfl⟩
  | cons r draws ih =>
    rw [List.length_cons] at hpoints h31
    obtain ⟨next, hnext⟩ := @sampleStep_loop a i (by omega) (by omega) square r
    have hindex : i + (r :: draws).length = i + 1 + draws.length := by
      rw [List.length_cons]
      omega
    obtain ⟨last, hlast⟩ := ih (i + 1) next (by push_cast; omega) (by omega)
    refine ⟨last, ?_⟩
    rw [hindex]
    exact Machine.runFrom_cons_eq_some.mpr ⟨_, hnext, hlast⟩

theorem lt_of_passes {i j : ℕ} {square square' : ℚ} {draws : List Draw} (hi : i < 2 ^ 31)
    (h : (samplingLoop a).runFrom (.loop i square) draws = some (.loop j square')) :
    j < 2 ^ 31 := by
  have hinv := Machine.runFrom_invariant (M := samplingLoop a)
    (I := fun pc => ∀ i square, pc = .loop i square → i < 2 ^ 31) ?_ ?_ h
  · exact hinv j square' rfl
  · intro pc r next hpc hstep
    cases pc with
    | loop i square =>
      obtain ⟨⟨_, h31⟩, hstep⟩ := Option.ite_none_right_eq_some.mp hstep
      intro k q hk
      cases hstep
      cases hk
      exact h31
    | lock _ => cases hstep
    | load _ => cases hstep
    | store _ _ => cases hstep
    | unlock => cases hstep
    | finished => cases hstep
  · intro k q hk
    cases hk
    exact hi

theorem EndsAfter.lt {p : ℕ} (h : EndsAfter a p) : p < 2 ^ 31 := by
  obtain ⟨square, hrun⟩ := h.passes (List.replicate p (0, 0)) List.length_replicate.le
  rw [List.length_replicate] at hrun
  exact lt_of_passes (by norm_num) hrun

end Loop

theorem pointsNum_threadArgs {task : WorkerTask} (h : 0 ≤ task.numOfPoints.val) (nThreads k : ℕ) :
    (threadArgs task nThreads k).pointsNum = task.numOfPoints.val / nThreads :=
  truncate_intCast_div h nThreads

/-- Every thread's loop ends after its share of the points exactly when the counter can reach it. -/
theorem endsAfter_iff {task : WorkerTask} (h : 0 ≤ task.numOfPoints.val) (nThreads k : ℕ) :
    EndsAfter (threadArgs task nThreads k) (task.numOfPoints.val / nThreads).toNat ↔
      task.numOfPoints.val / nThreads < 2 ^ 31 := by
  have hpoints := pointsNum_threadArgs h nThreads k
  have hnonneg : 0 ≤ task.numOfPoints.val / nThreads := Int.ediv_nonneg h (Int.natCast_nonneg _)
  constructor
  · intro hends
    have hlt := hends.lt
    omega
  · intro hlt
    constructor
    · intro draws hlen
      obtain ⟨square, hrun⟩ := @exists_passes (threadArgs task nThreads k) 0 0 draws
        (by push_cast; omega) (by omega)
      rw [Nat.zero_add] at hrun
      exact ⟨square, hrun⟩
    · intro k' i square sh hi
      unfold threadStep
      dsimp only
      split_ifs with htest
      · exact iff_of_true rfl (by omega)
      · exact iff_of_false nofun (by omega)

/-- The eight threads of a worker that gets the whole main task draw 12500 points each. -/
theorem main_task_ends : EndsAfter (threadArgs mainTask.decoded 8 0) 12500 :=
  (@endsAfter_iff mainTask.decoded (by decide) 8 0).mpr (by decide)

/-- A task of 2 ^ 53 points. -/
def hugeTask : WorkerTask := ⟨0, 3, 0, 3, ⟨2 ^ 53, by norm_num, by norm_num⟩⟩

/-- Each of eight threads has 2 ^ 50 points to draw. -/
theorem huge_task_overflows :
    ¬ EndsAfter (threadArgs hugeTask 8 0) (hugeTask.numOfPoints.val / 8).toNat := by
  intro h
  exact absurd h.lt (by decide)

end OsTasks.Integral
