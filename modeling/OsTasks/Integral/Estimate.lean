import OsTasks.Integral.Threads
import OsTasks.Lib.Tiling

/-! The value `monte_carlo` returns: the plain estimate over all points the threads draw. -/
namespace OsTasks.Integral
open OsTasks.Lib

variable {task : WorkerTask} {nThreads p : ℕ} {s t : McState} {samples : List Sample}

theorem truncate_intCast_div {z : ℤ} (hz : 0 ≤ z) (n : ℕ) : truncate (z / n : ℚ) = z / n := by
  have hnonneg : (0 : ℚ) ≤ z / n := by
    have hcast : (0 : ℚ) ≤ z := by exact_mod_cast hz
    positivity
  unfold truncate
  rw [if_pos hnonneg, Rat.floor_intCast_div_natCast]

/-- How many steps a run has left. -/
def McState.left (nThreads p : ℕ) (s : McState) : ℕ :=
  (nThreads - s.created) * (p + 6) + ∑ k ∈ Finset.range s.created, (s.thread k).left p +
    (nThreads - s.joined)

theorem left_update_lt {k : ℕ} {pc : ThreadPc} {sh : Shared} (hk : k < s.created)
    (hpc : pc.left p < (s.thread k).left p) :
    McState.left nThreads p { s with thread := Function.update s.thread k pc, shared := sh } <
      s.left nThreads p := by
  have hsum : ∑ j ∈ Finset.range s.created, (Function.update s.thread k pc j).left p <
      ∑ j ∈ Finset.range s.created, (s.thread j).left p := by
    apply Finset.sum_lt_sum
    · intro j _
      by_cases hj : j = k
      · subst hj
        rw [Function.update_self]
        exact hpc.le
      · rw [Function.update_of_ne hj]
    · refine ⟨k, Finset.mem_range.mpr hk, ?_⟩
      rw [Function.update_self]
      exact hpc
  unfold McState.left
  dsimp only
  omega

theorem left_step (hp : truncate (task.numOfPoints.val / nThreads) = p) {a : McAction}
    (h : McInv task nThreads p s samples) (ht : mcStep task nThreads s a = some t) :
    t.left nThreads p < s.left nThreads p := by
  cases a with
  | main =>
    unfold mcStep at ht
    dsimp only at ht
    split_ifs at ht with hcreate hjoin
    · cases ht
      have hsum : ∑ k ∈ Finset.range (s.created + 1),
          (Function.update s.thread s.created (.loop 0 0) k).left p =
            ∑ k ∈ Finset.range s.created, (s.thread k).left p + (p + 5) := by
        rw [Finset.sum_range_succ, Function.update_self]
        congr 1
        apply Finset.sum_congr rfl
        intro k hk
        rw [Function.update_of_ne (Finset.mem_range.mp hk).ne]
      have hcount : nThreads - s.created = nThreads - (s.created + 1) + 1 := by omega
      have hthreads : (nThreads - s.created) * (p + 6) =
          (nThreads - (s.created + 1)) * (p + 6) + (p + 6) := by
        rw [hcount, Nat.succ_mul]
      unfold McState.left
      dsimp only
      rw [hsum, hthreads]
      omega
    · cases ht
      unfold McState.left
      dsimp only
      omega
  | sample k rx ry =>
    obtain ⟨hk, ht⟩ := Option.ite_none_right_eq_some.mp ht
    obtain ⟨pc, hpc, rfl⟩ := Option.map_eq_some_iff.mp ht
    have hless := (threadInv_sample (a := threadArgs task nThreads k) hp (h.thread k hk) hpc).2.1
    exact left_update_lt hk hless
  | run k =>
    obtain ⟨hk, ht⟩ := Option.ite_none_right_eq_some.mp ht
    obtain ⟨r, hr, rfl⟩ := Option.map_eq_some_iff.mp ht
    have hless := (threadInv_step rfl hp (h.thread k hk) hr).2.1
    exact left_update_lt hk hless

theorem mcInv_history_step (hp : truncate (task.numOfPoints.val / nThreads) = p)
    {u v : McState × List Sample} {a : McAction} (hu : McInv task nThreads p u.1 u.2)
    (hv : (monteCarlo task nThreads).step u a = some v) :
    McInv task nThreads p v.1 v.2 ∧ v.1.left nThreads p < u.1.left nThreads p := by
  obtain ⟨ht, hrec⟩ := Machine.withHistory_step_eq_some.mp hv
  rw [hrec]
  exact ⟨mcInv_step hp hu ht, left_step hp hu ht⟩

theorem mcInv_of_run (hp : truncate (task.numOfPoints.val / nThreads) = p) {as : List McAction}
    (hrun : (monteCarlo task nThreads).run as = some (s, samples)) :
    McInv task nThreads p s samples ∧ as.length ≤ nThreads * (p + 7) := by
  have hstart := mcInv_start task nThreads p
  constructor
  · exact Machine.runFrom_invariant (I := fun u => McInv task nThreads p u.1 u.2)
      (fun u a v hu hv => (mcInv_history_step hp hu hv).1) hstart hrun
  · have hlen := Machine.runFrom_length_le (I := fun u => McInv task nThreads p u.1 u.2)
      (μ := fun u => u.1.left nThreads p) (fun u a v hu hv => (mcInv_history_step hp hu hv).1)
      (fun u a v hu hv => (mcInv_history_step hp hu hv).2) hstart hrun
    have htotal : mcStart.left nThreads p = nThreads * (p + 7) := by
      unfold McState.left mcStart
      dsimp only
      rw [Finset.range_zero, Finset.sum_empty, Nat.sub_zero, Nat.add_zero]
      ring
    have hmeasure : as.length + s.left nThreads p ≤ mcStart.left nThreads p := hlen
    omega

theorem exists_thread_step (hp : truncate (task.numOfPoints.val / nThreads) = p)
    (h31 : p < 2 ^ 31) (h : McInv task nThreads p s samples) {k : ℕ} (hk : k < s.created)
    (hf : s.thread k ≠ .finished) (hfree : s.shared.holder = none ∨ s.shared.holder = some k) :
    ∃ a t, mcStep task nThreads s a = some t := by
  have hthread := h.thread k hk
  have hpn : (threadArgs task nThreads k).pointsNum = p := hp
  have hrun : ∀ r, threadStep (threadArgs task nThreads k) k (s.thread k) s.shared = some r →
      ∃ a t, mcStep task nThreads s a = some t := by
    intro r hr
    refine ⟨.run k, { s with thread := Function.update s.thread k r.1, shared := r.2 }, ?_⟩
    unfold mcStep
    dsimp only
    rw [if_pos hk, hr]
    rfl
  cases hpc : s.thread k with
  | loop i square =>
    rw [hpc] at hthread
    obtain ⟨hi, _, _, _⟩ := hthread
    by_cases hlt : i < p
    · have hguard : (i : ℤ) < (threadArgs task nThreads k).pointsNum ∧ i + 1 < 2 ^ 31 := by
        rw [hpn]
        omega
      have hpass : ∃ pc, sampleStep (threadArgs task nThreads k) (.loop i square) 0 0 = some pc :=
        ⟨_, if_pos hguard⟩
      obtain ⟨pc, hpass⟩ := hpass
      refine ⟨.sample k 0 0, { s with thread := Function.update s.thread k pc }, ?_⟩
      unfold mcStep
      dsimp only
      rw [if_pos hk, hpc]
      exact congrArg (Option.map _) hpass
    · apply hrun (.lock (scaled (threadArgs task nThreads k) square), s.shared)
      rw [hpc]
      exact if_pos (by omega)
  | lock square =>
    rw [hpc] at hthread
    obtain ⟨_, _, hh⟩ := hthread
    have hnone : s.shared.holder = none := hfree.resolve_right hh
    apply hrun (.load square, { s.shared with holder := some k })
    rw [hpc]
    exact if_pos hnone
  | load square => exact hrun _ (by rw [hpc]; rfl)
  | store square old => exact hrun _ (by rw [hpc]; rfl)
  | unlock => exact hrun _ (by rw [hpc]; rfl)
  | finished => exact absurd hpc hf

/-- `monte_carlo` is never stuck before it returns. -/
theorem exists_mcStep (hp : truncate (task.numOfPoints.val / nThreads) = p)
    (h31 : p < 2 ^ 31) (h : McInv task nThreads p s samples) (hret : ¬ s.Returned nThreads) :
    ∃ a t, mcStep task nThreads s a = some t := by
  have hjoined : s.joined ≠ nThreads := hret
  have hle := h.joined_le
  have hcreated := h.created_le
  by_cases hcreate : s.created < nThreads
  · exact ⟨.main, _, if_pos hcreate⟩
  have hlt : s.joined < s.created := by omega
  by_cases hf : s.thread s.joined = .finished
  · have hjoin : s.joined < nThreads ∧ s.thread s.joined = .finished := ⟨by omega, hf⟩
    refine ⟨.main, { s with joined := s.joined + 1 }, ?_⟩
    unfold mcStep
    dsimp only
    rw [if_neg hcreate, if_pos hjoin]
  cases hholder : s.shared.holder with
  | none => exact exists_thread_step hp h31 h hlt hf (Or.inl hholder)
  | some k =>
    have hk := h.holder k hholder
    refine exists_thread_step hp h31 h hk ?_ (Or.inr hholder)
    intro hkf
    have hthread := h.thread k hk
    rw [hkf] at hthread
    exact hthread.2 hholder

/-- When `monte_carlo` returns, every thread has drawn its points and added its part. -/
theorem McInv.returned (h : McInv task nThreads p s samples) (hret : s.Returned nThreads) :
    s.stored = Finset.range nThreads ∧ (∀ k < nThreads, drawn samples k = p) ∧
      ∀ q ∈ samples, q.thread < nThreads := by
  have hjoined : s.joined = nThreads := hret
  have hcreated : s.created = nThreads :=
    le_antisymm h.created_le (hjoined ▸ h.joined_le)
  have hfinished : ∀ k < nThreads, s.thread k = .finished := by
    intro k hk
    exact h.joined k (hjoined ▸ hk)
  refine ⟨?_, ?_, ?_⟩
  · ext k
    rw [mem_stored, Finset.mem_range, hcreated]
    constructor
    · exact fun hk => hk.1
    · intro hk
      rw [hfinished k hk]
      exact ⟨hk, trivial⟩
  · intro k hk
    have hthread := h.thread k (hcreated ▸ hk)
    rw [hfinished k hk] at hthread
    exact hthread.1
  · intro q hq
    rw [← hcreated]
    exact h.fresh q hq

theorem sum_countP_thread {P : Sample → Prop} [DecidablePred P] {n : ℕ}
    (h : ∀ q ∈ samples, q.thread < n) :
    ∑ k ∈ Finset.range n, samples.countP (fun q => q.thread = k ∧ P q) =
      samples.countP fun q => P q := by
  induction samples with
  | nil => simp
  | cons q l ih =>
    have hq : q.thread ∈ Finset.range n := Finset.mem_range.mpr (h q List.mem_cons_self)
    have hone : ∑ k ∈ Finset.range n, (if q.thread = k ∧ P q then 1 else 0) =
        if P q then 1 else 0 := by
      by_cases hp : P q
      · simp only [hp, and_true, if_true, Finset.sum_ite_eq, if_pos hq]
      · simp only [hp, and_false, if_false, Finset.sum_const_zero]
    simp only [List.countP_cons, decide_eq_true_eq]
    rw [Finset.sum_add_distrib, ih fun r hr => h r (List.mem_cons_of_mem _ hr), hone]

theorem hits_le_drawn (samples : List Sample) (k : ℕ) : hits samples k ≤ drawn samples k := by
  apply List.countP_mono_left
  intro q _ hq
  simp only [decide_eq_true_eq] at hq ⊢
  exact hq.1

theorem width_threadArgs (task : WorkerTask) (nThreads k : ℕ) :
    (threadArgs task nThreads k).x2 - (threadArgs task nThreads k).x1 =
      (task.x2 - task.x1) / nThreads := by
  unfold threadArgs
  ring

theorem tiles_threadArgs (task : WorkerTask) (hn : 1 ≤ nThreads) :
    Tiles task.x1 task.x2 ((List.range nThreads).map fun k =>
      ((threadArgs task nThreads k).x1, (threadArgs task nThreads k).x2)) := by
  have hpos : (nThreads : ℚ) ≠ 0 := by
    have hne : nThreads ≠ 0 := by omega
    exact_mod_cast hne
  have htiles := tiles_range (fun k : ℕ => (task.x2 - task.x1) / nThreads * k + task.x1) nThreads
  have hfirst : (task.x2 - task.x1) / nThreads * ((0 : ℕ) : ℚ) + task.x1 = task.x1 := by
    rw [Nat.cast_zero, mul_zero, zero_add]
  have hlast : (task.x2 - task.x1) / nThreads * (nThreads : ℚ) + task.x1 = task.x2 := by
    rw [div_mul_cancel₀ _ hpos, sub_add_cancel]
  rw [hfirst, hlast] at htiles
  simpa only [threadArgs, Nat.cast_add, Nat.cast_one] using htiles

theorem sampled_mem {lo hi : ℚ} (h : lo ≤ hi) (r : Fin (randMax + 1)) :
    lo ≤ sampled lo hi r ∧ sampled lo hi r ≤ hi := by
  have hpos : (0 : ℚ) < randMax := by
    unfold randMax
    norm_num
  have hr : ((r : ℕ) : ℚ) ≤ randMax := by exact_mod_cast Nat.lt_succ_iff.mp r.isLt
  have hlow : (0 : ℚ) ≤ (r : ℕ) / randMax := by positivity
  have hhigh : ((r : ℕ) : ℚ) / randMax ≤ 1 := (div_le_one hpos).mpr hr
  have hwidth : 0 ≤ hi - lo := sub_nonneg.mpr h
  unfold sampled
  constructor
  · have hstep : 0 ≤ ((r : ℕ) : ℚ) / randMax * (hi - lo) := mul_nonneg hlow hwidth
    linarith
  · have hstep : ((r : ℕ) : ℚ) / randMax * (hi - lo) ≤ 1 * (hi - lo) :=
      mul_le_mul_of_nonneg_right hhigh hwidth
    linarith

/-- Every point is drawn in the slab of its thread. -/
theorem inSlab_of_run (hx : task.x1 ≤ task.x2) (hy : task.y1 ≤ task.y2) {as : List McAction}
    (hrun : (monteCarlo task nThreads).run as = some (s, samples)) :
    ∀ q ∈ samples, q.InSlab task nThreads := by
  have hslab : ∀ k, (threadArgs task nThreads k).x1 ≤ (threadArgs task nThreads k).x2 := by
    intro k
    have hwidth := width_threadArgs task nThreads k
    have hnonneg : 0 ≤ (task.x2 - task.x1) / nThreads :=
      div_nonneg (sub_nonneg.mpr hx) (Nat.cast_nonneg _)
    linarith
  apply Machine.Reachable.invariant_withHistory (I := fun _ samples =>
    ∀ q ∈ samples, Sample.InSlab task nThreads q) (fun q hq => absurd hq List.not_mem_nil) _
    ⟨as, hrun⟩
  intro s samples a t _ hsamples ht q hq
  cases a with
  | main => exact hsamples q hq
  | run k => exact hsamples q hq
  | sample k rx ry =>
    rcases List.mem_cons.mp hq with rfl | hq
    · exact ⟨sampled_mem (hslab k) rx, sampled_mem hy ry⟩
    · exact hsamples q hq

/-- The sum of the threads' parts is the plain estimate. -/
theorem sum_contribution (hn : 1 ≤ nThreads) (hp : 1 ≤ p)
    (hthread : ∀ q ∈ samples, q.thread < nThreads) :
    ∑ k ∈ Finset.range nThreads, contribution task nThreads p samples k =
      (task.x2 - task.x1) * (task.y2 - task.y1) * samples.countP (fun q => q.Hit) /
        (nThreads * p) := by
  have hnpos : (nThreads : ℚ) ≠ 0 := by
    have hne : nThreads ≠ 0 := by omega
    exact_mod_cast hne
  have hppos : (p : ℚ) ≠ 0 := by
    have hne : p ≠ 0 := by omega
    exact_mod_cast hne
  have hhits : ∑ k ∈ Finset.range nThreads, (hits samples k : ℚ) =
      samples.countP fun q => q.Hit := by
    exact_mod_cast sum_countP_thread (P := Sample.Hit) hthread
  have hpart : ∀ k, contribution task nThreads p samples k =
      hits samples k * ((task.x2 - task.x1) * (task.y2 - task.y1) / (nThreads * p)) := by
    intro k
    have hheight : (threadArgs task nThreads k).y2 - (threadArgs task nThreads k).y1 =
        task.y2 - task.y1 := rfl
    unfold contribution
    dsimp only
    rw [width_threadArgs, hheight]
    field_simp
  rw [Finset.sum_congr rfl fun k _ => hpart k, ← Finset.sum_mul, hhits]
  ring

theorem length_of_drawn (hdrawn : ∀ k < nThreads, drawn samples k = p)
    (hthread : ∀ q ∈ samples, q.thread < nThreads) : samples.length = nThreads * p := by
  have hsum := sum_countP_thread (P := fun _ => True) hthread
  simp only [and_true, decide_true, List.countP_true] at hsum
  rw [← hsum]
  calc ∑ k ∈ Finset.range nThreads, drawn samples k
      = ∑ _k ∈ Finset.range nThreads, p := by
        apply Finset.sum_congr rfl
        intro k hk
        exact hdrawn k (Finset.mem_range.mp hk)
    _ = nThreads * p := by rw [Finset.sum_const, Finset.card_range, smul_eq_mul]

theorem countP_hit_le (hthread : ∀ q ∈ samples, q.thread < nThreads)
    (hdrawn : ∀ k < nThreads, drawn samples k = p) :
    samples.countP (fun q => q.Hit) ≤ nThreads * p := by
  have hsum : ∑ k ∈ Finset.range nThreads, hits samples k = samples.countP fun q => q.Hit :=
    sum_countP_thread hthread
  rw [← hsum]
  calc ∑ k ∈ Finset.range nThreads, hits samples k
      ≤ ∑ _k ∈ Finset.range nThreads, p := by
        apply Finset.sum_le_sum
        intro k hk
        rw [← hdrawn k (Finset.mem_range.mp hk)]
        exact hits_le_drawn samples k
    _ = nThreads * p := by rw [Finset.sum_const, Finset.card_range, smul_eq_mul]

/-- However the threads are interleaved, every run of `monte_carlo` is short and can go on until it
returns the plain estimate over the points drawn, `p` by each thread. -/
theorem monte_carlo_plain_estimate (hn : 1 ≤ nThreads) (hx : task.x1 ≤ task.x2)
    (hy : task.y1 ≤ task.y2) (hp : task.numOfPoints.val / nThreads = p) (h1 : 1 ≤ p)
    (h31 : p < 2 ^ 31) {as : List McAction}
    (hrun : (monteCarlo task nThreads).run as = some (s, samples)) :
    Tiles task.x1 task.x2 ((List.range nThreads).map fun k =>
        ((threadArgs task nThreads k).x1, (threadArgs task nThreads k).x2)) ∧
      (∀ q ∈ samples, q.thread < nThreads ∧ q.InSlab task nThreads) ∧
      as.length ≤ nThreads * (p + 7) ∧
      (¬ s.Returned nThreads → ∃ a r, (monteCarlo task nThreads).step (s, samples) a = some r) ∧
      (s.Returned nThreads →
        (∀ k < nThreads, drawn samples k = p) ∧ samples.length = nThreads * p ∧
        ∃ v, s.shared.resSquare = some v ∧
          v = (task.x2 - task.x1) * (task.y2 - task.y1) * samples.countP (fun q => q.Hit) /
            (nThreads * p) ∧
          0 ≤ v ∧ v ≤ (task.x2 - task.x1) * (task.y2 - task.y1)) := by
  have hpoints : 0 ≤ task.numOfPoints.val := by
    by_contra hneg
    have hquot : task.numOfPoints.val / nThreads < 0 :=
      Int.ediv_neg_of_neg_of_pos (not_le.mp hneg) (by exact_mod_cast hn)
    omega
  have htrunc : truncate (task.numOfPoints.val / nThreads) = p := by
    rw [truncate_intCast_div hpoints, hp]
  obtain ⟨hinv, hlen⟩ := mcInv_of_run htrunc hrun
  have hslab := inSlab_of_run hx hy hrun
  refine ⟨tiles_threadArgs task hn, ?_, hlen, ?_, ?_⟩
  · intro q hq
    exact ⟨(hinv.fresh q hq).trans_le hinv.created_le, hslab q hq⟩
  · intro hret
    obtain ⟨a, t, ht⟩ := exists_mcStep htrunc h31 hinv hret
    exact ⟨a, (t, _), Machine.withHistory_step_eq_some.mpr ⟨ht, rfl⟩⟩
  · intro hret
    obtain ⟨hstored, hdrawn, hthread⟩ := hinv.returned hret
    have hsum := hinv.sum
    unfold storedSum at hsum
    rw [if_neg (fun h => by omega), hstored, sum_contribution hn h1 hthread] at hsum
    refine ⟨hdrawn, length_of_drawn hdrawn hthread, _, hsum, rfl, ?_, ?_⟩
    · have hwidth : 0 ≤ task.x2 - task.x1 := sub_nonneg.mpr hx
      have hheight : 0 ≤ task.y2 - task.y1 := sub_nonneg.mpr hy
      positivity
    · have harea : 0 ≤ (task.x2 - task.x1) * (task.y2 - task.y1) :=
        mul_nonneg (sub_nonneg.mpr hx) (sub_nonneg.mpr hy)
      have hcount : ((samples.countP fun q => q.Hit : ℕ) : ℚ) ≤ nThreads * p := by
        exact_mod_cast countP_hit_le hthread hdrawn
      have hpos : (0 : ℚ) < nThreads * p := by
        have hnat : 0 < nThreads * p := Nat.mul_pos hn h1
        exact_mod_cast hnat
      rw [div_le_iff₀ hpos]
      exact mul_le_mul_of_nonneg_left hcount harea

/-- Two points in the square from 0 to 2. -/
def twoPoints : WorkerTask := ⟨0, 2, 0, 2, ⟨2, by decide, by decide⟩⟩

/-- Both threads draw before either adds; the second adds first. -/
def twoThreads : List McAction :=
  [.main, .main, .sample 0 0 (Fin.last randMax), .sample 1 0 0,
    .run 1, .run 1, .run 0, .run 1, .run 1, .run 1,
    .run 0, .run 0, .run 0, .run 0, .main, .main]

theorem two_threads_estimate :
    ∃ s samples, (monteCarlo twoPoints 2).run twoThreads = some (s, samples) ∧
      drawn samples 1 = 1 ∧ samples.length = 2 ∧ s.shared.resSquare = some 2 := by
  have hfinal : ((monteCarlo twoPoints 2).run twoThreads).map
      (fun r => (r.1.joined, r.2.countP fun q => q.Hit)) = some (2, 1) := by decide +kernel
  obtain ⟨⟨s, samples⟩, hrun, hproj⟩ := Option.map_eq_some_iff.mp hfinal
  obtain ⟨hjoined, hcount⟩ := Prod.mk.inj hproj
  obtain ⟨_, _, _, _, hret⟩ := monte_carlo_plain_estimate (p := 1) (by decide) (by decide)
    (by decide) (by decide) le_rfl (by decide) hrun
  obtain ⟨hdrawn, hlength, v, hres, hv, _⟩ := hret hjoined
  have htwo : v = 2 := by
    rw [hv, hcount]
    decide +kernel
  exact ⟨s, samples, hrun, hdrawn 1 (by decide), hlength, htwo ▸ hres⟩

end OsTasks.Integral
