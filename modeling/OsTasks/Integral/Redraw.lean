import OsTasks.Integral.Sampling

/-! The threads of `monte_carlo` with other values of `rand_r`: what is drawn decides the result,
and nothing about which statements are executed and in which order. -/
namespace OsTasks.Integral
open OsTasks.Lib

/-- The threads that draw in a run, in order. -/
def drawers : List McAction → List ℕ
  | [] => []
  | .main :: as => drawers as
  | .run _ :: as => drawers as
  | .sample k _ _ :: as => k :: drawers as

@[simp] theorem drawers_sample (k : ℕ) (rx ry : Fin (randMax + 1)) (as : List McAction) :
    drawers (.sample k rx ry :: as) = k :: drawers as := rfl

/-- The run with these values. -/
def redraw : List McAction → List Draw → List McAction
  | [], _ => []
  | .main :: as, qs => .main :: redraw as qs
  | .run k :: as, qs => .run k :: redraw as qs
  | .sample k rx ry :: as, qs =>
    let q := qs.headD (rx, ry)
    .sample k q.1 q.2 :: redraw as qs.tail

/-- The same statement, with other values. -/
inductive SamePlace : ThreadPc → ThreadPc → Prop
  | loop (i : ℕ) (square square' : ℚ) : SamePlace (.loop i square) (.loop i square')
  | lock (square square' : Option ℚ) : SamePlace (.lock square) (.lock square')
  | load (square square' : Option ℚ) : SamePlace (.load square) (.load square')
  | store (square square' old old' : Option ℚ) : SamePlace (.store square old) (.store square' old')
  | unlock : SamePlace .unlock .unlock
  | finished : SamePlace .finished .finished

structure SamePlaces (s t : McState) : Prop where
  created : s.created = t.created
  joined : s.joined = t.joined
  thread : ∀ k, SamePlace (s.thread k) (t.thread k)
  holder : s.shared.holder = t.shared.holder

theorem SamePlace.refl (pc : ThreadPc) : SamePlace pc pc := by
  cases pc <;> constructor

theorem SamePlaces.refl (s : McState) : SamePlaces s s :=
  ⟨rfl, rfl, fun _ => .refl _, rfl⟩

section Step
variable {a : Args} {pc pd pc' : ThreadPc}

theorem SamePlace.eq_finished (h : SamePlace .finished pd) : pd = .finished := by
  cases h
  rfl

theorem SamePlace.sampleStep {rx ry : ℕ} (h : SamePlace pc pd)
    (hstep : sampleStep a pc rx ry = some pc') (rx' ry' : ℕ) :
    ∃ pd', Integral.sampleStep a pd rx' ry' = some pd' ∧ SamePlace pc' pd' := by
  cases h with
  | loop i square square' =>
    obtain ⟨hguard, hstep⟩ := Option.ite_none_right_eq_some.mp hstep
    cases hstep
    exact ⟨_, if_pos hguard, .loop _ _ _⟩
  | lock => cases hstep
  | load => cases hstep
  | store => cases hstep
  | unlock => cases hstep
  | finished => cases hstep

theorem SamePlace.threadStep {k : ℕ} {sh sh' shd : Shared} (h : SamePlace pc pd)
    (hholder : sh.holder = shd.holder) (hstep : threadStep a k pc sh = some (pc', sh')) :
    ∃ pd' shd', Integral.threadStep a k pd shd = some (pd', shd') ∧ SamePlace pc' pd' ∧
      sh'.holder = shd'.holder := by
  cases h with
  | loop i square square' =>
    obtain ⟨hguard, hstep⟩ := Option.ite_none_right_eq_some.mp hstep
    cases hstep
    exact ⟨_, _, if_pos hguard, .lock _ _, hholder⟩
  | lock square square' =>
    obtain ⟨hguard, hstep⟩ := Option.ite_none_right_eq_some.mp hstep
    cases hstep
    exact ⟨_, _, if_pos (hholder ▸ hguard), .load _ _, rfl⟩
  | load =>
    cases hstep
    exact ⟨_, _, rfl, .store _ _ _ _, hholder⟩
  | store =>
    cases hstep
    exact ⟨_, _, rfl, .unlock, hholder⟩
  | unlock =>
    cases hstep
    exact ⟨_, _, rfl, .finished, rfl⟩
  | finished => cases hstep

end Step

section Run
variable (task : WorkerTask) (nThreads : ℕ)

/-- The point that a thread draws. -/
def pointDrawn (k : ℕ) (q : Draw) : Sample :=
  let args := threadArgs task nThreads k
  ⟨k, sampled args.x1 args.x2 q.1, sampled args.y1 args.y2 q.2⟩

variable {task nThreads} {s t s' : McState}

theorem threadArgs_mem (hx : task.x1 ≤ task.x2) {k : ℕ} (hk : k < nThreads) :
    task.x1 ≤ (threadArgs task nThreads k).x1 ∧
      (threadArgs task nThreads k).x1 ≤ (threadArgs task nThreads k).x2 ∧
      (threadArgs task nThreads k).x2 ≤ task.x2 := by
  have hn : (0 : ℚ) < nThreads := by
    have hpos : 0 < nThreads := by omega
    exact_mod_cast hpos
  have hstep : 0 ≤ (task.x2 - task.x1) / nThreads := div_nonneg (sub_nonneg.mpr hx) hn.le
  have hlast : (k : ℚ) + 1 ≤ nThreads := by exact_mod_cast hk
  have hwidth := width_threadArgs task nThreads k
  have htop : (task.x2 - task.x1) / nThreads * (k + 1) ≤ task.x2 - task.x1 := by
    have hle := mul_le_mul_of_nonneg_left hlast hstep
    rwa [div_mul_cancel₀ _ hn.ne'] at hle
  have hbottom : 0 ≤ (task.x2 - task.x1) / nThreads * (k : ℚ) :=
    mul_nonneg hstep (Nat.cast_nonneg k)
  refine ⟨?_, by linarith, ?_⟩
  · change task.x1 ≤ (task.x2 - task.x1) / nThreads * k + task.x1
    linarith
  · change (task.x2 - task.x1) / nThreads * (k + 1) + task.x1 ≤ task.x2
    linarith

theorem SamePlaces.update (h : SamePlaces s s') (k : ℕ) {pc pd : ThreadPc} {sh shd : Shared}
    (hpc : SamePlace pc pd) (hholder : sh.holder = shd.holder) :
    SamePlaces { s with thread := Function.update s.thread k pc, shared := sh }
      { s' with thread := Function.update s'.thread k pd, shared := shd } := by
  refine ⟨h.created, h.joined, ?_, hholder⟩
  intro j
  dsimp only
  by_cases hj : j = k
  · rw [hj, Function.update_self, Function.update_self]
    exact hpc
  · rw [Function.update_of_ne hj, Function.update_of_ne hj]
    exact h.thread j

theorem SamePlaces.main (h : SamePlaces s s') (ht : mcStep task nThreads s .main = some t) :
    ∃ t', mcStep task nThreads s' .main = some t' ∧ SamePlaces t t' := by
  unfold mcStep at ht
  dsimp only at ht
  split_ifs at ht with hcreate hjoin
  · cases ht
    refine ⟨_, if_pos (h.created ▸ hcreate), ?_⟩
    have hnew := h.update s.created (SamePlace.refl (.loop 0 0)) h.holder
    rw [h.created] at hnew ⊢
    exact ⟨rfl, hnew.joined, hnew.thread, hnew.holder⟩
  · cases ht
    have hfinished : s'.thread s'.joined = .finished := by
      have hplace := h.thread s.joined
      rw [hjoin.2, h.joined] at hplace
      exact hplace.eq_finished
    have hjoin' : s'.joined < nThreads ∧ s'.thread s'.joined = .finished :=
      ⟨h.joined ▸ hjoin.1, hfinished⟩
    refine ⟨{ s' with joined := s'.joined + 1 }, ?_, ?_⟩
    · unfold mcStep
      dsimp only
      rw [if_neg (h.created ▸ hcreate), if_pos hjoin']
    · exact ⟨h.created, congrArg (· + 1) h.joined, h.thread, h.holder⟩

theorem SamePlaces.sample (h : SamePlaces s s') {k : ℕ} {rx ry : Fin (randMax + 1)}
    (ht : mcStep task nThreads s (.sample k rx ry) = some t) (rx' ry' : Fin (randMax + 1)) :
    ∃ t', mcStep task nThreads s' (.sample k rx' ry') = some t' ∧ SamePlaces t t' := by
  obtain ⟨hk, ht⟩ := Option.ite_none_right_eq_some.mp ht
  obtain ⟨pc, hpc, rfl⟩ := Option.map_eq_some_iff.mp ht
  obtain ⟨pd, hpd, hplace⟩ := (h.thread k).sampleStep hpc rx' ry'
  have hk' : k < s'.created := h.created ▸ hk
  refine ⟨_, (if_pos hk').trans (congrArg _ hpd), ?_⟩
  exact h.update k hplace h.holder

theorem SamePlaces.run (h : SamePlaces s s') {k : ℕ}
    (ht : mcStep task nThreads s (.run k) = some t) :
    ∃ t', mcStep task nThreads s' (.run k) = some t' ∧ SamePlaces t t' := by
  obtain ⟨hk, ht⟩ := Option.ite_none_right_eq_some.mp ht
  obtain ⟨⟨pc, sh⟩, hpc, rfl⟩ := Option.map_eq_some_iff.mp ht
  obtain ⟨pd, shd, hpd, hplace, hholder⟩ := (h.thread k).threadStep h.holder hpc
  have hk' : k < s'.created := h.created ▸ hk
  refine ⟨_, (if_pos hk').trans (congrArg _ hpd), ?_⟩
  exact h.update k hplace hholder

/-- Whatever is drawn instead, the run goes the same way, and its points are those of the new
values. -/
theorem exists_redraw_run {as : List McAction} {l l' : List Sample} {qs : List Draw}
    (hrun : (monteCarlo task nThreads).runFrom (s, l) as = some (t, l'))
    (h : SamePlaces s s') (hlen : qs.length = (drawers as).length) (m : List Sample) :
    ∃ t', (monteCarlo task nThreads).runFrom (s', m) (redraw as qs) =
        some (t', (List.zipWith (pointDrawn task nThreads) (drawers as) qs).reverse ++ m) ∧
      SamePlaces t t' := by
  induction as generalizing s s' l m qs with
  | nil =>
    cases hrun
    exact ⟨s', rfl, h⟩
  | cons a as ih =>
    obtain ⟨⟨u, lu⟩, hu, hrest⟩ := Machine.runFrom_cons_eq_some.mp hrun
    obtain ⟨hstep, _⟩ := Machine.withHistory_step_eq_some.mp hu
    cases a with
    | main =>
      obtain ⟨u', hu', hplaces⟩ : ∃ u', mcStep task nThreads s' .main = some u' ∧
          SamePlaces u u' := h.main hstep
      obtain ⟨t', ht', hlast⟩ := ih hrest hplaces hlen m
      refine ⟨t', ?_, hlast⟩
      exact Machine.runFrom_cons_eq_some.mpr
        ⟨(u', m), Machine.withHistory_step_eq_some.mpr ⟨hu', rfl⟩, ht'⟩
    | run k =>
      obtain ⟨u', hu', hplaces⟩ := h.run hstep
      obtain ⟨t', ht', hlast⟩ := ih hrest hplaces hlen m
      refine ⟨t', ?_, hlast⟩
      exact Machine.runFrom_cons_eq_some.mpr
        ⟨(u', m), Machine.withHistory_step_eq_some.mpr ⟨hu', rfl⟩, ht'⟩
    | sample k rx ry =>
      cases qs with
      | nil => cases hlen
      | cons q qs =>
        obtain ⟨u', hu', hplaces⟩ := h.sample hstep q.1 q.2
        obtain ⟨t', ht', hlast⟩ := ih hrest hplaces (Nat.succ.inj hlen)
          (pointDrawn task nThreads k q :: m)
        have hpoints : (List.zipWith (pointDrawn task nThreads) (drawers (.sample k rx ry :: as))
            (q :: qs)).reverse ++ m =
              (List.zipWith (pointDrawn task nThreads) (drawers as) qs).reverse ++
                pointDrawn task nThreads k q :: m := by
          rw [drawers_sample, List.zipWith_cons_cons, List.reverse_cons,
            List.append_assoc, List.singleton_append]
        rw [hpoints]
        refine ⟨t', ?_, hlast⟩
        exact Machine.runFrom_cons_eq_some.mpr
          ⟨(u', _), Machine.withHistory_step_eq_some.mpr ⟨hu', rfl⟩, ht'⟩

/-- The result with other values of `rand_r`. -/
theorem redraw_returned {p : ℕ} {as : List McAction} {samples : List Sample}
    (hn : 1 ≤ nThreads) (hp : truncate (task.numOfPoints.val / nThreads) = p) (h1 : 1 ≤ p)
    (hrun : (monteCarlo task nThreads).run as = some (s, samples))
    (hret : s.Returned nThreads) {qs : List Draw} (hlen : qs.length = (drawers as).length) :
    ∃ s' samples', (monteCarlo task nThreads).run (redraw as qs) = some (s', samples') ∧
      s'.Returned nThreads ∧
      samples' = (List.zipWith (pointDrawn task nThreads) (drawers as) qs).reverse ∧
      (∀ k < nThreads, drawn samples' k = p) ∧ (∀ q ∈ samples', q.thread < nThreads) ∧
      s'.shared.resSquare = some ((task.x2 - task.x1) * (task.y2 - task.y1) *
        samples'.countP (fun q => q.Hit) / (nThreads * p)) := by
  obtain ⟨s', hrun', hplaces⟩ := exists_redraw_run hrun (SamePlaces.refl _) hlen []
  rw [List.append_nil] at hrun'
  have hret' : s'.Returned nThreads := hplaces.joined.symm.trans hret
  obtain ⟨hinv, _⟩ := mcInv_of_run hp hrun'
  obtain ⟨hstored, hdrawn, hthread⟩ := hinv.returned hret'
  have hsum := hinv.sum
  unfold storedSum at hsum
  rw [if_neg (fun h => by omega), hstored, sum_contribution hn h1 hthread] at hsum
  exact ⟨s', _, hrun', hret', rfl, hdrawn, hthread, hsum⟩

end Run

end OsTasks.Integral
