import OsTasks.FileServer.Pool

/-! What the steps of the file server's pool do. Every step leaves less to do, and a pool that cannot
step has finished every job. -/
namespace OsTasks.FileServer
open OsTasks.Lib

variable {w : World} {reqs : List Request}

theorem bufSize_pos : 0 < bufSize := by decide

@[simp] theorem setJob_job (s : PoolState) (j : ℕ) (pc : JobPc) (k : ℕ) :
    (s.setJob j pc).job k = if k = j then pc else s.job k := by
  simp only [PoolState.setJob, Function.update_apply]

theorem setJob_self (s : PoolState) (j : ℕ) (pc : JobPc) : (s.setJob j pc).job j = pc := by
  rw [setJob_job, if_pos rfl]

@[simp] theorem setJob_stream (s : PoolState) (j : ℕ) (pc : JobPc) :
    (s.setJob j pc).stream = s.stream := rfl

@[simp] theorem setJob_dispatched (s : PoolState) (j : ℕ) (pc : JobPc) :
    (s.setJob j pc).dispatched = s.dispatched := rfl

@[simp] theorem setJob_setJob (s : PoolState) (j : ℕ) (pc pc' : JobPc) :
    (s.setJob j pc).setJob j pc' = s.setJob j pc' := by
  simp only [PoolState.setJob, Function.update_idem]

theorem poolStep_cases {s t : PoolState} {a : PoolAction} (h : poolStep w reqs s a = some t) :
    s.aborted = false ∧
      ((a = .dispatch ∧ s.dispatched < reqs.length ∧
          t = { s.setJob s.dispatched .queued with dispatched := s.dispatched + 1 }) ∨
        (∃ j, a = .take j ∧ s.job j = .queued ∧ t = s.setJob j (.running .openDest)) ∨
        ∃ j r pc, a = .send j ∧ s.job j = .running pc ∧ reqs[j]? = some r ∧
          t = sendFile w s j r pc) := by
  unfold poolStep at h
  by_cases hab : s.aborted = true
  · rw [if_pos hab] at h
    cases h
  rw [if_neg hab] at h
  refine ⟨by simpa using hab, ?_⟩
  cases a with
  | dispatch =>
    obtain ⟨hd, h⟩ := Option.ite_none_right_eq_some.mp h
    exact Or.inl ⟨rfl, hd, (Option.some.inj h).symm⟩
  | take j =>
    obtain ⟨hq, h⟩ := Option.ite_none_right_eq_some.mp h
    exact Or.inr (Or.inl ⟨j, rfl, hq.1, (Option.some.inj h).symm⟩)
  | send j =>
    dsimp only at h
    split at h
    · rename_i pc r hj hr
      exact Or.inr (Or.inr ⟨j, r, pc, rfl, hj, hr, (Option.some.inj h).symm⟩)
    · cases h

theorem sendFile_cases (w : World) (s : PoolState) (j : ℕ) (r : Request) (pc : SendPc) :
    (sendFile w s j r pc = { s with aborted := true } ∧
        (w.opens r.destFileName = false ∨ w.file r.fileName = none)) ∨
      (∃ pc', sendFile w s j r pc = s.setJob j (.running pc') ∧ (∀ rest, pc ≠ .copy rest) ∧
        ∀ rest, pc' = .copy rest → w.file r.fileName = some rest) ∨
      (pc = .copy [] ∧ sendFile w s j r pc = s.setJob j .finished) ∨
      ∃ rest, rest ≠ [] ∧ pc = .copy rest ∧ sendFile w s j r pc =
        { s.setJob j (.running (.copy (rest.drop bufSize))) with
          stream := Function.update s.stream r.destFileName
            (s.stream r.destFileName ++ [(j, rest.take bufSize)]) } := by
  cases pc with
  | openDest =>
    cases ho : w.opens r.destFileName with
    | true => exact Or.inr (Or.inl ⟨.openFile, by simp [sendFile, ho], nofun, nofun⟩)
    | false => exact Or.inl ⟨by simp [sendFile, ho], Or.inl rfl⟩
  | openFile =>
    cases hf : w.file r.fileName with
    | none => exact Or.inl ⟨by simp [sendFile, hf], Or.inr rfl⟩
    | some c =>
      refine Or.inr (Or.inl ⟨.copy c, by simp [sendFile, hf], nofun, ?_⟩)
      intro rest h
      cases h
      rfl
  | copy rest =>
    cases rest with
    | nil => exact Or.inr (Or.inr (Or.inl ⟨rfl, rfl⟩))
    | cons b bs => exact Or.inr (Or.inr (Or.inr ⟨b :: bs, List.cons_ne_nil _ _, rfl, rfl⟩))

theorem poolStep_send {s : PoolState} (hab : s.aborted = false) {j : ℕ} {r : Request}
    (hr : reqs[j]? = some r) {pc : SendPc} (hj : s.job j = .running pc) :
    poolStep w reqs s (.send j) = some (sendFile w s j r pc) := by
  simp only [poolStep, hab, Bool.false_eq_true, if_false, hj, hr]

theorem reachable_step {s t : PoolState} {a : PoolAction} (hs : (pool w reqs).Reachable s)
    (ht : poolStep w reqs s a = some t) : (pool w reqs).Reachable t :=
  Machine.Reachable.step hs ht

theorem stream_isPrefix {s t : PoolState} {a : PoolAction} (ht : poolStep w reqs s a = some t)
    (rx : Name) : s.stream rx <+: t.stream rx := by
  obtain ⟨-, ⟨-, hd, rfl⟩ | ⟨j, -, hj, rfl⟩ | ⟨j, r, pc, -, hj, hr, rfl⟩⟩ := poolStep_cases ht
  · exact List.prefix_rfl
  · exact List.prefix_rfl
  · rcases sendFile_cases w s j r pc with
      ⟨he, -⟩ | ⟨pc', he, -⟩ | ⟨-, he⟩ | ⟨rest, -, -, he⟩
    · simp only [he, List.prefix_rfl]
    · simp only [he, setJob_stream, List.prefix_rfl]
    · simp only [he, setJob_stream, List.prefix_rfl]
    · simp only [he]
      by_cases hrx : rx = r.destFileName
      · subst hrx
        rw [Function.update_self]
        exact List.prefix_append _ _
      · rw [Function.update_of_ne hrx]

/-- Jobs wait until they are dispatched, and no longer. -/
structure Wf (reqs : List Request) (s : PoolState) : Prop where
  le : s.dispatched ≤ reqs.length
  waiting : ∀ j, s.job j = .waiting ↔ s.dispatched ≤ j

theorem wf_init : Wf reqs (pool w reqs).init :=
  ⟨Nat.zero_le _, fun _ => iff_of_true rfl (Nat.zero_le _)⟩

theorem Wf.setJob {s : PoolState} (h : Wf reqs s) {j : ℕ} (hj : s.job j ≠ .waiting) (pc : JobPc)
    (hpc : pc ≠ .waiting) : Wf reqs (s.setJob j pc) := by
  refine ⟨h.le, fun k => ?_⟩
  rw [setJob_job]
  split_ifs with hk
  · rw [setJob_dispatched, ← h.waiting, hk]
    exact iff_of_false hpc hj
  · exact h.waiting k

theorem Wf.step {s t : PoolState} {a : PoolAction} (h : Wf reqs s)
    (ht : poolStep w reqs s a = some t) : Wf reqs t := by
  obtain ⟨-, ⟨-, hd, rfl⟩ | ⟨j, -, hj, rfl⟩ | ⟨j, r, pc, -, hj, -, rfl⟩⟩ := poolStep_cases ht
  · refine ⟨hd, fun k => ?_⟩
    change (s.setJob s.dispatched .queued).job k = .waiting ↔ s.dispatched + 1 ≤ k
    rw [setJob_job]
    split_ifs with hk
    · exact iff_of_false nofun (by omega)
    · rw [h.waiting]
      omega
  · exact h.setJob (by rw [hj]; nofun) _ nofun
  · have hne : s.job j ≠ .waiting := by rw [hj]; nofun
    rcases sendFile_cases w s j r pc with
      ⟨he, -⟩ | ⟨pc', he, -⟩ | ⟨-, he⟩ | ⟨rest, -, -, he⟩ <;> rw [he]
    · exact ⟨h.le, h.waiting⟩
    · exact h.setJob hne _ nofun
    · exact h.setJob hne _ nofun
    · obtain ⟨h1, h2⟩ := h.setJob hne (.running (.copy (rest.drop bufSize))) nofun
      exact ⟨h1, h2⟩

/-- A pool in which nothing can move has finished every job. -/
theorem finished_of_halted {s : PoolState} (hwf : Wf reqs s) (hab : s.aborted = false)
    (hh : (pool w reqs).Halted s) : ∀ j < reqs.length, s.job j = .finished := by
  have hstep : ∀ a, poolStep w reqs s a = none := hh
  have hd : reqs.length ≤ s.dispatched := by
    have h := hstep .dispatch
    simp only [poolStep, hab, Bool.false_eq_true, if_false] at h
    by_contra hlt
    rw [if_pos (not_le.mp hlt)] at h
    cases h
  have hbusy : ∀ j < reqs.length, (s.job j).busy = false := by
    intro j hj
    have h := hstep (.send j)
    simp only [poolStep, hab, Bool.false_eq_true, if_false, List.getElem?_eq_getElem hj] at h
    cases hpc : s.job j with
    | running pc => simp [hpc] at h
    | waiting => rfl
    | queued => rfl
    | finished => rfl
  have hcount : ((List.range reqs.length).countP fun k => (s.job k).busy) = 0 := by
    rw [List.countP_eq_zero]
    intro k hk
    rw [hbusy k (List.mem_range.mp hk)]
    decide
  intro j hj
  cases hpc : s.job j with
  | finished => rfl
  | waiting =>
    have := (hwf.waiting j).mp hpc
    omega
  | queued =>
    have h := hstep (.take j)
    simp only [poolStep, hab, Bool.false_eq_true, if_false, hcount] at h
    rw [if_pos ⟨hpc, by decide⟩] at h
    cases h
  | running pc =>
    have h := hbusy j hj
    rw [hpc] at h
    cases h

theorem halted_of_finished {s : PoolState} (hwf : Wf reqs s)
    (hf : ∀ j < reqs.length, s.job j = .finished) : (pool w reqs).Halted s := by
  intro a
  change poolStep w reqs s a = none
  cases ha : poolStep w reqs s a with
  | none => rfl
  | some t =>
    exfalso
    obtain ⟨-, ⟨-, hd, -⟩ | ⟨j, -, hj, -⟩ | ⟨j, r, pc, -, hj, hr, -⟩⟩ := poolStep_cases ha
    · have hw := (hwf.waiting _).mpr (le_refl s.dispatched)
      rw [hf _ hd] at hw
      cases hw
    · have hlt : j < reqs.length := by
        by_contra hn
        rw [(hwf.waiting j).mpr (hwf.le.trans (not_lt.mp hn))] at hj
        cases hj
      rw [hf j hlt] at hj
      cases hj
    · rw [hf j (List.getElem?_eq_some_iff.mp hr).1] at hj
      cases hj

/-- Steps a job has left. -/
def weight (w : World) (reqs : List Request) (j : ℕ) : JobPc → ℕ
  | .waiting => (content w reqs j).length + 5
  | .queued => (content w reqs j).length + 4
  | .running .openDest => (content w reqs j).length + 3
  | .running .openFile => (content w reqs j).length + 2
  | .running (.copy rest) => rest.length + 1
  | .finished => 0

def poolRemaining (w : World) (reqs : List Request) (s : PoolState) : ℕ :=
  (∑ j ∈ Finset.range reqs.length, weight w reqs j (s.job j)) + if s.aborted then 0 else 1

theorem sum_setJob_lt {s : PoolState} {j : ℕ} (hj : j < reqs.length) (pc : JobPc)
    (h : weight w reqs j pc < weight w reqs j (s.job j)) :
    ∑ k ∈ Finset.range reqs.length, weight w reqs k ((s.setJob j pc).job k) <
      ∑ k ∈ Finset.range reqs.length, weight w reqs k (s.job k) := by
  apply Finset.sum_lt_sum
  · intro k _
    rw [setJob_job]
    split_ifs with hk
    · subst hk
      exact h.le
    · exact le_rfl
  · refine ⟨j, Finset.mem_range.mpr hj, ?_⟩
    rwa [setJob_self]

theorem poolRemaining_step {s t : PoolState} {a : PoolAction} (hwf : Wf reqs s)
    (ht : poolStep w reqs s a = some t) : poolRemaining w reqs t < poolRemaining w reqs s := by
  unfold poolRemaining
  have hlt : ∀ j, s.job j ≠ .waiting → j < reqs.length := by
    intro j hj
    by_contra hn
    exact hj ((hwf.waiting j).mpr (hwf.le.trans (not_lt.mp hn)))
  obtain ⟨hab, ⟨-, hd, rfl⟩ | ⟨j, -, hj, rfl⟩ | ⟨j, r, pc, -, hj, hr, rfl⟩⟩ := poolStep_cases ht
  · have hw : s.job s.dispatched = .waiting := (hwf.waiting _).mpr le_rfl
    have hsum := sum_setJob_lt (w := w) hd .queued (by rw [hw]; simp [weight])
    exact Nat.add_lt_add_right hsum _
  · have hq := hlt j (by rw [hj]; nofun)
    have hsum := sum_setJob_lt (w := w) hq (.running .openDest) (by rw [hj]; simp [weight])
    exact Nat.add_lt_add_right hsum _
  · have hq := hlt j (by rw [hj]; nofun)
    have hset : ∀ pc', weight w reqs j pc' < weight w reqs j (.running pc) →
        (∑ k ∈ Finset.range reqs.length, weight w reqs k ((s.setJob j pc').job k)) +
            (if s.aborted then 0 else 1) <
          (∑ k ∈ Finset.range reqs.length, weight w reqs k (s.job k)) +
            if s.aborted then 0 else 1 := by
      intro pc' h
      exact Nat.add_lt_add_right (sum_setJob_lt hq pc' (by rw [hj]; exact h)) _
    cases pc with
    | openDest =>
      cases ho : w.opens r.destFileName with
      | false => simp [sendFile, ho, hab]
      | true =>
        simp only [sendFile, ho, if_true]
        exact hset (.running .openFile) (by simp [weight])
    | openFile =>
      cases hf : w.file r.fileName with
      | none => simp [sendFile, hf, hab]
      | some c =>
        simp only [sendFile, hf]
        exact hset (.running (.copy c)) (by simp [weight, content, hr, hf])
    | copy rest =>
      cases rest with
      | nil => exact hset .finished (by simp [weight])
      | cons b bs =>
        apply hset (.running (.copy ((b :: bs).drop bufSize)))
        simp only [weight, List.length_drop, List.length_cons, bufSize]
        omega

theorem exists_halted_from {s : PoolState} (hs : (pool w reqs).Reachable s) :
    ∃ as t, (pool w reqs).runFrom s as = some t ∧ (pool w reqs).Halted t := by
  have hstep : ∀ u a v, Wf reqs u → (pool w reqs).step u a = some v → Wf reqs v :=
    fun u a v hu hv => hu.step hv
  have hwf : Wf reqs s := hs.invariant wf_init hstep
  exact Machine.exists_run_halted (μ := poolRemaining w reqs) hstep
    (fun u a v hu hv => poolRemaining_step hu hv) s hwf

end OsTasks.FileServer
