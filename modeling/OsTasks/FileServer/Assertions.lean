import OsTasks.FileServer.Process

/-! The assertions of `send_file`, which end the main loop and the pool together. -/
namespace OsTasks.FileServer.Dispatch
open OsTasks.Lib Process

/-- What a job is about to open can be opened. -/
def Opens (p : ProcessState) : ProcessEvent → Prop
  | .pool w (.send j) => ∀ r, (requestsOf p.loop)[j]? = some r →
      (p.pool.job j = .running .openDest → w.opens r.destFileName = true) ∧
      (p.pool.job j = .running .openFile → w.file r.fileName ≠ none)
  | _ => True

section Process
variable {setup : Setup} {p q : ProcessState} {e : ProcessEvent}

theorem aborted_sendFile_iff (w : World) (s : PoolState) (j : ℕ) (r : Request) (pc : SendPc) :
    (sendFile w s j r pc).aborted = false ↔ s.aborted = false ∧
      (pc = .openDest → w.opens r.destFileName = true) ∧
      (pc = .openFile → w.file r.fileName ≠ none) := by
  cases pc with
  | openDest =>
    unfold sendFile
    cases ho : w.opens r.destFileName with
    | true => simp [PoolState.setJob]
    | false => simp
  | openFile =>
    unfold sendFile
    cases hf : w.file r.fileName with
    | none => simp
    | some c => simp [PoolState.setJob]
  | copy rest =>
    cases rest with
    | nil => simp [sendFile, PoolState.setJob]
    | cons b bs => simp [sendFile, PoolState.setJob]

/-- An event fails no assertion exactly when what it opens can be opened. -/
theorem aborted_step (hq : processStep setup p e = some q) :
    q.pool.aborted = false ↔ p.pool.aborted = false ∧ Opens p e := by
  cases e with
  | main e =>
    obtain ⟨_, hstep⟩ := Option.ite_none_left_eq_some.mp hq
    obtain ⟨s, _, rfl⟩ := Option.map_eq_some_iff.mp hstep
    exact (and_iff_left trivial).symm
  | pool w a =>
    obtain ⟨_, hstep⟩ := Option.ite_none_left_eq_some.mp hq
    obtain ⟨t, ht, rfl⟩ := Option.map_eq_some_iff.mp hstep
    obtain ⟨hrunning, hcases⟩ := poolStep_cases ht
    rcases hcases with ⟨rfl, _, rfl⟩ | ⟨j, rfl, _, rfl⟩ | ⟨j, r, pc, rfl, hj, hr, rfl⟩
    · exact (and_iff_left trivial).symm
    · exact (and_iff_left trivial).symm
    · rw [aborted_sendFile_iff]
      refine and_congr_right fun _ => ?_
      unfold Opens
      dsimp only
      rw [hr, hj]
      simp

/-- The assertions of `send_file` hold exactly in the runs in which each FIFO and each file that a
job goes on to open can be opened then. -/
theorem not_aborted_iff {es : List ProcessEvent} (hrun : (process setup).run es = some p) :
    p.pool.aborted = false ↔ (process setup).AllSteps Opens (process setup).init es := by
  have hiff := Machine.runFrom_iff_allSteps (M := process setup)
    (I := fun p => p.pool.aborted = false) (J := fun _ => True) (P := Opens)
    (fun _ _ _ _ _ => trivial) (fun _ _ _ _ hq => aborted_step hq) trivial hrun
  rw [hiff]
  exact and_iff_right rfl

/-- All FIFOs open, and each file holds `content`. -/
def serving (content : Option (List Byte)) : World := ⟨fun _ => true, fun _ => content⟩

/-- A client asks for a file, and its job runs. -/
def requestRuns (content : Option (List Byte)) : List ProcessEvent :=
  onePassEach.map (fun a => .main (.event (.act a))) ++
    [PoolAction.dispatch, .take 0, .send 0, .send 0].map (.pool (serving content))

theorem opens_of_serving {bytes : List Byte} (h : e ∈ requestRuns (some bytes)) : Opens p e := by
  rcases List.mem_append.mp h with h | h
  · obtain ⟨a, _, rfl⟩ := List.mem_map.mp h
    trivial
  · obtain ⟨a, _, rfl⟩ := List.mem_map.mp h
    cases a with
    | dispatch => trivial
    | take j => trivial
    | send j => exact fun r _ => ⟨fun _ => rfl, fun _ => Option.some_ne_none bytes⟩

theorem present_file_sent : ∃ p, (process lowest).run (requestRuns (some [0x78])) = some p ∧
    p.pool.job 0 = .running (.copy [0x78]) ∧ p.pool.aborted = false := by
  have hrun : (process lowest).run (requestRuns (some [0x78])) = some _ := rfl
  refine ⟨_, hrun, rfl, (not_aborted_iff hrun).mpr ?_⟩
  exact Machine.allSteps_of_forall fun _ _ => opens_of_serving

/-- A `GET` of a file that is not there. -/
theorem missing_file_aborts :
    ∃ p, (process lowest).run (requestRuns none) = some p ∧ p.pool.aborted = true :=
  ⟨_, rfl, rfl⟩

end Process

end OsTasks.FileServer.Dispatch
