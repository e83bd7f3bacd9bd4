import OsTasks.Transfer.SharedMemoryContent

/-! The rounds of the shared-memory transfer: the client's writes to the segment and the server's
reads of it, for every interleaving of the two. -/
namespace OsTasks.Transfer.SharedMemory
open OsTasks.Lib

/-- The segment as each write of the client left it, as each read of the server found it, and as
it was when that read was over. A read starts at the comparison with "quit"; it is over when the
comparison ends the loop or else after `fwrite`. -/
structure Rounds where
  writes : List (List Byte)
  reads : List (List Byte)
  finished : List (List Byte)

def record (s : State) (p : Party) (t : State) (r : Rounds) : Rounds :=
  match p with
  | .client =>
    if s.client = .copy ∨ s.client = .sprintf then { r with writes := r.writes ++ [t.shm] } else r
  | .server =>
    if s.server = .test then
      { r with
        reads := r.reads ++ [s.shm]
        finished := if t.server = .done then r.finished ++ [s.shm] else r.finished }
    else if s.server = .fwrite then { r with finished := r.finished ++ [s.shm] }
    else r

/-- The transfer with a record of its rounds. -/
def recorded (file : List Byte) : Machine (State × Rounds) Party :=
  (transfer file).withHistory ⟨[], [], []⟩ record

/-- Where the rounds stand at each stage of the segment. -/
def InStep (s : State) (r : Rounds) : Prop :=
  match stage s with
  | .free => r.reads = r.writes ∧ r.finished = r.writes
  | .untested => r.writes = r.finished ++ [s.shm] ∧ r.reads = r.finished
  | .tested => r.writes = r.finished ++ [s.shm] ∧ r.reads = r.writes
  | .ended => r.reads = r.writes ∧ r.finished = r.writes

theorem inStep_client {s t : State} {r : Rounds} (h : Semaphores s) (hr : InStep s r)
    (ht : clientStep s = some t) : InStep t (record s .client t r) := by
  by_cases hc : s.client = .copy ∨ s.client = .sprintf
  · obtain ⟨hfree, huntested⟩ := stage_write h hc ht
    simp only [InStep, hfree] at hr
    obtain ⟨hreads, hfinished⟩ := hr
    simp only [InStep, huntested, record, if_pos hc, hfinished, hreads, and_self]
  · obtain ⟨hcopy, hsprintf⟩ := not_or.mp hc
    obtain ⟨hstage, hshm⟩ := stage_client hcopy hsprintf ht
    simp only [record, if_neg hc, InStep, hstage, hshm]
    exact hr

theorem inStep_server {s t : State} {r : Rounds} (h : Semaphores s) (hr : InStep s r)
    (ht : serverStep s = some t) : InStep t (record s .server t r) := by
  by_cases htest : s.server = .test
  · have hstage : stage s = .untested := by simp only [stage, htest]
    simp only [InStep, hstage] at hr
    obtain ⟨hwrites, hreads⟩ := hr
    simp only [serverStep, htest] at ht
    split_ifs at ht with hq
    · cases ht
      simp only [InStep, stage, record, htest, if_true, hwrites, hreads, and_self]
    · cases ht
      simp only [InStep, stage, record, htest, if_true, reduceCtorEq, if_false, hwrites, hreads,
        and_self]
  · by_cases hfwrite : s.server = .fwrite
    · have hstage : stage s = .tested := by simp only [stage, hfwrite]
      simp only [InStep, hstage] at hr
      obtain ⟨hwrites, hreads⟩ := hr
      simp only [serverStep, hfwrite] at ht
      cases ht
      simp only [InStep, stage, record, hfwrite, reduceCtorEq, if_true, if_false, hreads, hwrites,
        and_self]
    · obtain ⟨hstage, hshm⟩ := stage_server h htest hfwrite ht
      simp only [record, if_neg htest, if_neg hfwrite, InStep, hstage, hshm]
      exact hr

theorem inStep_of_reachable {file : List Byte} {s : State} {r : Rounds}
    (h : (recorded file).Reachable (s, r)) : InStep s r := by
  apply Machine.Reachable.invariant_withHistory _ _ h
  · exact ⟨rfl, rfl⟩
  · intro s r p t hs hr ht
    have hsem : Semaphores s := semaphores_of_reachable hs
    cases p with
    | client => exact inStep_client hsem hr ht
    | server => exact inStep_server hsem hr ht

/-- The two are never both between `sem_wait(mutex)` and `sem_post(mutex)`; the server's reads are
the client's writes one by one; and the client writes again only after the last read is over. -/
theorem reads_follow_writes {file : List Byte} {s : State} {r : Rounds}
    (h : (recorded file).Reachable (s, r)) :
    s.client.critical + s.server.critical ≤ 1 ∧ r.reads <+: r.writes ∧
      r.finished <+: r.reads ∧ r.writes.length ≤ r.finished.length + 1 := by
  have hsem : Semaphores s := semaphores_of_reachable h.of_withHistory
  have hr : InStep s r := inStep_of_reachable h
  have hcrit := hsem.critical
  refine ⟨by omega, ?_⟩
  unfold InStep at hr
  cases hstage : stage s <;> simp only [hstage] at hr <;> obtain ⟨h1, h2⟩ := hr
  · rw [h1, h2]
    exact ⟨List.prefix_rfl, List.prefix_rfl, Nat.le_succ _⟩
  · rw [h1, h2]
    refine ⟨List.prefix_append _ _, List.prefix_rfl, ?_⟩
    rw [List.length_append]
    rfl
  · rw [h2, h1]
    refine ⟨List.prefix_rfl, List.prefix_append _ _, ?_⟩
    rw [List.length_append]
    rfl
  · rw [h1, h2]
    exact ⟨List.prefix_rfl, List.prefix_rfl, Nat.le_succ _⟩

/-- After the only block of a file and the end marker. -/
theorem reads_follow_writes_one_block :
    ∃ s r, (recorded [0x61]).Reachable (s, r) ∧ s.server = .done ∧ r.reads.length = 2 ∧
      r.reads <+: r.writes := by
  have h : (recorded [0x61]).Reachable _ := ⟨oneBlockRun, rfl⟩
  exact ⟨_, _, h, rfl, rfl, (reads_follow_writes h).2.1⟩

end OsTasks.Transfer.SharedMemory
