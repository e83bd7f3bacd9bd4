import OsTasks.FileServer.FilesArrive
import OsTasks.Lib.Decimal

/-! What a client of the file server gets of each file, however the jobs are interleaved and
whatever the clients write: the blocks of the file from the first on, in order. -/
namespace OsTasks.FileServer.Process
open OsTasks.Lib Dispatch

/-- The blocks job `j` wrote to the FIFO `rx`. -/
def blocksOf (s : PoolState) (rx : Name) (j : ℕ) : List (List Byte) :=
  ((s.stream rx).filter fun x => x.1 = j).map Prod.snd

/-- The blocks job `j` has left. -/
def blocksLeft (w : World) (reqs : List Request) (j : ℕ) : JobPc → List (List Byte)
  | .running (.copy rest) => freadBlocks bufSize rest
  | .finished => []
  | _ => blocks w reqs j

/-- What each job wrote and has left is its file, and it wrote to its own client's FIFO. -/
structure InOrder (w : World) (reqs : List Request) (s : PoolState) : Prop where
  own : ∀ rx, ∀ x ∈ s.stream rx, destOf reqs x.1 = some rx
  whole : ∀ j r, reqs[j]? = some r →
    blocksOf s r.destFileName j ++ blocksLeft w reqs j (s.job j) = blocks w reqs j

variable {w : World} {reqs : List Request} {setup : Setup}

theorem inOrder_init : InOrder w reqs (pool w reqs).init where
  own := fun _ _ hx => absurd hx List.not_mem_nil
  whole := fun _ _ _ => rfl

/-- A step without a write leaves as many blocks. -/
theorem inOrder_setJob {s : PoolState} (hs : InOrder w reqs s) {j : ℕ} {pc : JobPc}
    (hleft : blocksLeft w reqs j pc = blocksLeft w reqs j (s.job j)) :
    InOrder w reqs (s.setJob j pc) where
  own := hs.own
  whole := by
    intro k r hr
    have hk := hs.whole k r hr
    rw [setJob_job]
    split_ifs with he
    · subst he
      rw [hleft]
      exact hk
    · exact hk

theorem inOrder_write {s : PoolState} (hs : InOrder w reqs s) {j : ℕ} {r : Request}
    (hr : reqs[j]? = some r) {rest : List Byte} (hrest : rest ≠ [])
    (hj : s.job j = .running (.copy rest)) :
    InOrder w reqs { s.setJob j (.running (.copy (rest.drop bufSize))) with
      stream := Function.update s.stream r.destFileName
        (s.stream r.destFileName ++ [(j, rest.take bufSize)]) } where
  own := by
    intro rx x hx
    dsimp only at hx
    rw [Function.update_apply] at hx
    split_ifs at hx with hrx
    · rcases List.mem_append.mp hx with hx | hx
      · rw [hrx]
        exact hs.own _ x hx
      · rw [List.mem_singleton.mp hx, hrx]
        exact destOf_eq hr
    · exact hs.own rx x hx
  whole := by
    intro k r' hr'
    have hk := hs.whole k r' hr'
    unfold blocksOf at hk ⊢
    dsimp only
    rw [setJob_job]
    by_cases he : k = j
    · subst he
      cases hr.symm.trans hr'
      rw [hj] at hk
      unfold blocksLeft at hk
      dsimp only at hk
      rw [freadBlocks_of_ne_nil bufSize_pos hrest] at hk
      rw [if_pos rfl, Function.update_self, List.filter_append, List.map_append, List.append_assoc,
        ← hk]
      simp [blocksLeft]
    · rw [if_neg he, Function.update_apply]
      split_ifs with hrx
      · have hother : [(j, rest.take bufSize)].filter (fun x => x.1 = k) = [] := by
          simp [Ne.symm he]
        rw [List.filter_append, hother, List.append_nil, ← hrx]
        exact hk
      · exact hk

theorem blocksLeft_of_opened {j : ℕ} {r : Request} (hr : reqs[j]? = some r) {pc' : SendPc}
    (hcopy : ∀ rest, pc' = .copy rest → w.file r.fileName = some rest) :
    blocksLeft w reqs j (.running pc') = blocks w reqs j := by
  cases pc' with
  | openDest => rfl
  | openFile => rfl
  | copy rest =>
    have hfile : fileOf w r.fileName = rest := by
      unfold fileOf
      rw [hcopy rest rfl]
      rfl
    unfold blocksLeft blocks
    rw [content_eq_fileOf hr, hfile]

theorem inOrder_step {s t : PoolState} {a : PoolAction} (hs : InOrder w reqs s)
    (hwf : Wf reqs s) (ht : poolStep w reqs s a = some t) : InOrder w reqs t := by
  obtain ⟨-, ⟨-, hd, rfl⟩ | ⟨j, -, hj, rfl⟩ | ⟨j, r, pc, -, hj, hr, rfl⟩⟩ := poolStep_cases ht
  · have hw : s.job s.dispatched = .waiting := (hwf.waiting _).mpr le_rfl
    have hset : InOrder w reqs (s.setJob s.dispatched .queued) :=
      inOrder_setJob hs (by rw [hw]; rfl)
    exact ⟨hset.own, hset.whole⟩
  · exact inOrder_setJob hs (by rw [hj]; rfl)
  · rcases sendFile_cases w s j r pc with
      ⟨he, -⟩ | ⟨pc', he, hpc, hcopy⟩ | ⟨rfl, he⟩ | ⟨rest, hrest, rfl, he⟩
    · rw [he]
      exact ⟨hs.own, hs.whole⟩
    · rw [he]
      apply inOrder_setJob hs
      rw [hj, blocksLeft_of_opened hr hcopy,
        blocksLeft_of_opened hr fun rest h => absurd h (hpc rest)]
    · rw [he]
      apply inOrder_setJob hs
      rw [hj]
      exact (freadBlocks_nil bufSize_pos).symm
    · rw [he]
      exact inOrder_write hs hr hrest hj

theorem inOrder_of_reachable {s : PoolState} (hs : (pool w reqs).Reachable s) :
    InOrder w reqs s := by
  have hboth : Wf reqs s ∧ InOrder w reqs s := by
    apply hs.invariant (I := fun u => Wf reqs u ∧ InOrder w reqs u) ⟨wf_init, inOrder_init⟩
    intro u a v hu hv
    exact ⟨hu.1.step hv, inOrder_step hu.2 hu.1 hv⟩
  exact hboth.2

/-- In every state of the server while the files stay, also after a failed assertion, whatever the
clients wrote and in whatever order the jobs ran: all in a client's FIFO is of jobs for it, and what
is there of one job is the first blocks of its file in order, each once, all of them when the job is
done. -/
theorem blocks_in_order (w : World) (setup : Setup) {es : List ProcessEvent} {s : ProcessState}
    (hs : (process setup).run es = some s) (hw : ∀ e ∈ es, SameWorld w e) (rx : Name) :
    (∀ x ∈ s.pool.stream rx, ∃ r, (requestsOf s.loop)[x.1]? = some r ∧ r.destFileName = rx) ∧
    ∀ j r, (requestsOf s.loop)[j]? = some r → r.destFileName = rx →
      blocksOf s.pool rx j <+: freadBlocks bufSize (fileOf w r.fileName) ∧
      (s.pool.job j = .finished → (blocksOf s.pool rx j).flatten = fileOf w r.fileName) := by
  have hworld : (process setup).AllSteps (fun _ => SameWorld w) (process setup).init es :=
    Machine.allSteps_of_forall fun _ e he => hw e he
  have hinv := inOrder_of_reachable (ahead_of_run hs hworld).reachable
  constructor
  · intro x hx
    exact Option.map_eq_some_iff.mp (hinv.own rx x hx)
  · rintro j r hr rfl
    have hwhole := hinv.whole j r hr
    unfold blocks at hwhole
    rw [content_eq_fileOf hr] at hwhole
    refine ⟨⟨_, hwhole⟩, fun hfinished => ?_⟩
    rw [hfinished] at hwhole
    rw [← flatten_freadBlocks bufSize_pos (fileOf w r.fileName), ← hwhole]
    exact congrArg List.flatten (List.append_nil _).symm

/-- Bytes as they come: a registration without its newline, two requests that one read takes, and
another. -/
def rawRequests : List ProcessEvent :=
  [ServerEvent.event (.put cmdFifo (ascii "REG a b")), .event (.act .select),
    .event (.act (.cmd (fresh 5))), .event (.act .scan), .event (.act .scan),
    .event (.put [0x61] (ascii "GET f\nGET f\n")), .event (.act .select), .event (.act .scan),
    .event (.act .scan), .event (.put [0x61] (ascii "GET g")), .event (.act .select),
    .event (.act .scan), .event (.act .scan)].map .main ++ jobsInTurn.map (.pool twoFiles)

/-- The blocks of both jobs, which have written in turn. -/
theorem blocks_in_order_rawRequests :
    ∃ s, (process lowest).run rawRequests = some s ∧
      s.pool.stream [0x62] = [(1, [4, 5]), (0, [1, 2, 3])] ∧
      (blocksOf s.pool [0x62] 0).flatten = [1, 2, 3] ∧
      (blocksOf s.pool [0x62] 1).flatten = [4, 5] := by
  have hrun : (process lowest).run rawRequests = some _ := rfl
  have hworld : ∀ e ∈ rawRequests, SameWorld twoFiles e := by
    intro e he
    rcases List.mem_append.mp he with he | he
    · obtain ⟨_, _, rfl⟩ := List.mem_map.mp he
      trivial
    · obtain ⟨_, _, rfl⟩ := List.mem_map.mp he
      rfl
  have hblocks := (blocks_in_order twoFiles lowest hrun hworld [0x62]).2
  exact ⟨_, hrun, rfl, (hblocks 0 ⟨[0x62], [0x66]⟩ rfl rfl).2 rfl,
    (hblocks 1 ⟨[0x62], [0x67]⟩ rfl rfl).2 rfl⟩

end OsTasks.FileServer.Process
