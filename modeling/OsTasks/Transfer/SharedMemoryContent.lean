import OsTasks.Transfer.SharedMemoryImage
import OsTasks.Transfer.SharedMemoryStages

/-! Which files the shared-memory transfer carries over, in every interleaving of the client and
the server. -/
namespace OsTasks.Transfer.SharedMemory
open OsTasks.Lib

/-- The client's loop has ended. -/
def ClientPc.ending : ClientPc → Bool
  | .endWaitFull | .endWaitMutex | .sprintf | .endPostMutex | .endPostEmpty | .done => true
  | _ => false

/-- The segment holds the end marker. -/
def ClientPc.marked : ClientPc → Bool
  | .endPostMutex | .endPostEmpty | .done => true
  | _ => false

/-- The client has read a block and not yet copied it. -/
def ClientPc.reading : ClientPc → Bool
  | .waitFull | .waitMutex | .copy => true
  | _ => false

/-- The blocks still to be copied. -/
def toCopy (s : State) : List (List Byte) :=
  (if s.client.reading then [s.interBuf.take s.numOfRead] else []) ++ freadBlocks size s.rest

/-- The output the server ends with, as far as the present state decides it. -/
def outcome (s : State) : Option (List Byte) :=
  if s.client.marked then some s.output
  else match stage s with
    | .free => (served s.shm (toCopy s)).map (s.output ++ ·)
    | .untested =>
      if quit ++ [0] <+: s.shm then none
      else (served s.shm (toCopy s)).map (s.output ++ s.shm ++ ·)
    | .tested => (served s.shm (toCopy s)).map (s.output ++ s.shm ++ ·)
    | .ended => none

structure Inv (file : List Byte) (s : State) : Prop where
  semaphores : Semaphores s
  length_shm : s.shm.length = size
  length_buf : s.interBuf.length = size
  read_le : s.numOfRead ≤ size
  ending : s.client.ending = true → s.rest = []
  marked : s.client.marked = true →
    quit ++ [0] <+: s.shm ∧ (stage s = .untested ∨ stage s = .ended)
  outcome : outcome s = served (List.replicate size 0) (freadBlocks size file)

theorem inv_init (file : List Byte) : Inv file (transfer file).init where
  semaphores := semaphores_init file
  length_shm := List.length_replicate
  length_buf := List.length_replicate
  read_le := Nat.zero_le _
  ending h := Bool.noConfusion h
  marked h := Bool.noConfusion h
  outcome := by
    change (served (List.replicate size 0) (freadBlocks size file)).map ([] ++ ·) = _
    simp

private theorem Inv.frame {file : List Byte} {s t : State} (h : Inv file s) (hs : Semaphores t)
    (hshm : t.shm = s.shm) (hrest : t.rest = s.rest) (hbuf : t.interBuf = s.interBuf)
    (hread : t.numOfRead = s.numOfRead) (hout : t.output = s.output)
    (hpc : t.client.ending = s.client.ending ∧ t.client.marked = s.client.marked ∧
      t.client.reading = s.client.reading) (hstage : stage t = stage s) : Inv file t where
  semaphores := hs
  length_shm := hshm ▸ h.length_shm
  length_buf := hbuf ▸ h.length_buf
  read_le := hread ▸ h.read_le
  ending he := hrest ▸ h.ending (hpc.1 ▸ he)
  marked hm := by
    rw [hshm, hstage]
    exact h.marked (hpc.2.1 ▸ hm)
  outcome := by
    rw [← h.outcome]
    simp only [SharedMemory.outcome, toCopy, hshm, hrest, hbuf, hread, hout, hpc.2.1, hpc.2.2,
      hstage]

private theorem inv_fread {file : List Byte} {s t : State} (h : Inv file s)
    (hc : s.client = .fread) (ht : clientStep s = some t) : Inv file t := by
  have hsem := semaphores_step s .client t h.semaphores ht
  have hsize : 0 < size := by decide
  simp only [clientStep, hc] at ht
  split at ht
  · rename_i hnil
    have hrest : s.rest = [] := by
      rcases List.take_eq_nil_iff.mp hnil with h0 | h0
      · exact absurd h0 (by decide)
      · exact h0
    cases ht
    refine ⟨hsem, h.length_shm, h.length_buf, Nat.zero_le _, fun _ => hrest,
      fun hm => Bool.noConfusion hm, ?_⟩
    rw [← h.outcome]
    simp only [SharedMemory.outcome, stage, toCopy, hc, ClientPc.marked, ClientPc.stored,
      ClientPc.reading, Bool.false_eq_true, if_false]
  · rename_i b bs hb
    have hle : (b :: bs).length ≤ size := by
      rw [← hb]
      exact List.length_take_le _ _
    have hne : s.rest ≠ [] := by
      rintro hnil
      rw [hnil] at hb
      cases hb
    cases ht
    refine ⟨hsem, h.length_shm, ?_, hle, fun he => Bool.noConfusion he,
      fun hm => Bool.noConfusion hm, ?_⟩
    · exact (length_overwrite (by rw [h.length_buf]; exact hle)).trans h.length_buf
    · rw [← h.outcome]
      simp only [SharedMemory.outcome, stage, toCopy, hc, ClientPc.marked, ClientPc.stored,
        ClientPc.reading, take_overwrite, freadBlocks_of_ne_nil hsize hne, hb, if_true,
        Bool.false_eq_true, if_false, List.nil_append, List.singleton_append]

private theorem inv_copy {file : List Byte} {s : State} (h : Inv file s) (hc : s.client = .copy)
    (hsem : Semaphores { s with shm := strncpy s.shm s.interBuf s.numOfRead,
                                client := .postMutex }) :
    Inv file { s with shm := strncpy s.shm s.interBuf s.numOfRead, client := .postMutex } := by
  obtain ⟨hserver, hempty⟩ := h.semaphores.server_of_turn (by rw [hc]; rfl)
  have hblock : strncpy s.shm (s.interBuf.take s.numOfRead) (s.interBuf.take s.numOfRead).length =
      strncpy s.shm s.interBuf s.numOfRead := by
    have hl : (s.interBuf.take s.numOfRead).length = s.numOfRead := by
      rw [List.length_take, h.length_buf, Nat.min_eq_left h.read_le]
    simp only [strncpy, hl, List.take_take, Nat.min_self]
  refine ⟨hsem, ?_, h.length_buf, h.read_le, fun he => Bool.noConfusion he,
    fun hm => Bool.noConfusion hm, ?_⟩
  · exact (length_strncpy (by rw [h.length_shm]; exact h.read_le)).trans h.length_shm
  · rw [← h.outcome]
    simp only [SharedMemory.outcome, stage, toCopy, hc, hserver, hempty, ClientPc.marked,
      ClientPc.stored, ClientPc.reading, Bool.false_eq_true, if_false, lt_irrefl, or_false,
      or_true, if_true, List.singleton_append, List.nil_append, served, hblock]
    split_ifs
    · rfl
    · simp only [Option.map_map, Function.comp_def, List.append_assoc]

private theorem inv_sprintf {file : List Byte} {s : State} (h : Inv file s)
    (hc : s.client = .sprintf)
    (hsem : Semaphores { s with shm := overwrite s.shm (quit ++ [0]), client := .endPostMutex }) :
    Inv file { s with shm := overwrite s.shm (quit ++ [0]), client := .endPostMutex } := by
  obtain ⟨hserver, hempty⟩ := h.semaphores.server_of_turn (by rw [hc]; rfl)
  have hrest : s.rest = [] := h.ending (by rw [hc]; rfl)
  refine ⟨hsem, ?_, h.length_buf, h.read_le, fun _ => hrest, fun _ => ⟨?_, ?_⟩, ?_⟩
  · exact (length_overwrite (by rw [h.length_shm]; decide)).trans h.length_shm
  · exact List.prefix_append _ _
  · left
    simp only [stage, hserver, ClientPc.stored, or_true, if_true]
  · rw [← h.outcome]
    simp only [SharedMemory.outcome, stage, toCopy, hc, hserver, hempty, hrest, ClientPc.marked,
      ClientPc.stored, ClientPc.reading, Bool.false_eq_true, if_false, lt_irrefl, or_self,
      if_true, freadBlocks_nil (show 0 < size by decide), served, Option.map_some,
      List.append_nil]

theorem inv_client {file : List Byte} {s t : State} (h : Inv file s)
    (ht : clientStep s = some t) : Inv file t := by
  have hsem := semaphores_step s .client t h.semaphores ht
  cases hc : s.client
  case fread => exact inv_fread h hc ht
  case copy =>
    simp only [clientStep, hc] at ht
    cases ht
    exact inv_copy h hc hsem
  case sprintf =>
    simp only [clientStep, hc] at ht
    cases ht
    exact inv_sprintf h hc hsem
  case done => simp [clientStep, hc] at ht
  all_goals
    have hstage := (stage_client (by simp [hc]) (by simp [hc]) ht).1
    simp only [clientStep, hc] at ht
    (try split at ht) <;> cases ht
    exact h.frame hsem rfl rfl rfl rfl rfl (by simp [hc, ClientPc.ending, ClientPc.marked,
      ClientPc.reading]) hstage

private theorem inv_test {file : List Byte} {s t : State} (h : Inv file s)
    (hs : s.server = .test) (ht : serverStep s = some t) : Inv file t := by
  have hsem := semaphores_step s .server t h.semaphores ht
  simp only [serverStep, hs, strcmp_eq_zero_iff (show (0 : Byte) ∉ quit by decide)] at ht
  split_ifs at ht with hq
  · cases ht
    refine ⟨hsem, h.length_shm, h.length_buf, h.read_le, h.ending, fun _ => ⟨hq, Or.inr rfl⟩, ?_⟩
    rw [← h.outcome]
    simp only [SharedMemory.outcome, stage, hs, hq, if_true]
  · cases ht
    refine ⟨hsem, h.length_shm, h.length_buf, h.read_le, h.ending,
      fun hm => absurd (h.marked hm).1 hq, ?_⟩
    rw [← h.outcome]
    simp only [SharedMemory.outcome, stage, toCopy, hs, hq, if_false]

private theorem inv_fwrite {file : List Byte} {s : State} (h : Inv file s)
    (hs : s.server = .fwrite)
    (hsem : Semaphores { s with output := s.output ++ s.shm.take size, server := .postMutex }) :
    Inv file { s with output := s.output ++ s.shm.take size, server := .postMutex } := by
  have hunmarked : s.client.marked = false := by
    by_contra hm
    have := (h.marked (by simpa using hm)).2
    simp [stage, hs] at this
  refine ⟨hsem, h.length_shm, h.length_buf, h.read_le, h.ending,
    fun hm => absurd hm (by simp [hunmarked]), ?_⟩
  rw [← h.outcome]
  simp only [SharedMemory.outcome, stage, toCopy, hs, hunmarked, Bool.false_eq_true, if_false,
    List.take_of_length_le h.length_shm.le]

theorem inv_server {file : List Byte} {s t : State} (h : Inv file s)
    (ht : serverStep s = some t) : Inv file t := by
  have hsem := semaphores_step s .server t h.semaphores ht
  cases hs : s.server
  case test => exact inv_test h hs ht
  case fwrite =>
    simp only [serverStep, hs] at ht
    cases ht
    exact inv_fwrite h hs hsem
  case done => simp [serverStep, hs] at ht
  all_goals
    have hstage := (stage_server h.semaphores (by simp [hs]) (by simp [hs]) ht).1
    simp only [serverStep, hs] at ht
    (try split at ht) <;> cases ht
    exact h.frame hsem rfl rfl rfl rfl rfl ⟨rfl, rfl, rfl⟩ hstage

theorem inv_of_reachable {file : List Byte} {s : State} (h : (transfer file).Reachable s) :
    Inv file s :=
  h.invariant (inv_init file) fun s p t hs ht => by
    cases p with
    | client => exact inv_client hs ht
    | server => exact inv_server hs ht

/-- What the server has written when it ends, if it ended on the client's marker. -/
theorem outcome_done {file : List Byte} {s : State} (h : Inv file s) (hs : s.server = .done) :
    served (List.replicate size 0) (freadBlocks size file) =
      if s.client.marked then some s.output else none := by
  rw [← h.outcome]
  simp only [SharedMemory.outcome, stage, hs]

/-- Both processes come to rest only after the server ended, and after an end on the marker
the client has ended too. -/
theorem halted_done {file : List Byte} {s : State} (h : (transfer file).Reachable s)
    (hh : (transfer file).Halted s) :
    s.server = .done ∧ (s.client.marked = true → s.client = .done) := by
  have hinv := inv_of_reachable h
  obtain ⟨hturn, hcrit⟩ := hinv.semaphores
  have hclient : clientStep s = none := hh .client
  have hserver : serverStep s = none := hh .server
  have hfread : s.client ≠ .fread := by
    intro hc
    simp only [clientStep, hc] at hclient
    split at hclient <;> cases hclient
  have hd : s.server = .done := by
    cases hs : s.server
    case done => rfl
    case test =>
      simp only [serverStep, hs] at hserver
      split_ifs at hserver
    case waitEmpty =>
      have he : s.empty = 0 := by simpa [serverStep, hs] using hserver
      have hstored : s.client.marked = true → s.client.stored = true := fun hm => by
        by_contra hn
        simpa [stage, hs, he, hn] using (hinv.marked hm).2
      simp only [hs, ServerPc.turn, ServerPc.critical] at hturn hcrit
      cases hc : s.client <;>
        simp [clientStep, hc, ClientPc.turn, ClientPc.critical, ClientPc.marked,
          ClientPc.stored] at hclient hturn hcrit hstored hfread <;> omega
    case waitMutex =>
      have hm : s.mutex = 0 := by simpa [serverStep, hs] using hserver
      simp only [hs, ServerPc.turn, ServerPc.critical] at hturn hcrit
      cases hc : s.client <;>
        simp [clientStep, hc, ClientPc.turn, ClientPc.critical] at hclient hturn hcrit hfread <;>
        omega
    all_goals simp [serverStep, hs] at hserver
  refine ⟨hd, fun hm => ?_⟩
  cases hc : s.client <;> simp [clientStep, hc, ClientPc.marked] at hm hclient ⊢

theorem exists_halted (file : List Byte) :
    ∃ s, (transfer file).Reachable s ∧ (transfer file).Halted s := by
  obtain ⟨as, s, hr, hh⟩ := Machine.exists_run_halted (M := transfer file) (I := fun _ => True)
    (μ := remaining) (fun _ _ _ _ _ => trivial) (fun s p t _ ht => remaining_step s p t ht)
    (transfer file).init trivial
  exact ⟨s, ⟨as, hr⟩, hh⟩

/-- In every run the server ends only on the client's marker, and leaves the input as its
output once both have ended, exactly for the carried files. -/
theorem output_eq_file_iff_carried (file : List Byte) :
    (∀ s, (transfer file).Reachable s → s.server = .done →
      s.client.marked = true ∧ (s.client = .done → s.output = file)) ↔ Carried file := by
  rw [← served_eq_file_iff]
  constructor
  · intro h
    obtain ⟨s, hs, hh⟩ := exists_halted file
    obtain ⟨hd, hc⟩ := halted_done hs hh
    obtain ⟨hm, ho⟩ := h s hs hd
    rw [outcome_done (inv_of_reachable hs) hd, if_pos hm, ho (hc hm)]
  · intro h s hs hd
    have he := outcome_done (inv_of_reachable hs) hd
    rw [h] at he
    split_ifs at he with hm
    exact ⟨hm, fun _ => (Option.some.inj he).symm⟩

/-- One block, then the end marker. -/
def oneBlockRun : List Party :=
  List.replicate 6 .client ++ List.replicate 6 .server ++ List.replicate 6 .client ++
    List.replicate 3 .server

/-- A file of one byte arrives with 4095 bytes behind it. -/
theorem one_byte_file_padded :
    ∃ s, (transfer [0x61]).run oneBlockRun = some s ∧ s.server = .done ∧ s.client = .done ∧
      s.output.length = 4096 ∧ s.output ≠ [0x61] :=
  ⟨_, rfl, rfl, rfl, by decide +kernel, by decide +kernel⟩

end OsTasks.Transfer.SharedMemory
