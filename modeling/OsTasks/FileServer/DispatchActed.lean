import OsTasks.FileServer.DispatchWatch
import OsTasks.Lib.Mailbox

/-! Which runs of the file server act on every message: the account of the messages read, and the
runs in which each of them is read alone. -/
namespace OsTasks.FileServer.Dispatch
open OsTasks.Lib

/-- The jobs that a message in the FIFO `n` makes: for a request one, with its file and the
other name of the client that was added with `n`. -/
def Queues (added : List (Name × Name)) (n : Name) (m : Message) (jobs : List Job) : Prop :=
  ∀ file, m.line = .get file → ∃ j, jobs = [j] ∧ j.request.fileName = file.bytes ∧
    added[j.client]? = some (n, j.request.destFileName)

def State.jobsFrom (s : State) (n : Name) : List Job := s.jobs.filter fun j => j.source = n

/-- The messages read have made their calls and jobs, in order, and the others are whole in their
FIFOs; when the server can do nothing, all of the command FIFO and of the registered clients have
been read. -/
structure Acted (setup : Setup) (s : State) : Prop where
  commands : Answered Message.text Adds (s.written cmdFifo) (s.fifo cmdFifo) s.added
  requests : ∀ n, n ≠ cmdFifo →
    Answered Message.text (Queues s.added n) (s.written n) (s.fifo n) (s.jobsFrom n)
  idle : Idle setup s → Answers Adds (s.written cmdFifo) s.added ∧
    ∀ p ∈ s.added, Answers (Queues s.added p.1) (s.written p.1) (s.jobsFrom p.1)

variable {setup : Setup}

/-- The first two clauses of `Acted`. -/
structure Accounted (s : State) : Prop where
  commands : Answered Message.text Adds (s.written cmdFifo) (s.fifo cmdFifo) s.added
  requests : ∀ n, n ≠ cmdFifo →
    Answered Message.text (Queues s.added n) (s.written n) (s.fifo n) (s.jobsFrom n)

theorem accounted_init : Accounted (dispatch setup).init :=
  ⟨answered_nil, fun _ _ => answered_nil⟩

theorem accounted_write {s : State} (hs : Accounted s) (n : Name) (m : Message) :
    Accounted (s.write n m) := by
  have hwritten : ∀ n', n' ≠ n → (s.write n m).written n' = s.written n' :=
    fun n' h => Function.update_of_ne h _ _
  have hfifo : ∀ n', n' ≠ n → (s.write n m).fifo n' = s.fifo n' :=
    fun n' h => Function.update_of_ne h _ _
  have hwritten' : (s.write n m).written n = s.written n ++ [m] := Function.update_self _ _ _
  have hfifo' : (s.write n m).fifo n = s.fifo n ++ m.text := Function.update_self _ _ _
  constructor
  · by_cases h : cmdFifo = n
    · subst h
      rw [hwritten', hfifo']
      exact hs.commands.write m
    · rw [hwritten _ h, hfifo _ h]
      exact hs.commands
  · intro n' hn'
    by_cases h : n' = n
    · subst h
      rw [hwritten', hfifo']
      exact (hs.requests n' hn').write m
    · rw [hwritten _ h, hfifo _ h]
      exact hs.requests n' hn'

/-- The message the server reads from the command FIFO makes the calls `calls`. -/
theorem accounted_cmd {s t : State} (hs : Accounted s) {m : Message} (hm : Alone s cmdFifo m)
    {calls : List (Name × Name)} (hadds : Adds m calls) (hw : t.written = s.written)
    (hf : t.fifo = (s.read cmdFifo).fifo) (ha : t.added = s.added ++ calls)
    (hj : t.jobs = s.jobs) : Accounted t := by
  constructor
  · rw [hw, hf, ha, hm.read]
    exact hs.commands.read Message.text_ne_nil hm.1 hm.2 hadds
  · intro n hn
    rw [hw, hf, read_fifo_of_ne hn]
    unfold State.jobsFrom
    rw [hj]
    apply (hs.requests n hn).imp
    intro m' jobs hq file hfile
    obtain ⟨j, rfl, hname, hadded⟩ := hq file hfile
    refine ⟨j, rfl, hname, ?_⟩
    have hlt := (List.getElem?_eq_some_iff.mp hadded).1
    rw [ha, List.getElem?_append_left hlt, hadded]

theorem queues_serve {s : State} {i : ℕ} {c : Client} {fd : ℕ} {n : Name} {m : Message}
    {file : Option Name} (hserves : Serves s i c fd n)
    (hfile : clientRequest m.text = some file) :
    Queues s.added n m (file.map fun f => (⟨i, n, ⟨c.rxFilename, f⟩⟩ : Job)).toList := by
  intro f hf
  rw [clientRequest_get hf] at hfile
  cases hfile
  exact ⟨_, rfl, rfl, hserves.added⟩

theorem accounted_serve {s : State} (hs : Accounted s) {i : ℕ} {c : Client} {fd : ℕ} {n : Name}
    {m : Message} {file : Option Name} (hserves : Serves s i c fd n) (hm : Alone s n m)
    (hfile : clientRequest m.text = some file) :
    Accounted { s.read n with
      pc := .scan (i + 1)
      rfds := s.rfds.erase fd
      jobs := s.jobs ++ (file.map fun f => ⟨i, n, ⟨c.rxFilename, f⟩⟩).toList } := by
  constructor
  · change Answered _ _ (s.written cmdFifo) ((s.read n).fifo cmdFifo) s.added
    rw [read_fifo_of_ne hserves.ne_cmdFifo.symm]
    exact hs.commands
  · intro n' hn'
    unfold State.jobsFrom
    rw [List.filter_append]
    change Answered _ _ (s.written n') ((s.read n).fifo n') _
    by_cases h : n' = n
    · subst h
      have hall : ((file.map fun f => (⟨i, n', ⟨c.rxFilename, f⟩⟩ : Job)).toList.filter
          fun j => j.source = n') =
          (file.map fun f => (⟨i, n', ⟨c.rxFilename, f⟩⟩ : Job)).toList := by
        cases file <;> simp
      rw [hall, hm.read]
      exact (hs.requests n' hn').read Message.text_ne_nil hm.1 hm.2 (queues_serve hserves hfile)
    · have hnone : ((file.map fun f => (⟨i, n, ⟨c.rxFilename, f⟩⟩ : Job)).toList.filter
          fun j => j.source = n') = [] := by
        cases file <;> simp [Ne.symm h]
      rw [hnone, List.append_nil, read_fifo_of_ne h]
      exact hs.requests n' hn'

theorem accounted_moved {s t : State} (hs : Accounted s) (ht : Moved setup s t) : Accounted t := by
  cases ht with
  | write n m hpc => exact accounted_write hs n m
  | off hpc hm hadds hn =>
    exact accounted_cmd hs hm hadds rfl rfl (List.append_nil _).symm rfl
  | unknown hpc hm hadds =>
    exact accounted_cmd hs hm hadds rfl rfl (List.append_nil _).symm rfl
  | register hpc hm hadds hfits hfd h0 hnew => exact accounted_cmd hs hm hadds rfl rfl rfl rfl
  | serve hpc hc hserves hm hfile => exact accounted_serve hs hserves hm hfile
  | select hpc => exact ⟨hs.commands, hs.requests⟩
  | finish hpc => exact ⟨hs.commands, hs.requests⟩
  | skip hpc => exact ⟨hs.commands, hs.requests⟩
  | abort h => exact ⟨hs.commands, hs.requests⟩

theorem Accounted.acted {s : State} (h : Accounted s) (hs : Watching setup s)
    (hreg : Registered setup s) : Acted setup s := by
  refine ⟨h.commands, h.requests, fun hidle => ?_⟩
  obtain ⟨hcmd, hclients⟩ := served_of_idle hs hreg hidle
  constructor
  · have hc := h.commands
    rw [hcmd] at hc
    exact hc.answers Message.text_ne_nil
  · intro p hp
    have hne : p.1 ≠ cmdFifo := by
      obtain ⟨i, c, fd, hserves⟩ := hreg.exists_serves hp
      exact hserves.ne_cmdFifo
    have hr := h.requests p.1 hne
    rw [hclients p hp] at hr
    exact hr.answers Message.text_ne_nil

/-- In a run whose steps each read one message alone and add only clients that fit, the server
acts on every message, exactly once. -/
theorem acted_of_ok (setup : Setup) {as : List Action} {s : State}
    (hs : (dispatch setup).run as = some s)
    (hok : (dispatch setup).AllSteps Ok (dispatch setup).init as) : Acted setup s := by
  have hstep : ∀ u a v, Registered setup u ∧ Watching setup u ∧ Accounted u → Ok u a →
      (dispatch setup).step u a = some v →
      Registered setup v ∧ Watching setup v ∧ Accounted v := by
    rintro u a v ⟨hreg, hwatch, hacc⟩ ha hv
    have hmoved := moved_of_ok hreg ha hv
    exact ⟨registered_moved hreg hmoved, watching_moved hwatch hreg hmoved,
      accounted_moved hacc hmoved⟩
  obtain ⟨hreg, hwatch, hacc⟩ := Machine.runFrom_invariant_of_allSteps hstep
    ⟨registered_init, watching_init, accounted_init⟩ hok hs
  exact hacc.acted hwatch hreg

/-- The table of a process that has nothing but the standard streams. -/
def standardStreams : FdTable Name :=
  ((FdTable.empty.put 0 []).put 1 []).put 2 []

/-- "server_tx_fifo" -/
def txFifo : Name :=
  [0x73, 0x65, 0x72, 0x76, 0x65, 0x72, 0x5f, 0x74, 0x78, 0x5f, 0x66, 0x69, 0x66, 0x6f]

/-- The first descriptors after the standard streams. -/
def lowest : Setup := serverInit standardStreams txFifo (by decide)

/-- The arrays of `server_cmd` on a fresh page, and the descriptor `fd`. -/
def fresh (fd : ℕ) : Env := ⟨⟨List.replicate bufSize 0, List.length_replicate, [], [], []⟩, some fd⟩

def tokenOf (b : Byte) (h : isToken b = true) : Token :=
  ⟨[b], List.cons_ne_nil _ _, by simpa using h⟩

/-- "REG a b" -/
def regA : Message :=
  ⟨.reg (tokenOf 0x61 (by decide)) (tokenOf 0x62 (by decide)), by decide, by decide⟩

/-- "REG c d" -/
def regC : Message :=
  ⟨.reg (tokenOf 0x63 (by decide)) (tokenOf 0x64 (by decide)), by decide, by decide⟩

/-- "GET f" -/
def getF : Message := ⟨.get (tokenOf 0x66 (by decide)), by decide, by decide⟩

/-- "GET g" -/
def getG : Message := ⟨.get (tokenOf 0x67 (by decide)), by decide, by decide⟩

/-- Two registrations in passes of their own, and a pass with a request of each client. -/
def twoClients : List Action :=
  [.write cmdFifo regA, .select, .cmd (fresh 5), .scan, .scan,
    .write cmdFifo regC, .select, .cmd (fresh 6), .scan, .scan, .scan,
    .write [0x61] getF, .write [0x63] getG, .select, .scan, .scan, .scan]

/-- A registration, and a request in the next pass. -/
def onePassEach : List Action :=
  [.write cmdFifo regA, .select, .cmd (fresh 5), .scan, .scan, .write [0x61] getF, .select, .scan,
    .scan]

theorem one_request_queued :
    ∃ s, (dispatch lowest).run onePassEach = some s ∧
      s.jobs = [⟨0, [0x61], ⟨[0x62], [0x66]⟩⟩] ∧ Acted lowest s := by
  have hrun : (dispatch lowest).run onePassEach = some _ := rfl
  refine ⟨_, hrun, rfl, acted_of_ok lowest hrun ?_⟩
  refine .cons (show Pc.select ≠ .exited by decide) rfl ?_
  refine .cons trivial rfl ?_
  refine .cons ⟨⟨regA, rfl, rfl⟩, .reg [0x61] [0x62], rfl, nofun, ?_⟩ rfl ?_
  · intro tx rx h
    cases h
    exact ⟨by decide, by decide, ⟨5, rfl, by decide⟩, by decide, nofun⟩
  refine .cons ?_ rfl ?_
  · intro i c hpc hc fd hfd hmem
    cases hpc
    cases hc
    cases hfd
    exact absurd hmem (by decide)
  refine .cons ?_ rfl ?_
  · intro i c hpc hc
    cases hpc
    cases hc
  refine .cons (show Pc.select ≠ .exited by decide) rfl ?_
  refine .cons trivial rfl ?_
  refine .cons ?_ rfl ?_
  · intro i c hpc hc fd hfd _ n hn
    cases hpc
    cases hc
    cases hfd
    cases hn
    exact ⟨getF, rfl, rfl⟩
  refine .cons ?_ rfl trivial
  intro i c hpc hc
  cases hpc
  cases hc

/-- Two registrations before one pass of the loop. -/
def bothPending : List Action :=
  [.write cmdFifo regA, .write cmdFifo regC, .select, .cmd (fresh 5), .scan, .scan]

theorem second_registration_dropped :
    ∃ s, (dispatch lowest).run bothPending = some s ∧ s.written cmdFifo = [regA, regC] ∧
      s.fifo cmdFifo = [] ∧ s.added = [([0x61], [0x62])] ∧ ¬ Acted lowest s := by
  refine ⟨_, rfl, rfl, rfl, rfl, ?_⟩
  intro h
  have hc : Answers Adds [regA, regC] [([0x61], [0x62])] :=
    h.commands.answers Message.text_ne_nil
  obtain ⟨answers, hr, he⟩ := hc
  cases hr with
  | cons ha hr =>
    cases hr with
    | cons hb hr =>
      cases hr
      rw [ha _ _ rfl, hb _ _ rfl] at he
      cases he

end OsTasks.FileServer.Dispatch
