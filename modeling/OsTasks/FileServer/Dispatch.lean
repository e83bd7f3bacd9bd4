import Mathlib.Data.Finset.Basic
import Mathlib.Data.Finset.Filter
import OsTasks.FileServer.Messages
import OsTasks.Lib.FdTable
import OsTasks.Lib.Machine

/-! The main loop of the file server of task_7 among its clients: one pass of the loop is `select`,
the command FIFO if it is ready, then the clients by number. A client's write is atomic and may
come between any two steps. -/
namespace OsTasks.FileServer.Dispatch
open OsTasks.Lib

/-- `MAX_NUM_OF_CLIENTS`. -/
def maxNumOfClients : ℕ := 64

/-- `FD_SETSIZE`. -/
def fdSetSize : ℕ := 1024

/-- `sizeof(rx_filename)`: what `add_client` allocates for a name. -/
def pointerSize : ℕ := 8

/-- "server_rx_fifo" -/
def cmdFifo : Name :=
  [0x73, 0x65, 0x72, 0x76, 0x65, 0x72, 0x5f, 0x72, 0x78, 0x5f, 0x66, 0x69, 0x66, 0x6f]

/-- The descriptors `server_init` gets. -/
structure Setup where
  rx : ℕ
  tx : ℕ
  rx_lt : rx < tx
  tx_lt : tx < fdSetSize

/-- `server_init` in a process that has `table` open. -/
def serverInit (table : FdTable Name) (txName : Name)
    (h : (table.put table.lowestFree cmdFifo).lowestFree < fdSetSize) : Setup :=
  let rx := table.alloc cmdFifo
  let tx := rx.2.alloc txName
  { rx := rx.1
    tx := tx.1
    rx_lt := table.lowestFree_lt_put cmdFifo
    tx_lt := h }

/-- `txFd` is `none` for a failed `open`. -/
structure Client where
  txFd : Option ℕ
  rxFilename : Name
  deriving DecidableEq

inductive Pc where
  | select
  | cmd
  | scan (i : ℕ)
  | exited
  /-- past the end of an array -/
  | fault
  deriving DecidableEq

/-- A `send_file` job, the client it was added for and the FIFO the request came from. -/
structure Job where
  client : ℕ
  source : Name
  request : Request
  deriving DecidableEq

structure State where
  pc : Pc
  clients : List Client
  maxFd : ℕ
  rfds : Finset ℕ
  /-- the FIFO a descriptor reads -/
  opened : ℕ → Option Name
  fifo : Name → List Byte
  /-- all that was written to a FIFO -/
  written : Name → List Message
  /-- the calls of `add_client` -/
  added : List (Name × Name)
  /-- the calls of `thpool_add_work` -/
  jobs : List Job

/-- What `server_cmd` cannot know: its uninitialised arrays, and what `open` returns. -/
structure Env where
  stack : Stack
  fd : Option ℕ

inductive Action where
  | write (n : Name) (m : Message)
  | select
  | cmd (env : Env)
  | scan
  /-- `select` fails, or an assertion of a job -/
  | abort

/-- Nothing waits in the command FIFO and those of the registered clients. -/
def Served (s : State) : Prop := s.fifo cmdFifo = [] ∧ ∀ p ∈ s.added, s.fifo p.1 = []

section Step
variable (setup : Setup)

def State.pending (s : State) (fd : ℕ) : List Byte := ((s.opened fd).map s.fifo).getD []

/-- The descriptors `select` leaves in the set. -/
def State.ready (s : State) : Finset ℕ :=
  s.rfds.filter fun fd => fd ≤ s.maxFd ∧ s.pending fd ≠ []

def State.write (s : State) (n : Name) (m : Message) : State :=
  { s with
    fifo := Function.update s.fifo n (s.fifo n ++ m.text)
    written := Function.update s.written n (s.written n ++ [m]) }

/-- `read` of the FIFO `n`. -/
def State.read (s : State) (n : Name) : State :=
  { s with fifo := Function.update s.fifo n ((s.fifo n).drop bufSize) }

/-- A client beyond the array, or a name that does not fit where it is copied, is a fault. -/
def addClient (s : State) (tx rx : Name) (fd : Option ℕ) : State :=
  { s with
    pc := if s.clients.length < maxNumOfClients ∧ rx.length < pointerSize then .scan 0 else .fault
    clients := s.clients ++ [⟨fd, rx⟩]
    maxFd := max s.maxFd (fd.getD 0)
    opened := fd.elim s.opened fun fd => Function.update s.opened fd (some tx)
    added := s.added ++ [(tx, rx)] }

def serverCmd (s : State) (env : Env) : Option State :=
  if s.fifo cmdFifo = [] then none
  else
    match command env.stack ((s.fifo cmdFifo).take bufSize) with
    | none => some { s.read cmdFifo with pc := .fault }
    | some .off => some { s.read cmdFifo with pc := .exited }
    | some .unknown => some { s.read cmdFifo with pc := .scan 0 }
    | some (.reg tx rx) => some (addClient (s.read cmdFifo) tx rx env.fd)

/-- `client_request` for client `i`, whose descriptor `fd` reads the FIFO `n`. -/
def serveClient (s : State) (i : ℕ) (c : Client) (fd : ℕ) (n : Name) : Option State :=
  if s.fifo n = [] then none
  else
    match clientRequest ((s.fifo n).take bufSize) with
    | none => some { s.read n with pc := .fault }
    | some file =>
      some { s.read n with
        pc := .scan (i + 1)
        rfds := s.rfds.erase fd
        jobs := s.jobs ++ (file.map fun f => ⟨i, n, ⟨c.rxFilename, f⟩⟩).toList }

/-- The set `reinit_select` builds. -/
def watchSet (s : State) : Finset ℕ := insert setup.rx (s.clients.filterMap Client.txFd).toFinset

/-- The loop over the clients, at client `i`. `FD_ISSET` and `FD_SET` on -1 or beyond the set leave
it. -/
def scanStep (s : State) (i : ℕ) : Option State :=
  match s.clients[i]? with
  | none => some { s with pc := .select, rfds := watchSet setup s }
  | some c =>
    match c.txFd.filter (· < fdSetSize) with
    | none => some { s with pc := .fault }
    | some fd =>
      if fd ∈ s.rfds ∧ fd ≠ 0 then (s.opened fd).bind (serveClient s i c fd)
      else some { s with pc := .scan (i + 1) }

def step (s : State) : Action → Option State
  | .write n m => some (s.write n m)
  | .select =>
    if s.pc = .select ∧ s.ready.Nonempty then
      some { s with rfds := s.ready, pc := if setup.rx ∈ s.ready then .cmd else .scan 0 }
    else none
  | .cmd env =>
    if s.pc = .cmd ∧ ∀ fd ∈ env.fd, fd ≠ 0 ∧ fd ≠ setup.tx ∧ s.opened fd = none then
      serverCmd s env
    else none
  | .scan =>
    match s.pc with
    | .scan i => scanStep setup s i
    | _ => none
  | .abort => if s.pc = .exited ∨ s.pc = .fault then none else some { s with pc := .exited }

def dispatch : Machine State Action where
  init := {
    pc := .select
    clients := []
    maxFd := setup.tx
    rfds := {setup.rx}
    opened := fun fd => if fd = setup.rx then some cmdFifo else none
    fifo := fun _ => []
    written := fun _ => []
    added := []
    jobs := [] }
  step := step setup

/-- The server can do nothing. -/
def Idle (s : State) : Prop :=
  step setup s .select = none ∧ (∀ env, step setup s (.cmd env) = none) ∧
    step setup s .scan = none

end Step

/-- The FIFO `n` holds exactly the message written to it last. -/
def Single (s : State) (n : Name) : Prop := ∃ m ∈ (s.written n).getLast?, s.fifo n = m.text

/-- `add_client` has room, memory for the name and an open FIFO, which is no other one's. -/
structure Fits (s : State) (tx rx : Name) (fd : Option ℕ) : Prop where
  room : s.clients.length < maxNumOfClients
  name : rx.length < pointerSize
  opens : ∃ n ∈ fd, n < fdSetSize
  ne_cmdFifo : tx ≠ cmdFifo
  fresh : ∀ p ∈ s.added, p.1 ≠ tx

/-- What a step needs to lose no message: it reads one message alone, adds clients that fit, and
ends the server, or writes to one, only when nothing waits. -/
def Ok (s : State) : Action → Prop
  | .write _ _ => s.pc ≠ .exited
  | .select => True
  | .cmd env =>
    Single s cmdFifo ∧
      ∃ c, command env.stack ((s.fifo cmdFifo).take bufSize) = some c ∧
        (c = .off → ∀ p ∈ s.added, s.fifo p.1 = []) ∧
        ∀ tx rx, c = .reg tx rx → Fits s tx rx env.fd
  | .scan =>
    ∀ i c, s.pc = .scan i → s.clients[i]? = some c → ∀ fd ∈ c.txFd, fd ∈ s.rfds →
      ∀ n ∈ s.opened fd, Single s n
  | .abort => Served s

section Scan
variable {setup : Setup} {s t : State}

theorem exists_scan (ht : step setup s .scan = some t) :
    ∃ i, s.pc = .scan i ∧ scanStep setup s i = some t := by
  unfold step at ht
  cases hpc : s.pc with
  | scan i => exact ⟨i, rfl, by simpa only [hpc] using ht⟩
  | select => simp [hpc] at ht
  | cmd => simp [hpc] at ht
  | exited => simp [hpc] at ht
  | fault => simp [hpc] at ht

/-- What the loop over the clients does at client `i`. -/
inductive Scanned (setup : Setup) (s : State) (i : ℕ) : State → Prop where
  | finish (hc : s.clients[i]? = none) :
      Scanned setup s i { s with pc := .select, rfds := watchSet setup s }
  | noFd {c : Client} (hc : s.clients[i]? = some c)
      (hfd : c.txFd.filter (· < fdSetSize) = none) : Scanned setup s i { s with pc := .fault }
  | skip {c : Client} {fd : ℕ} (hc : s.clients[i]? = some c)
      (hfd : c.txFd.filter (· < fdSetSize) = some fd) (hmem : ¬ (fd ∈ s.rfds ∧ fd ≠ 0)) :
      Scanned setup s i { s with pc := .scan (i + 1) }
  | overread {c : Client} {fd : ℕ} {n : Name} (hc : s.clients[i]? = some c)
      (hfd : c.txFd.filter (· < fdSetSize) = some fd) (hmem : fd ∈ s.rfds ∧ fd ≠ 0)
      (hn : s.opened fd = some n) (hreq : clientRequest ((s.fifo n).take bufSize) = none) :
      Scanned setup s i { s.read n with pc := .fault }
  | serve {c : Client} {fd : ℕ} {n : Name} {file : Option Name} (hc : s.clients[i]? = some c)
      (hfd : c.txFd.filter (· < fdSetSize) = some fd) (hmem : fd ∈ s.rfds ∧ fd ≠ 0)
      (hn : s.opened fd = some n) (hreq : clientRequest ((s.fifo n).take bufSize) = some file) :
      Scanned setup s i { s.read n with
        pc := .scan (i + 1)
        rfds := s.rfds.erase fd
        jobs := s.jobs ++ (file.map fun f => ⟨i, n, ⟨c.rxFilename, f⟩⟩).toList }

theorem scanned_of_step {i : ℕ} (ht : scanStep setup s i = some t) : Scanned setup s i t := by
  unfold scanStep at ht
  cases hc : s.clients[i]? with
  | none =>
    rw [hc] at ht
    cases ht
    exact .finish hc
  | some c =>
    rw [hc] at ht
    dsimp only at ht
    cases hfd : c.txFd.filter (· < fdSetSize) with
    | none =>
      rw [hfd] at ht
      cases ht
      exact .noFd hc hfd
    | some fd =>
      rw [hfd] at ht
      dsimp only at ht
      by_cases hmem : fd ∈ s.rfds ∧ fd ≠ 0
      · rw [if_pos hmem] at ht
        obtain ⟨n, hn, hserve⟩ := Option.bind_eq_some_iff.mp ht
        obtain ⟨_, hserve⟩ := Option.ite_none_left_eq_some.mp hserve
        cases hreq : clientRequest ((s.fifo n).take bufSize) with
        | none =>
          rw [hreq] at hserve
          cases hserve
          exact .overread hc hfd hmem hn hreq
        | some file =>
          rw [hreq] at hserve
          cases hserve
          exact .serve hc hfd hmem hn hreq
      · rw [if_neg hmem] at ht
        cases ht
        exact .skip hc hfd hmem

end Scan

end OsTasks.FileServer.Dispatch
