import OsTasks.Integral.Split
import OsTasks.Lib.CString
import OsTasks.Lib.Machine

/-! The master of task_8: `gather_results` over the workers' connections. One step is one pass
of the loop; what arrived before `select` returned is its label. -/
namespace OsTasks.Integral
open OsTasks.Lib

structure Conn where
  buffered : List Byte
  closed : Bool
  error : Bool

inductive NetEvent where
  | segment (bytes : List Byte)
  | close
  | reset

def Conn.deliver (c : Conn) : NetEvent → Conn
  | .segment bytes => { c with buffered := c.buffered ++ bytes }
  | .close => { c with closed := true }
  | .reset => { c with closed := true, error := true }

def Conn.Readable (c : Conn) : Prop := c.buffered ≠ [] ∨ c.closed = true ∨ c.error = true

instance (c : Conn) : Decidable c.Readable := inferInstanceAs (Decidable (_ ∨ _ ∨ _))

inductive RecvResult where
  | bytes (l : List Byte)
  | endOfStream
  | error

/-- `recv` on a readable socket. A pending error is reported once. -/
def recv (size : ℕ) (c : Conn) : RecvResult × Conn :=
  if c.buffered ≠ [] then
    (.bytes (c.buffered.take size), { c with buffered := c.buffered.drop size })
  else if c.error then (.error, { c with error := false })
  else (.endOfStream, c)

def sizeofDouble : ℕ := 8

/-- What happened before `select` returned. -/
inductive Wake where
  | arrivals (batch : List (ℕ × NetEvent))
  | failure

inductive LoopPhase where
  | running
  | timedOut
  | exited
  deriving DecidableEq

/-- The workers' sockets, `readSet` and `responsesReceived`. -/
structure Gather where
  conns : ℕ → Conn
  readSet : Finset ℕ
  responsesReceived : ℕ

structure GatherState where
  workers : List Worker
  maxfd : ℕ
  gather : Gather
  phase : LoopPhase

def deliverAll (conns : ℕ → Conn) (batch : List (ℕ × NetEvent)) : ℕ → Conn :=
  batch.foldl (fun cs e => Function.update cs e.1 ((cs e.1).deliver e.2)) conns

/-- The maximum starts from the last worker's socket: without workers there is none. -/
def maxFd (workers : List Worker) : Option ℕ := do
  let last ← workers.getLast?
  return workers.foldl (fun m w => if m < w.socket then w.socket else m) last.socket

/-- `select` leaves in the set the descriptors below `nfds` that can be read. -/
def select (nfds : ℕ) (readSet : Finset ℕ) (conns : ℕ → Conn) : Finset ℕ :=
  readSet.filter fun fd => fd < nfds ∧ (conns fd).Readable

theorem nodup_sockets_cons {v : Worker} {vs : List Worker}
    (hd : ((v :: vs).map Worker.socket).Nodup) :
    (∀ w ∈ vs, v.socket ≠ w.socket) ∧ (vs.map Worker.socket).Nodup := by
  rw [List.map_cons, List.nodup_cons] at hd
  refine ⟨?_, hd.2⟩
  intro w hw he
  apply hd.1
  rw [he]
  exact List.mem_map_of_mem hw

section Loop
variable (decode : List Byte → ℚ)

/-- The body of the scan over the workers. A read of 1 to 7 bytes takes the branch of a failed
one. -/
def serve (w : Worker) (g : Gather) : Worker × Gather :=
  if w.socket ∈ g.readSet then
    let (r, c) := recv sizeofDouble (g.conns w.socket)
    let conns := Function.update g.conns w.socket c
    match r with
    | .bytes l =>
      if l.length = sizeofDouble then
        ({ w with result := decode l },
          { conns := conns
            readSet := g.readSet.erase w.socket
            responsesReceived := g.responsesReceived + 1 })
      else (w, { g with conns := conns })
    | .endOfStream => (w, { g with conns := conns, readSet := g.readSet.erase w.socket })
    | .error => (w, { g with conns := conns })
  else (w, g)

def scan : List Worker → Gather → List Worker × Gather
  | [], g => ([], g)
  | w :: ws, g =>
    let (w', g') := serve decode w g
    let (ws', g'') := scan ws g'
    (w' :: ws', g'')

def pass (s : GatherState) : Wake → GatherState
  | .failure => { s with phase := .exited }
  | .arrivals batch =>
    let conns := deliverAll s.gather.conns batch
    let ready := select (s.maxfd + 1) s.gather.readSet conns
    let g := { s.gather with conns := conns, readSet := ready }
    if ready = ∅ then { s with gather := g, phase := .timedOut }
    else
      let (workers, g) := scan decode s.workers g
      { s with workers := workers, gather := g }

/-- The loop guard. -/
def GatherState.Looping (s : GatherState) : Prop :=
  s.phase = .running ∧ s.gather.responsesReceived < s.workers.length

instance (s : GatherState) : Decidable s.Looping := inferInstanceAs (Decidable (_ ∧ _))

/-- The state in which the loop is entered. -/
def gatherStart (workers : List Worker) (conns : ℕ → Conn) : Option GatherState := do
  let maxfd ← maxFd workers
  return {
    workers := workers
    maxfd := maxfd
    gather := ⟨conns, (workers.map Worker.socket).toFinset, 0⟩
    phase := .running }

def gatherLoop (start : GatherState) : Machine GatherState Wake where
  init := start
  step := fun s wake => if s.Looping then some (pass decode s wake) else none

/-- `gather_results` with the successive wakes of `select` returns `v`. -/
def GatherReturns (workers : List Worker) (conns : ℕ → Conn) (wakes : ℕ → Wake) (v : ℚ) : Prop :=
  ∃ start k s, gatherStart workers conns = some start ∧
    (gatherLoop decode start).run ((List.range k).map wakes) = some s ∧
    ¬ s.Looping ∧ s.phase ≠ .exited ∧ (s.workers.map Worker.result).sum = v

end Loop

end OsTasks.Integral
