import OsTasks.FileServer.Messages
import OsTasks.Lib.Blocks
import OsTasks.Lib.Machine
import OsTasks.Lib.Multiplex

/-! The file server of task_7: the `send_file` jobs on the thread pool and the streams they
write. The pool runs each added job once, at most four at a time, in any order; a write to a FIFO
is atomic. -/
namespace OsTasks.FileServer
open OsTasks.Lib

def threads : ℕ := 4

/-- Which FIFOs open for writing, and what the files hold. -/
structure World where
  opens : Name → Bool
  file : Name → Option (List Byte)

inductive SendPc where
  | openDest
  | openFile
  | copy (rest : List Byte)
  deriving DecidableEq

inductive JobPc where
  | waiting
  | queued
  | running (pc : SendPc)
  | finished
  deriving DecidableEq

def JobPc.busy : JobPc → Bool
  | .running _ => true
  | _ => false

structure PoolState where
  dispatched : ℕ
  job : ℕ → JobPc
  /-- what was written to each FIFO, by which job -/
  stream : Name → List (ℕ × List Byte)
  aborted : Bool

inductive PoolAction where
  | dispatch
  | take (j : ℕ)
  | send (j : ℕ)

section Pool
variable (w : World) (reqs : List Request)

def PoolState.setJob (s : PoolState) (j : ℕ) (pc : JobPc) : PoolState :=
  { s with job := Function.update s.job j pc }

/-- One step of `send_file`. A failed assertion ends the whole process. -/
def sendFile (s : PoolState) (j : ℕ) (r : Request) : SendPc → PoolState
  | .openDest =>
    if w.opens r.destFileName then s.setJob j (.running .openFile)
    else { s with aborted := true }
  | .openFile =>
    match w.file r.fileName with
    | none => { s with aborted := true }
    | some content => s.setJob j (.running (.copy content))
  | .copy [] => s.setJob j .finished
  | .copy (b :: bs) =>
    { s.setJob j (.running (.copy ((b :: bs).drop bufSize))) with
      stream := Function.update s.stream r.destFileName
        (s.stream r.destFileName ++ [(j, (b :: bs).take bufSize)]) }

def poolStep (s : PoolState) (a : PoolAction) : Option PoolState :=
  if s.aborted then none
  else
    match a with
    | .dispatch =>
      if s.dispatched < reqs.length then
        some { s.setJob s.dispatched .queued with dispatched := s.dispatched + 1 }
      else none
    | .take j =>
      if s.job j = .queued ∧ ((List.range reqs.length).countP fun k => (s.job k).busy) < threads
      then some (s.setJob j (.running .openDest)) else none
    | .send j =>
      match s.job j, reqs[j]? with
      | .running pc, some r => some (sendFile w s j r pc)
      | _, _ => none

def pool : Machine PoolState PoolAction where
  init := ⟨0, fun _ => .waiting, fun _ => [], false⟩
  step := poolStep w reqs

/-- What job `j` has to send. -/
def content (j : ℕ) : List Byte := (reqs[j]?.bind fun r => w.file r.fileName).getD []

def blocks (j : ℕ) : List (List Byte) := freadBlocks bufSize (content w reqs j)

/-- The jobs for one client. -/
def jobsFor (rx : Name) : List ℕ :=
  (List.range reqs.length).filter fun j => reqs[j]?.map Request.destFileName = some rx

end Pool

end OsTasks.FileServer
