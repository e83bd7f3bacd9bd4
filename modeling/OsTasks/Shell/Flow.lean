import OsTasks.Lib.CString
import OsTasks.Shell.Pipeline
import Mathlib.Data.List.GetD

/-! `seq_pipe` with the bytes that go through the pipes, and what a pipeline is to compute: each
program on what the one before it wrote. -/
namespace OsTasks.Shell.Flow
open OsTasks.Lib

/-- What a program does next. A read gives a byte or the end of file. -/
inductive Op (σ : Type*) where
  | exit
  | write (b : Byte) (q : σ)
  | read (k : Option Byte → σ)

/-- The shell, its child, the bytes in the pipes and the terminal. -/
structure State (σ : Type*) extends ShellState σ (List Byte) where
  stdin : List Byte
  stdout : List Byte

section SeqPipe
variable {σ : Type*} (capacity : ℕ) (next : σ → Op σ) (progs : List σ)

def State.run (s : State σ) (c : Child σ) (q : σ) : State σ :=
  { s with child := some { c with pc := .running q } }

/-- One read. It waits on an empty pipe while a process holds the write end. -/
def readStep (s : State σ) (c : Child σ) (k : Option Byte → σ) : Option (State σ) :=
  match c.table.get 0 with
  | some (.pipeRead p) =>
    match s.pipes p with
    | b :: bs => some { s.run c (k (some b)) with pipes := Function.update s.pipes p bs }
    | [] => if s.Holds (.pipeWrite p) then none else some (s.run c (k none))
  | _ => some { s.run c (k s.stdin.head?) with stdin := s.stdin.tail }

/-- One write. It waits on a full pipe; without a reader the writer is killed. -/
def writeStep (s : State σ) (c : Child σ) (b : Byte) (q : σ) : Option (State σ) :=
  match c.table.get 1 with
  | some (.pipeWrite p) =>
    if ¬ s.Holds (.pipeRead p) then some { s with child := some c.exit }
    else if (s.pipes p).length < capacity then
      some { s.run c q with pipes := Function.update s.pipes p (s.pipes p ++ [b]) }
    else none
  | _ => some { s.run c q with stdout := s.stdout ++ [b] }

def childStep (s : State σ) : Option (State σ) :=
  match s.child with
  | none => none
  | some c =>
    match c.pc with
    | .forked => progs[c.locals.i]?.map fun q =>
        s.run { c with table := childTable progs c.locals c.table } q
    | .running q =>
      match next q with
      | .exit => some { s with child := some c.exit }
      | .read k => readStep s c k
      | .write b q' => writeStep capacity s c b q'
    | .exited => none

def step (s : State σ) : Action → Option (State σ)
  | .shell => (shellStep [] progs s.toShellState).map fun t => { s with toShellState := t }
  | .forkFailure => if s.pc = .fork then some { s with table := .empty, pc := .exited } else none
  | .child => childStep capacity next progs s

/-- The call of `seq_pipe`, with what is typed at the terminal. -/
def seqPipe (start : Startup) (stdin : List Byte) : Machine (State σ) Action where
  init := { startState [] start.table with stdin := stdin, stdout := [] }
  step := step capacity next progs

end SeqPipe

section Composition
variable {σ : Type*} (next : σ → Op σ)

/-- A program run on its input: what it writes, and its reads and writes in order. -/
inductive Runs : σ → List Byte → List Byte → Command → Prop
  | exit {q : σ} {input : List Byte} : next q = .exit → Runs q input [] []
  | write {q q' : σ} {b : Byte} {input output : List Byte} {acts : Command} :
      next q = .write b q' → Runs q' input output acts →
      Runs q input (b :: output) (.write :: acts)
  | read {q : σ} {k : Option Byte → σ} {input output : List Byte} {acts : Command} :
      next q = .read k → Runs (k input.head?) input.tail output acts →
      Runs q input output (.read :: acts)

/-- Each program on what the one before it wrote. -/
inductive Chain : List σ → List Byte → List (List Byte) → List Command → Prop
  | nil {input : List Byte} : Chain [] input [] []
  | cons {q : σ} {qs : List σ} {input output : List Byte} {outputs : List (List Byte)}
      {acts : Command} {cmds : List Command} :
      Runs next q input output acts → Chain qs output outputs cmds →
      Chain (q :: qs) input (output :: outputs) (acts :: cmds)

end Composition

end OsTasks.Shell.Flow
