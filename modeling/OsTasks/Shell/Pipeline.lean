import OsTasks.Lib.FdTable
import OsTasks.Lib.Machine

/-! The shell of task_1: `seq_pipe`, its children and the pipes between them. Pipes are counted
in bytes; a command is what it does after `execvp`, byte by byte (nothing when `execvp` fails). -/
namespace OsTasks.Shell
open OsTasks.Lib

inductive File where
  /-- whatever the shell had open before the call -/
  | other (n : ℕ)
  | pipeRead (p : ℕ)
  | pipeWrite (p : ℕ)
  deriving DecidableEq

/-- A read of standard input or a write to standard output. -/
inductive IoAction where
  | read
  | write
  deriving DecidableEq

abbrev Command := List IoAction

/-- The variables of `seq_pipe`. -/
structure Locals where
  fdIn : ℕ
  p0 : ℕ
  p1 : ℕ
  i : ℕ

/-- Where a child is, and what its command has left to do. -/
inductive ChildPc (ρ : Type*) where
  | forked
  | running (rest : ρ)
  | exited

structure Child (ρ : Type*) where
  locals : Locals
  table : FdTable File
  pc : ChildPc ρ

inductive ShellPc where
  | test
  | fork
  | wait
  | close
  | returned
  | exited
  deriving DecidableEq

/-- The shell and its child, for any account `π` of what lies in a pipe. -/
structure ShellState (ρ π : Type*) where
  table : FdTable File
  pc : ShellPc
  locals : Locals
  child : Option (Child ρ)
  pipes : ℕ → π

/-- The number of bytes in each pipe. -/
abbrev State := ShellState Command ℕ

/-- The shell's descriptors when `seq_pipe` is called: 0, 1 and 2 are open, and no pipe is one of
those the call will make. -/
structure Startup where
  table : FdTable File
  open_std : ∀ n < 3, ∃ x, table.get n = some (.other x)
  no_pipe : ∀ n f, table.get n = some f → ∃ x, f = .other x

def ShellState.Holds {ρ π : Type*} (s : ShellState ρ π) (f : File) : Prop :=
  s.table.Holds f ∨ ∃ c ∈ s.child, c.table.Holds f

instance {ρ π : Type*} (s : ShellState ρ π) (f : File) : Decidable (s.Holds f) :=
  inferInstanceAs (Decidable (_ ∨ _))

inductive Action where
  | shell
  | forkFailure
  | child
  deriving DecidableEq

section Shell
variable {ρ π α : Type*} (empty : π) (cmds : List α)

/-- The statements of `seq_pipe`. `pipe` never fails: the table of descriptors has no end. -/
def shellStep (s : ShellState ρ π) : Option (ShellState ρ π) :=
  let l := s.locals
  match s.pc with
  | .test =>
    if l.i < cmds.length then
      let (p0, t) := s.table.alloc (.pipeRead l.i)
      let (p1, t) := t.alloc (.pipeWrite l.i)
      some { s with
        table := t
        pc := .fork
        locals := { l with p0 := p0, p1 := p1 }
        pipes := Function.update s.pipes l.i empty }
    else some { s with pc := .returned }
  | .fork => some { s with child := some ⟨l, s.table, .forked⟩, pc := .wait }
  | .wait =>
    match s.child with
    | some ⟨_, _, .exited⟩ => some { s with child := none, pc := .close }
    | _ => none
  | .close =>
    let t := s.table.close l.p1
    let t := if 0 < l.i then t.close l.fdIn else t
    some { s with table := t, locals := { l with fdIn := l.p0, i := l.i + 1 }, pc := .test }
  | .returned => none
  | .exited => none

/-- What the child does to its table before `execvp`. -/
def childTable (l : Locals) (t : FdTable File) : FdTable File :=
  let t := if 0 < l.i then t.dup2 l.fdIn 0 else t
  let t := if l.i + 1 < cmds.length then t.dup2 l.p1 1 else t
  t.close l.p0

/-- A process that exits closes all it has open. -/
def Child.exit (c : Child ρ) : Child ρ := { c with table := .empty, pc := .exited }

/-- `seq_pipe` is entered. -/
def startState (table : FdTable File) : ShellState ρ π where
  table := table
  pc := .test
  locals := ⟨0, 0, 0, 0⟩
  child := none
  pipes := fun _ => empty

end Shell

section SeqPipe
variable (capacity : ℕ) (cmds : List Command)

/-- One read. It waits on an empty pipe while a process holds the write end, and else returns. -/
def readStep (s : State) (c : Child Command) (rest : Command) : Option State :=
  match c.table.get 0 with
  | some (.pipeRead p) =>
    if 0 < s.pipes p then
      some { s with
        child := some { c with pc := .running rest }
        pipes := Function.update s.pipes p (s.pipes p - 1) }
    else if s.Holds (.pipeWrite p) then none
    else some { s with child := some { c with pc := .running rest } }
  | _ => some { s with child := some { c with pc := .running rest } }

/-- One write. It waits on a full pipe; without a reader the writer is killed. -/
def writeStep (s : State) (c : Child Command) (rest : Command) : Option State :=
  match c.table.get 1 with
  | some (.pipeWrite p) =>
    if ¬ s.Holds (.pipeRead p) then some { s with child := some c.exit }
    else if s.pipes p < capacity then
      some { s with
        child := some { c with pc := .running rest }
        pipes := Function.update s.pipes p (s.pipes p + 1) }
    else none
  | _ => some { s with child := some { c with pc := .running rest } }

def childStep (s : State) : Option State :=
  match s.child with
  | none => none
  | some c =>
    match c.pc with
    | .forked =>
      some { s with child := some { c with
        table := childTable cmds c.locals c.table
        pc := .running (cmds.getD c.locals.i []) } }
    | .running [] => some { s with child := some c.exit }
    | .running (.read :: rest) => readStep s c rest
    | .running (.write :: rest) => writeStep capacity s c rest
    | .exited => none

def step (s : State) : Action → Option State
  | .shell => shellStep 0 cmds s
  | .forkFailure => if s.pc = .fork then some { s with table := .empty, pc := .exited } else none
  | .child => childStep capacity cmds s

def seqPipe (start : Startup) : Machine State Action where
  init := startState 0 start.table
  step := step capacity cmds

end SeqPipe

/-- The call is over and no child is left. -/
def ShellState.Finished {ρ π : Type*} (s : ShellState ρ π) : Prop :=
  (s.pc = .returned ∨ s.pc = .exited) ∧ s.child = none

end OsTasks.Shell
