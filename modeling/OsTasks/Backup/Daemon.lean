import OsTasks.Backup.Commands
import OsTasks.Lib.Machine

/-! The backup daemon of task_6: the watches it sets up, the events that `inotify` queues for it
and the commands that `file_created` and `file_modified` run one by one. The users of the watched
tree may act between any two commands. The configuration is the one read at the start: the signal
after which the daemon reads it again is not sent. -/
namespace OsTasks.Backup
open OsTasks.Lib

inductive Kind where
  | create
  | modify
  | delete
  deriving DecidableEq

/-- An event for the entry `name` of the watched directory `dir`. -/
structure Event where
  kind : Kind
  dir : Path
  name : Name
  deriving DecidableEq

def Event.path (ev : Event) : Path := ev.name :: ev.dir

/-- Where the daemon stands. `src` is the path that `find` printed first. -/
inductive Pc where
  /-- before the events of the last `read` that are left, or before `read` -/
  | batch (evs : List Event)
  /-- before `mkdir` or `diff` -/
  | found (ev : Event) (src : Option Path) (evs : List Event)
  /-- before `cp` -/
  | copying (ev : Event) (src : Option Path) (evs : List Event)
  /-- past the end of an array, or without a file to close -/
  | crashed
  deriving DecidableEq

structure State where
  fs : Tree
  watches : List Path
  queue : List Event
  /-- the second of the last `time` -/
  now : ℕ
  pc : Pc

inductive UserAction where
  | create (n : Name) (d : Path)
  | mkdir (n : Name) (d : Path)
  | write (n : Name) (d : Path) (content : List Byte)
  | remove (n : Name) (d : Path)

def UserAction.path : UserAction → Path
  | .create n d => n :: d
  | .mkdir n d => n :: d
  | .write n d _ => n :: d
  | .remove n d => n :: d

inductive Action where
  | user (u : UserAction)
  | read (k : ℕ)
  | skip
  | find (listing : List Path)
  | mkdir
  | diff (second : ℕ)
  | cp
  /-- a command with a word that is not taken for itself does what it likes -/
  | odd (fs : Tree)

/-- An event that equals the last one in the queue is dropped. -/
def State.notify (s : State) (kind : Kind) (n : Name) (d : Path) : State :=
  if d ∈ s.watches ∧ s.queue.getLast? ≠ some ⟨kind, d, n⟩ then
    { s with queue := s.queue ++ [⟨kind, d, n⟩] }
  else s

def State.mkdir (s : State) (n : Name) (d : Path) : State :=
  if s.fs.Allows n d .dir then
    State.notify { s with fs := s.fs.put n d .dir } .create n d
  else s

/-- Opens a file for writing, makes it if it is not there, and writes `content`. -/
def State.store (s : State) (n : Name) (d : Path) (content : List Byte) : State :=
  if s.fs.Allows n d (.file content) then
    let t := { s with fs := s.fs.put n d (.file content) }
    if s.fs.get (n :: d) = none then
      let t := t.notify .create n d
      if content = [] then t else t.notify .modify n d
    else t.notify .modify n d
  else s

def userStep (s : State) : UserAction → State
  | .create n d => if s.fs.get (n :: d) = none then s.store n d [] else s
  | .mkdir n d => s.mkdir n d
  | .write n d content => if s.fs.get (n :: d) = none then s else s.store n d content
  | .remove n d =>
    if s.fs.get (n :: d) = none ∨ s.fs.get (n :: d) = some .dir then s
    else State.notify { s with fs := s.fs.removeFile n d } .delete n d

/-- `opendir`, the watch, and the recursion into each entry that `stat` takes for a directory. -/
def addWatcherRecursive (fs : Tree) : ℕ → Path → List Path
  | 0, _ => []
  | fuel + 1, wd =>
    if fs.get wd = some .dir then
      wd :: (fs.entries wd).flatMap (addWatcherRecursive fs fuel)
    else []

/-- The depth of the deepest path. -/
def depth (fs : Tree) : ℕ := (fs.paths.map List.length).foldr max 0

/-- `inotify_capacity` -/
def inotifyCapacity : ℕ := 100

section Daemon
variable (cfg : Config)

/-- The file at `src`, or the one that `find` wrote to when it printed nothing. -/
def source (src : Option Path) : Path := src.getD (findFile :: cfg.dumpDir)

/-- `cp` of the file `src` to "dump_dir/filename": into it if it is a directory. -/
def cpTarget (fs : Tree) (n : Name) (src : Path) : Name × Path :=
  if fs.get (n :: cfg.dumpDir) = some .dir then (src.headD [], n :: cfg.dumpDir)
  else (n, cfg.dumpDir)

def State.cp (s : State) (n : Name) (src : Path) : State :=
  match s.fs.get src with
  | some (.file content) =>
    let (m, d) := cpTarget cfg s.fs n src
    if m :: d = src then s else s.store m d content
  | _ => s

/-- The first operand of `diff`: of a directory, the entry with the name of the second one. -/
def diffOperand (fs : Tree) (n : Name) (src : Path) : Option (List Byte) :=
  match fs.get src with
  | some (.file content) => some content
  | some .dir =>
    match fs.get (n :: src) with
    | some (.file content) => some content
    | _ => none
  | none => none

/-- What `diff` prints on the new file and the stored copy. A directory in place of the copy is taken
for no copy. -/
def diffOutput (fs : Tree) (n : Name) (src : Path) : List Byte :=
  match diffOperand fs n src, fs.get (n :: n :: cfg.dumpDir) with
  | some a, some (.file b) => cfg.diff a b
  | _, _ => []

/-- The beginning of both handlers, up to the `fscanf`. -/
def findStep (s : State) (listing : List Path) : Option State :=
  match s.pc with
  | .batch (ev :: evs) =>
    let n := ev.name
    if ev.kind = .delete then none
    else if s.fs.get cfg.dumpDir ≠ some .dir ∨ s.fs.get (findFile :: cfg.dumpDir) = some .dir then
      some { s with pc := .crashed }
    else
      let t := s.store findFile cfg.dumpDir []
      if listing.Perm (t.fs.named cfg.cwd n) ∧ Plain cfg n listing.head? then
        if (findCommand cfg n).length < pathMax ∧ (filepath cfg listing.head?).length < pathMax then
          let lines := listing.flatMap fun p => relText cfg.cwd p ++ [0x0a]
          some { t.store findFile cfg.dumpDir lines with pc := .found ev listing.head? evs }
        else some { s with pc := .crashed }
      else none
  | _ => none

def mkdirStep (s : State) : Option State :=
  match s.pc with
  | .found ev src evs =>
    if ev.kind = .create then
      if (mkdirCommand cfg ev.name).length < pathMax then
        some { s.mkdir ev.name cfg.dumpDir with pc := .copying ev src evs }
      else some { s with pc := .crashed }
    else none
  | _ => none

def diffStep (s : State) (second : ℕ) : Option State :=
  match s.pc with
  | .found ev src evs =>
    let n := ev.name
    let tm := cfg.localtime second
    if ev.kind = .modify ∧ s.now ≤ second then
      if (diffFilename n tm).length < diffFilenameSize ∧
          (diffCommand cfg src n tm).length < pathMax then
        let out := diffOutput cfg s.fs n (source cfg src)
        some { s.store (diffFilename n tm) (n :: cfg.dumpDir) out with
          now := second
          pc := .copying ev src evs }
      else some { s with pc := .crashed }
    else none
  | _ => none

def cpStep (s : State) : Option State :=
  match s.pc with
  | .copying ev src evs =>
    if (cpCommand cfg src ev.name).length < pathMax then
      some { s.cp cfg ev.name (source cfg src) with pc := .batch evs }
    else some { s with pc := .crashed }
  | _ => none

/-- What follows when the commands for the next event are not plain: any tree, also where `fopen`
would crash before them. -/
def oddStep (s : State) (fs : Tree) : Option State :=
  match s.pc with
  | .batch (ev :: evs) =>
    if ev.kind = .delete ∨
        ∀ src ∈ none :: (s.fs.named cfg.cwd ev.name).map some, Plain cfg ev.name src then none
    else some { s with fs := fs, pc := .batch evs }
  | _ => none

def step (s : State) : Action → Option State
  | .user u => some (userStep s u)
  | .read k =>
    if s.pc = .batch [] ∧ 0 < k ∧ k ≤ s.queue.length then
      some { s with pc := .batch (s.queue.take k), queue := s.queue.drop k }
    else none
  | .skip =>
    match s.pc with
    | .batch (ev :: evs) => if ev.kind = .delete then some { s with pc := .batch evs } else none
    | _ => none
  | .find listing => findStep cfg s listing
  | .mkdir => mkdirStep cfg s
  | .diff second => diffStep cfg s second
  | .cp => cpStep cfg s
  | .odd fs => oddStep cfg s fs

/-- The text of a path as `add_watcher_recursive` puts it together. -/
def pathText (p : Path) : List Byte :=
  (cfg.cwd.reverse.map (slash :: ·)).flatten ++ (relText cfg.cwd p).tail

/-- The watches fit into their array, and every entry of a directory into `path`. -/
def StartFits (fs : Tree) : Prop :=
  (addWatcherRecursive fs (depth fs + 1) cfg.cwd).length ≤ inotifyCapacity ∧
    ∀ p ∈ fs.paths, fs.get p ≠ none → cfg.cwd <:+ p →
      (pathText cfg p).length + (if fs.get p = some .dir then 4 else 0) < pathMax

instance (fs : Tree) : Decidable (StartFits cfg fs) := inferInstanceAs (Decidable (_ ∧ _))

/-- The daemon after `add_watcher_recursive`, in a file system where its `mkdir` of `dump_dir` has
been tried. -/
def backup (fs : Tree) : Machine State Action where
  init := {
    fs := fs
    watches := addWatcherRecursive fs (depth fs + 1) cfg.cwd
    queue := []
    now := 0
    pc := if StartFits cfg fs then .batch [] else .crashed }
  step := step cfg

end Daemon

end OsTasks.Backup
