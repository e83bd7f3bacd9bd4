import OsTasks.Lib.Machine
import OsTasks.Lib.CString

/-! The duplex pipe of task_2: the parent's loop over the input file and the child's echo
loop, each on its own copy of the data block, with the two pipes between them. -/
namespace OsTasks.Echo
open OsTasks.Lib

/-- `MAX_BUF_SIZE` and `INTER_BUFF_SIZE`. -/
def bufSize : ℕ := 4096

/-- What a pipe holds before a write to it waits. -/
def pipeCapacity : ℕ := 65536

/-- "exit" -/
def exit : List Byte := [0x65, 0x78, 0x69, 0x74]

/-- `struct pPipe` in one of the two processes. -/
structure Pipe where
  data : List Byte
  len : ℕ

inductive ParentPc where
  | fread | snd | rcv | fwrite | sndExit | done
  deriving DecidableEq

inductive ChildPc where
  | rcv | test | snd | done
  deriving DecidableEq

structure State where
  parent : ParentPc
  child : ChildPc
  parentPipe : Pipe
  childPipe : Pipe
  /-- the bytes in the pipe from parent to child -/
  direct : List Byte
  /-- the bytes in the pipe from child to parent -/
  back : List Byte
  /-- what `fread` has not returned yet -/
  rest : List Byte
  output : List Byte

inductive Party where
  | parent
  | child
  deriving DecidableEq

/-- `snd` on a pipe that holds `q`. -/
def snd (p : Pipe) (q : List Byte) : Option (List Byte) :=
  if q.length + p.len ≤ pipeCapacity then some (q ++ p.data.take p.len) else none

/-- `rcv` on a pipe that holds `q`; it waits for bytes, as neither process closes an end. -/
def rcv (p : Pipe) (q : List Byte) : Option (Pipe × List Byte) :=
  match q.take bufSize with
  | [] => none
  | b :: bs => some (⟨overwrite p.data (b :: bs), (b :: bs).length⟩, q.drop bufSize)

/-- The block `fread` returned, with the terminator behind it: after a full block the
terminator lies outside the data block. A short block is measured with `strlen`. -/
def load (p : Pipe) (block : List Byte) : Pipe :=
  let data := (overwrite p.data block).set block.length 0
  ⟨data, if block.length = bufSize then p.len else strlen data⟩

def parentStep (s : State) : Option State :=
  match s.parent with
  | .fread =>
    match s.rest.take bufSize with
    | [] =>
      some { s with parentPipe := ⟨overwrite s.parentPipe.data (exit ++ [0]), s.parentPipe.len⟩,
                    parent := .sndExit }
    | b :: bs =>
      some { s with parentPipe := load s.parentPipe (b :: bs), rest := s.rest.drop bufSize,
                    parent := .snd }
  | .snd => (snd s.parentPipe s.direct).map fun q => { s with direct := q, parent := .rcv }
  | .rcv =>
    (rcv s.parentPipe s.back).map fun r =>
      { s with parentPipe := r.1, back := r.2, parent := .fwrite }
  | .fwrite =>
    some { s with output := s.output ++ s.parentPipe.data.take s.parentPipe.len,
                  parentPipe := ⟨s.parentPipe.data, bufSize⟩, parent := .fread }
  | .sndExit => (snd s.parentPipe s.direct).map fun q => { s with direct := q, parent := .done }
  | .done => none

def childStep (s : State) : Option State :=
  match s.child with
  | .rcv =>
    (rcv s.childPipe s.direct).map fun r =>
      { s with childPipe := r.1, direct := r.2, child := .test }
  | .test =>
    if strcmp s.childPipe.data (exit ++ [0]) = some 0 then some { s with child := .done }
    else some { s with child := .snd }
  | .snd =>
    (snd s.childPipe s.back).map fun q =>
      { s with back := q, childPipe := ⟨s.childPipe.data, bufSize⟩, child := .rcv }
  | .done => none

def step (s : State) : Party → Option State
  | .parent => parentStep s
  | .child => childStep s

/-- `pipe_ctor` and the state right after `fork`. -/
def pipeCtor : Pipe := ⟨List.replicate bufSize 0, bufSize⟩

def echo (file : List Byte) : Machine State Party where
  init := ⟨.fread, .rcv, pipeCtor, pipeCtor, [], [], file, []⟩
  step := step

/-- `parent_process` has left its read loop. -/
def State.loopDone (s : State) : Prop := s.parent = .sndExit ∨ s.parent = .done

theorem rcv_nil (p : Pipe) : rcv p [] = none := rfl

theorem rcv_of_length_le (p : Pipe) {q : List Byte} (hq : q ≠ []) (hl : q.length ≤ bufSize) :
    rcv p q = some (⟨overwrite p.data q, q.length⟩, []) := by
  cases q with
  | nil => exact absurd rfl hq
  | cons b bs => rw [rcv, List.take_of_length_le hl, List.drop_eq_nil_of_le hl]

theorem snd_nil {p : Pipe} (hp : p.len ≤ bufSize) : snd p [] = some (p.data.take p.len) := by
  unfold snd
  rw [if_pos (by simpa using hp.trans (by decide)), List.nil_append]

/-- The bytes `parent_process` sends for a block. -/
def message (block : List Byte) : List Byte :=
  if block.length = bufSize then block else cstr block

theorem message_isPrefix (block : List Byte) : message block <+: block := by
  unfold message
  split_ifs
  · exact List.prefix_rfl
  · exact cstr_isPrefix block

theorem message_eq_self_iff (block : List Byte) :
    message block = block ↔ (block.length ≠ bufSize → 0 ∉ block) := by
  unfold message
  split_ifs with h
  · simp [h]
  · simp [h, cstr_eq_self_iff]

theorem load_spec {p : Pipe} {block : List Byte} (hd : p.data.length = bufSize)
    (hl : p.len = bufSize) (hb : block.length ≤ bufSize) :
    (load p block).data.length = bufSize ∧ (load p block).len ≤ bufSize ∧
      (load p block).data.take (load p block).len = message block := by
  have hlen : (overwrite p.data block).length = bufSize := by
    rw [length_overwrite (by rw [hd]; exact hb), hd]
  have hset : ((overwrite p.data block).set block.length 0).length = bufSize := by
    rw [List.length_set, hlen]
  unfold load message
  dsimp only
  split_ifs with h
  · refine ⟨hset, hl.le, ?_⟩
    rw [List.set_eq_of_length_le (by rw [hlen, h]), hl, overwrite_of_length_le (by rw [hd, h]),
      ← h, List.take_length]
  · refine ⟨hset, (strlen_le _).trans hset.le, ?_⟩
    rw [take_strlen]
    have hz : (overwrite p.data block).set block.length 0 =
        block ++ 0 :: p.data.drop (block.length + 1) := by
      unfold overwrite
      rw [List.set_append_right _ _ le_rfl, Nat.sub_self,
        List.drop_eq_getElem_cons (by rw [hd]; omega), List.set_cons_zero]
    rw [hz, cstr_append_zero]

end OsTasks.Echo
