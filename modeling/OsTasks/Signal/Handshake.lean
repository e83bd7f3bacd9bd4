import OsTasks.Lib.Machine
import OsTasks.Signal.Packages

/-! The sender and the receiver of task_5, statement by statement. A signal that is pending is not
queued again, and the handler of a pending signal may run between any two statements. -/
namespace OsTasks.Signal
open OsTasks.Lib

inductive SenderPc where
  | sndPid
  /-- at `sigqueue`, or at `kill` when all is sent -/
  | send
  | beforePause
  | paused
  | done
  deriving DecidableEq

inductive ReceiverPc where
  | beforePause
  | paused
  | testWrite
  | fwrite
  | clearWrite
  | testEnd
  | killEnd
  | killAck
  | returned
  deriving DecidableEq

structure Sender where
  pc : SenderPc
  toSend : List Package
  /-- a pending SIGINT -/
  sigint : Bool

/-- The global variables of the receiver, and what is pending with its value. -/
structure Receiver where
  pc : ReceiverPc
  val : Package
  write : Bool
  ended : Bool
  sndPid : ℕ
  output : List Byte
  sigint : Option ℕ
  sigusr1 : Option Package
  sigusr2 : Bool

structure State where
  sender : Sender
  receiver : Receiver

/-- `killValue` is the value a handler finds with a signal that `kill` sent. -/
structure Setup where
  senderPid : ℕ
  senderPid_pos : 0 < senderPid
  sameGroup : Bool
  killValue : ℕ

inductive Action where
  | sender
  | receiver
  | senderSigint
  | sigint
  | sigusr1
  | sigusr2

section Step
variable (setup : Setup)

def senderStep (s : State) : Option State :=
  let c := s.sender
  let r := s.receiver
  match c.pc with
  | .sndPid =>
    some ⟨{ c with pc := .send }, { r with sigint := r.sigint <|> some setup.senderPid }⟩
  | .send =>
    match c.toSend with
    | [] => some ⟨{ c with pc := .done }, { r with sigusr2 := true }⟩
    | p :: ps =>
      some ⟨{ c with pc := .beforePause, toSend := ps },
        { r with sigusr1 := r.sigusr1 <|> some p }⟩
  | .beforePause => some ⟨{ c with pc := .paused }, r⟩
  | .paused => none
  | .done => none

/-- `kill(SND_PID, SIGINT)`. To 0 it goes to the receiver's whole group, itself included. -/
def kill (s : State) : State :=
  if s.receiver.sndPid = 0 then
    ⟨{ s.sender with sigint := s.sender.sigint || setup.sameGroup },
      { s.receiver with sigint := s.receiver.sigint <|> some setup.killValue }⟩
  else if s.receiver.sndPid = setup.senderPid then
    ⟨{ s.sender with sigint := true }, s.receiver⟩
  else s

def State.at (s : State) (pc : ReceiverPc) : State := { s with receiver := { s.receiver with pc := pc } }

def receiverStep (s : State) : Option State :=
  let r := s.receiver
  match r.pc with
  | .beforePause => some (s.at .paused)
  | .paused => none
  | .testWrite => some (s.at (if r.write then .fwrite else .testEnd))
  | .fwrite =>
    some { s with receiver := { r with pc := .clearWrite, output := r.output ++ payload r.val } }
  | .clearWrite => some { s with receiver := { r with pc := .testEnd, write := false } }
  | .testEnd => some (s.at (if r.ended then .killEnd else .killAck))
  | .killEnd => some ((kill setup s).at .returned)
  | .killAck => some ((kill setup s).at .beforePause)
  | .returned => none

/-- `pause` returns after a handler. -/
def ReceiverPc.woken (pc : ReceiverPc) : ReceiverPc := if pc = .paused then .testWrite else pc

def step (s : State) (a : Action) : Option State :=
  let c := s.sender
  let r := s.receiver
  match a with
  | .sender => senderStep setup s
  | .receiver => receiverStep setup s
  | .senderSigint =>
    if c.sigint = true ∧ c.pc ≠ .done then
      some { s with sender := { c with
        sigint := false, pc := if c.pc = .paused then .send else c.pc } }
    else none
  | .sigint =>
    match r.sigint with
    | none => none
    | some v =>
      if r.pc = .returned then none
      else some { s with receiver := { r with pc := r.pc.woken, sigint := none, sndPid := v } }
  | .sigusr1 =>
    match r.sigusr1 with
    | none => none
    | some p =>
      if r.pc = .returned then none
      else some { s with receiver := { r with
        pc := r.pc.woken, sigusr1 := none, val := p, write := true } }
  | .sigusr2 =>
    if r.sigusr2 = true ∧ r.pc ≠ .returned then
      some { s with receiver := { r with pc := r.pc.woken, sigusr2 := false, ended := true } }
    else none

def transfer (file : List Byte) : Machine State Action where
  init := {
    sender := ⟨.sndPid, packages file, false⟩
    receiver := ⟨.beforePause, [0, 0, 0, 0], false, false, 0, [], none, none, false⟩ }
  step := step setup

end Step

/-- The step takes none of the branches that lose a package: it does not queue SIGUSR1 while one
is pending, handle one while WRITE is set, or go by END while one is pending or WRITE is set. -/
def Ok (s : State) : Action → Prop
  | .sender => s.sender.pc = .send → s.sender.toSend ≠ [] → s.receiver.sigusr1 = none
  | .sigusr1 => s.receiver.pc ≠ .killEnd → s.receiver.write = false
  | .receiver => s.receiver.pc = .testEnd → s.receiver.ended = true →
      s.receiver.sigusr1 = none ∧ s.receiver.write = false
  | _ => True

end OsTasks.Signal
