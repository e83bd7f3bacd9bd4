import OsTasks.Lib.Machine
import OsTasks.Lib.Decimal
import Mathlib.Logic.Function.Basic

/-! The token server of task_3/examples: mq_server.c and any number of mq_client.c over POSIX
message queues. -/
namespace OsTasks.Transfer.TokenServer
open OsTasks.Lib

/-- `MAX_MESSAGES` -/
def maxMessages : ℕ := 10

/-- `client_queue_name` -/
def clientQueueName (pid : ℕ) : List Byte := ascii "/sp-example-client-" ++ decimal pid

inductive ServerPc where
  | receive
  | mqOpen
  /-- with `qd_client`, -1 when the client's queue could not be opened -/
  | send (qdClient : ℤ)
  deriving DecidableEq

inductive ClientPc where
  /-- not running -/
  | out
  | fgets | send | receive
  deriving DecidableEq

structure Client where
  pc : ClientPc
  /-- the tokens of the lines "Client: Token received from server: %s" -/
  shown : List (List Byte)

structure State where
  serverQueue : List (List Byte)
  /-- the queues of the clients, under their names -/
  queues : List Byte → Option (List (List Byte))
  server : ServerPc
  inBuffer : List Byte
  tokenNumber : ℕ
  /-- the queues the server has opened; none is ever closed -/
  opened : List (List Byte)
  client : ℕ → Client

inductive Act where
  | server
  /-- the client's `mq_open` of its own queue -/
  | start (pid : ℕ)
  /-- `fgets` returns a piece of the input, or its end is reached -/
  | fgets (pid : ℕ) (more : Bool)
  /-- `mq_send` or `mq_receive` of the client -/
  | client (pid : ℕ)
  deriving DecidableEq

/-- Standard input, output and error and `qd_server`. -/
def ownDescriptors : ℕ := 4

def State.setQueue (s : State) (name : List Byte) (queue : Option (List (List Byte))) : State :=
  { s with queues := Function.update s.queues name queue }

def State.goto (s : State) (pid : ℕ) (pc : ClientPc) : State :=
  { s with client := Function.update s.client pid { s.client pid with pc := pc } }

/-- "Client: Token received from server: %s" -/
def State.display (s : State) (pid : ℕ) (token : List Byte) : State :=
  let client := { pc := .fgets, shown := (s.client pid).shown ++ [token] }
  { s with client := Function.update s.client pid client }

/-- The server's loop; `limit` is the number of descriptors a process may have. -/
def serverStep (limit : ℕ) (s : State) : Option State :=
  match s.server with
  | .receive =>
    match s.serverQueue with
    | [] => none
    | m :: queue =>
      some { s with serverQueue := queue, inBuffer := overwrite s.inBuffer m, server := .mqOpen }
  | .mqOpen =>
    let name := cstr s.inBuffer
    if (s.queues name).isSome ∧ ownDescriptors + s.opened.length < limit then
      -- the descriptor is tested against 1, which is the server's own
      if ownDescriptors + s.opened.length = 1 then
        some { s with opened := s.opened ++ [name], server := .receive }
      else
        some { s with opened := s.opened ++ [name],
                      server := .send (ownDescriptors + s.opened.length) }
    else some { s with server := .send (-1) }
  | .send qd =>
    if qd = -1 then some { s with server := .receive }
    else
      let name := s.opened.getD (qd.toNat - ownDescriptors) []
      match s.queues name with
      | none => some { s with tokenNumber := s.tokenNumber + 1, server := .receive }
      | some queue =>
        if queue.length < maxMessages then
          some { s.setQueue name (some (queue ++ [decimal s.tokenNumber ++ [0]])) with
            tokenNumber := s.tokenNumber + 1, server := .receive }
        else none

def clientStep (s : State) (pid : ℕ) : Option State :=
  match (s.client pid).pc with
  | .send =>
    if s.serverQueue.length < maxMessages then
      some ({ s with serverQueue := s.serverQueue ++ [clientQueueName pid ++ [0]] }.goto pid
        .receive)
    else none
  | .receive =>
    match s.queues (clientQueueName pid) with
    | some (m :: queue) =>
      some ((s.setQueue (clientQueueName pid) (some queue)).display pid (cstr m))
    | _ => none
  | _ => none

def step (limit : ℕ) (s : State) : Act → Option State
  | .server => serverStep limit s
  | .start pid =>
    if (s.client pid).pc = .out then
      some ((s.setQueue (clientQueueName pid)
        (some ((s.queues (clientQueueName pid)).getD []))).goto pid .fgets)
    else none
  | .fgets pid true => if (s.client pid).pc = .fgets then some (s.goto pid .send) else none
  | .fgets pid false =>
    if (s.client pid).pc = .fgets then
      some ((s.setQueue (clientQueueName pid) none).goto pid .out)
    else none
  | .client pid => clientStep s pid

def tokens (limit : ℕ) (inBuffer : List Byte) : Machine State Act where
  init :=
    { serverQueue := [], queues := fun _ => none, server := .receive, inBuffer := inBuffer,
      tokenNumber := 1, opened := [], client := fun _ => { pc := .out, shown := [] } }
  step := step limit

/-- The clients in the order of their requests, and what the server has done with the first of
them: the token it sent, if it sent one. -/
structure History where
  asked : List ℕ
  answers : List (Option ℕ)

def record (s : State) (a : Act) (_ : State) (h : History) : History :=
  match a with
  | .server =>
    match s.server with
    | .send qd =>
      { h with answers := h.answers ++ [if qd = -1 then none else some s.tokenNumber] }
    | _ => h
  | .client pid =>
    if (s.client pid).pc = .send then { h with asked := h.asked ++ [pid] } else h
  | _ => h

def recorded (limit : ℕ) (inBuffer : List Byte) : Machine (State × History) Act :=
  (tokens limit inBuffer).withHistory { asked := [], answers := [] } record

theorem cstr_clientQueueName (pid : ℕ) (rest : List Byte) :
    cstr (clientQueueName pid ++ 0 :: rest) = clientQueueName pid := by
  rw [cstr_append_zero, cstr_eq_self_iff]
  intro hz
  rcases List.mem_append.mp hz with hz | hz
  · revert hz
    decide
  · exact absurd (isDigit_of_mem_decimal hz) (by decide)

theorem clientQueueName_injective : Function.Injective clientQueueName := by
  intro p q h
  have hdec : decimal p = decimal q := List.append_cancel_left h
  rw [← digitsVal_decimal p, hdec, digitsVal_decimal]

theorem cstr_received (inBuffer : List Byte) (pid : ℕ) :
    cstr (overwrite inBuffer (clientQueueName pid ++ [0])) = clientQueueName pid := by
  unfold overwrite
  rw [List.append_assoc, List.singleton_append]
  exact cstr_clientQueueName pid _

theorem cstr_token (n : ℕ) : cstr (decimal n ++ [0]) = decimal n := by
  rw [cstr_append_zero, cstr_eq_self_iff]
  intro hz
  exact absurd (isDigit_of_mem_decimal hz) (by decide)

end OsTasks.Transfer.TokenServer
