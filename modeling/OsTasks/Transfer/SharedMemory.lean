import OsTasks.Lib.Machine
import OsTasks.Lib.CString

/-! The shared-memory transfer of task_3/shmem_posix: client and server statement by
statement, with the three semaphores, and what the semaphores keep apart. -/
namespace OsTasks.Transfer.SharedMemory
open OsTasks.Lib

/-- `SIZE`, the size of the segment and of the client's buffer. -/
def size : ℕ := 4096

/-- "quit" -/
def quit : List Byte := [0x71, 0x75, 0x69, 0x74]

/-- Where the client stands; the `end` locations belong to the part after its loop. -/
inductive ClientPc where
  | fread | waitFull | waitMutex | copy | postMutex | postEmpty
  | endWaitFull | endWaitMutex | sprintf | endPostMutex | endPostEmpty | done
  deriving DecidableEq

inductive ServerPc where
  | waitEmpty | waitMutex | test | fwrite | postMutex | postFull | done
  deriving DecidableEq

structure State where
  full : ℕ
  empty : ℕ
  mutex : ℕ
  shm : List Byte
  /-- what `fread` has not returned yet -/
  rest : List Byte
  interBuf : List Byte
  numOfRead : ℕ
  client : ClientPc
  server : ServerPc
  output : List Byte

inductive Party where
  | client
  | server
  deriving DecidableEq

def clientStep (s : State) : Option State :=
  match s.client with
  | .fread =>
    match s.rest.take size with
    | [] => some { s with numOfRead := 0, client := .endWaitFull }
    | b :: bs =>
      some { s with interBuf := overwrite s.interBuf (b :: bs), numOfRead := (b :: bs).length,
                    rest := s.rest.drop size, client := .waitFull }
  | .waitFull => if 0 < s.full then some { s with full := s.full - 1, client := .waitMutex } else none
  | .waitMutex => if 0 < s.mutex then some { s with mutex := s.mutex - 1, client := .copy } else none
  | .copy => some { s with shm := strncpy s.shm s.interBuf s.numOfRead, client := .postMutex }
  | .postMutex => some { s with mutex := s.mutex + 1, client := .postEmpty }
  | .postEmpty => some { s with empty := s.empty + 1, client := .fread }
  | .endWaitFull =>
    if 0 < s.full then some { s with full := s.full - 1, client := .endWaitMutex } else none
  | .endWaitMutex =>
    if 0 < s.mutex then some { s with mutex := s.mutex - 1, client := .sprintf } else none
  | .sprintf => some { s with shm := overwrite s.shm (quit ++ [0]), client := .endPostMutex }
  | .endPostMutex => some { s with mutex := s.mutex + 1, client := .endPostEmpty }
  | .endPostEmpty => some { s with empty := s.empty + 1, client := .done }
  | .done => none

/-- The server leaves its loop at the test, before it posts `mutex` and `full_sem`. -/
def serverStep (s : State) : Option State :=
  match s.server with
  | .waitEmpty =>
    if 0 < s.empty then some { s with empty := s.empty - 1, server := .waitMutex } else none
  | .waitMutex => if 0 < s.mutex then some { s with mutex := s.mutex - 1, server := .test } else none
  | .test =>
    if strcmp s.shm (quit ++ [0]) = some 0 then some { s with server := .done }
    else some { s with server := .fwrite }
  | .fwrite => some { s with output := s.output ++ s.shm.take size, server := .postMutex }
  | .postMutex => some { s with mutex := s.mutex + 1, server := .postFull }
  | .postFull => some { s with full := s.full + 1, server := .waitEmpty }
  | .done => none

def step (s : State) : Party → Option State
  | .client => clientStep s
  | .server => serverStep s

def transfer (file : List Byte) : Machine State Party where
  init :=
    { full := 1, empty := 0, mutex := 1, shm := List.replicate size 0, rest := file,
      interBuf := List.replicate size 0, numOfRead := 0, client := .fread, server := .waitEmpty,
      output := [] }
  step := step

/-- Between `sem_wait(full_sem)` and `sem_post(empty_sem)`. -/
def ClientPc.turn : ClientPc → ℕ
  | .waitMutex | .copy | .postMutex | .postEmpty => 1
  | .endWaitMutex | .sprintf | .endPostMutex | .endPostEmpty => 1
  | _ => 0

/-- Between `sem_wait(mutex)` and `sem_post(mutex)`. -/
def ClientPc.critical : ClientPc → ℕ
  | .copy | .postMutex | .sprintf | .endPostMutex => 1
  | _ => 0

/-- Between `sem_wait(empty_sem)` and `sem_post(full_sem)`. -/
def ServerPc.turn : ServerPc → ℕ
  | .waitEmpty => 0
  | _ => 1

/-- Between `sem_wait(mutex)` and `sem_post(mutex)`; the server ends inside. -/
def ServerPc.critical : ServerPc → ℕ
  | .test | .fwrite | .postMutex | .done => 1
  | _ => 0

/-- Each semaphore accounts for the process that holds it. -/
structure Semaphores (s : State) : Prop where
  turn : s.full + s.empty + s.client.turn + s.server.turn = 1
  critical : s.mutex + s.client.critical + s.server.critical = 1

theorem semaphores_init (file : List Byte) : Semaphores (transfer file).init := ⟨rfl, rfl⟩

theorem semaphores_step (s : State) (p : Party) (t : State) (h : Semaphores s)
    (ht : step s p = some t) : Semaphores t := by
  obtain ⟨h1, h2⟩ := h
  cases p with
  | client =>
    simp only [step, clientStep] at ht
    cases hc : s.client <;> simp only [hc, ClientPc.turn, ClientPc.critical] at ht h1 h2 <;>
      (try split at ht) <;> cases ht <;> constructor <;>
      simp only [ClientPc.turn, ClientPc.critical] <;> omega
  | server =>
    simp only [step, serverStep] at ht
    cases hc : s.server <;> simp only [hc, ServerPc.turn, ServerPc.critical] at ht h1 h2 <;>
      (try split at ht) <;> cases ht <;> constructor <;>
      simp only [ServerPc.turn, ServerPc.critical] <;> omega

theorem semaphores_of_reachable {file : List Byte} {s : State}
    (h : (transfer file).Reachable s) : Semaphores s :=
  h.invariant (semaphores_init file) semaphores_step

/-- Bounds the statements both processes still execute: a block costs the client one round
and, through `empty_sem`, the server one. -/
def remaining (s : State) : ℕ :=
  let client := match s.client with
    | .fread => 14 | .waitFull => 27 | .waitMutex => 26 | .copy => 25 | .postMutex => 24
    | .postEmpty => 23 | .endWaitFull => 13 | .endWaitMutex => 12 | .sprintf => 11
    | .endPostMutex => 10 | .endPostEmpty => 9 | .done => 0
  let server := match s.server with
    | .waitEmpty => 0 | .waitMutex => 6 | .test => 5 | .fwrite => 4 | .postMutex => 3
    | .postFull => 2 | .done => 0
  14 * s.rest.length + client + 8 * s.empty + server

theorem remaining_step (s : State) (p : Party) (t : State) (ht : step s p = some t) :
    remaining t < remaining s := by
  cases p with
  | client =>
    simp only [step, clientStep] at ht
    cases hc : s.client <;> simp only [hc] at ht
    case fread =>
      split at ht
      · cases ht
        simp only [remaining, hc]
        omega
      · rename_i b bs hb
        cases ht
        have hl := congrArg List.length hb
        simp only [List.length_take, List.length_cons] at hl
        have hs : 0 < size := by decide
        simp only [remaining, hc, List.length_drop]
        omega
    all_goals
      (try split at ht) <;> cases ht <;> simp only [remaining, hc] <;> omega
  | server =>
    simp only [step, serverStep] at ht
    cases hc : s.server <;> simp only [hc] at ht <;> (try split at ht) <;> cases ht <;>
      simp only [remaining, hc] <;> omega

end OsTasks.Transfer.SharedMemory
