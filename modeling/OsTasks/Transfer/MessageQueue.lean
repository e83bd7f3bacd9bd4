import OsTasks.Lib.Machine
import OsTasks.Lib.CString

/-! The POSIX message-queue transfer of task_3/mq_posix: client and server over a bounded
FIFO queue, and what the server's output is when it stops. -/
namespace OsTasks.Transfer.MessageQueue
open OsTasks.Lib

/-- `mq_maxmsg`. -/
def maxMsg : ℕ := 3

/-- The size of the client's buffer: one byte less than a message may hold. -/
def bufLen : ℕ := 4095

/-- "quit" -/
def quit : List Byte := [0x71, 0x75, 0x69, 0x74]

structure State where
  /-- what `fread` has not returned yet -/
  rest : List Byte
  clientDone : Bool
  queue : List (List Byte)
  /-- the server's buffer -/
  buf : List Byte
  output : List Byte
  stopped : Bool

inductive Action where
  /-- One pass of the client's loop. The byte is the one its buffer holds behind the bytes
  `fread` stored, which the program never sets. -/
  | send (behind : Byte)
  | receive

/-- The client sends `buf_len + 1` bytes of each block, and "quit" with its NUL at the end. -/
def clientLoop (s : State) (behind : Byte) : State :=
  match s.rest.take bufLen with
  | [] => { s with queue := s.queue ++ [quit ++ [0]], clientDone := true }
  | b :: bs =>
    { s with queue := s.queue ++ [(b :: bs) ++ [behind]], rest := s.rest.drop bufLen }

/-- The server compares before it writes, and writes as many bytes as it received. -/
def serverLoop (s : State) (m : List Byte) (queue : List (List Byte)) : State :=
  let buf := overwrite s.buf m
  if strcmp buf (quit ++ [0]) = some 0 then { s with queue := queue, buf := buf, stopped := true }
  else { s with queue := queue, buf := buf, output := s.output ++ buf.take m.length }

/-- `mq_send` waits while the queue is full, `mq_receive` while it is empty. -/
def step (s : State) : Action → Option State
  | .send behind =>
    if s.clientDone = false ∧ s.queue.length < maxMsg then some (clientLoop s behind) else none
  | .receive =>
    match s.stopped, s.queue with
    | false, m :: queue => some (serverLoop s m queue)
    | _, _ => none

def transfer (file buf : List Byte) : Machine State Action where
  init := ⟨file, false, [], buf, [], false⟩
  step := step

/-- The messages of the blocks sent so far, each with the byte behind it. -/
def messages (sent : List (List Byte × Byte)) (clientDone : Bool) : List (List Byte) :=
  sent.map (fun c => c.1 ++ [c.2]) ++ if clientDone then [quit ++ [0]] else []

/-- What the server has done with the messages it received. -/
def Written (received : List (List Byte)) (s : State) : Prop :=
  if s.stopped then ∃ init last, received = init ++ [last] ∧ s.output = init.flatten
  else s.output = received.flatten

/-- The messages sent are those received and those queued, in order. -/
def Inv (file : List Byte) (s : State) : Prop :=
  ∃ sent received, (sent.map Prod.fst).flatten ++ s.rest = file ∧ (∀ c ∈ sent, c.1 ≠ []) ∧
    (s.clientDone → s.rest = []) ∧
    messages sent s.clientDone = received ++ s.queue ∧ Written received s

theorem inv_send {file : List Byte} {s : State} {behind : Byte} (hc : s.clientDone = false)
    (h : Inv file s) : Inv file (clientLoop s behind) := by
  obtain ⟨sent, received, hf, hne, hd, hm, hw⟩ := h
  unfold clientLoop
  split
  · rename_i hr
    have hrest : s.rest = [] := by
      rcases List.take_eq_nil_iff.mp hr with h0 | h0
      · exact absurd h0 (by decide)
      · exact h0
    refine ⟨sent, received, hf, hne, fun _ => hrest, ?_, hw⟩
    simp only [messages, hc, Bool.false_eq_true, if_false, List.append_nil] at hm
    simp only [messages, hm, if_true, List.append_assoc]
  · rename_i b bs hr
    refine ⟨sent ++ [(b :: bs, behind)], received, ?_, ?_, by simp [hc], ?_, hw⟩
    · rw [← hf, List.map_append, List.flatten_append, List.append_assoc]
      simp only [List.map_cons, List.map_nil, List.flatten_cons, List.flatten_nil,
        List.append_nil, ← hr, List.take_append_drop]
    · intro c hcm
      rcases List.mem_append.mp hcm with hcm | hcm
      · exact hne c hcm
      · simp [List.mem_singleton.mp hcm]
    · simp only [messages, hc, Bool.false_eq_true, if_false, List.append_nil] at hm ⊢
      simp only [List.map_append, hm, List.map_cons, List.map_nil, List.append_assoc]

theorem inv_receive {file : List Byte} {s : State} {m : List Byte} {queue : List (List Byte)}
    (hs : s.stopped = false) (hq : s.queue = m :: queue) (h : Inv file s) :
    Inv file (serverLoop s m queue) := by
  obtain ⟨sent, received, hf, hne, hd, hm, hw⟩ := h
  simp only [Written, hs, Bool.false_eq_true, if_false] at hw
  have hm' : messages sent s.clientDone = (received ++ [m]) ++ queue := by
    rw [hm, hq, List.append_assoc, List.singleton_append]
  unfold serverLoop
  dsimp only
  split_ifs
  · exact ⟨sent, received ++ [m], hf, hne, hd, hm', by
      simp only [Written, if_true]; exact ⟨received, m, rfl, hw⟩⟩
  · refine ⟨sent, received ++ [m], hf, hne, hd, hm', ?_⟩
    simp only [Written, hs, Bool.false_eq_true, if_false, take_overwrite, hw,
      List.flatten_append, List.flatten_cons, List.flatten_nil, List.append_nil]

theorem inv_step {file : List Byte} (s : State) (a : Action) (t : State) (h : Inv file s)
    (ht : step s a = some t) : Inv file t := by
  cases a with
  | send behind =>
    simp only [step] at ht
    split_ifs at ht with hc
    cases ht
    exact inv_send hc.1 h
  | receive =>
    simp only [step] at ht
    split at ht
    · rename_i m queue hs hq
      cases ht
      exact inv_receive hs hq h
    · cases ht

theorem inv_of_reachable {file buf : List Byte} {s : State}
    (h : (transfer file buf).Reachable s) : Inv file s :=
  h.invariant ⟨[], [], rfl, by simp, by simp [transfer], rfl, rfl⟩ inv_step

private theorem length_flatten_messages (sent : List (List Byte × Byte)) :
    (sent.map fun c => c.1 ++ [c.2]).flatten.length =
      (sent.map Prod.fst).flatten.length + sent.length := by
  induction sent with
  | nil => rfl
  | cons c sent ih =>
    simp only [List.map_cons, List.flatten_cons, List.length_append, List.length_cons,
      List.length_nil, ih]
    omega

/-- When the server has stopped, its output is the input and the message it stopped on is the
client's end marker exactly when the input is empty: every block is written with the byte
behind it. -/
theorem received_eq_file_iff {file buf : List Byte} {s : State}
    (h : (transfer file buf).Reachable s) (hs : s.stopped = true) :
    (s.output = file ∧ s.clientDone = true ∧ s.queue = []) ↔ file = [] := by
  obtain ⟨sent, received, hf, hne, hd, hm, hw⟩ := inv_of_reachable h
  simp only [Written, hs, if_true] at hw
  obtain ⟨init, last, rfl, ho⟩ := hw
  constructor
  · rintro ⟨hout, hc, hq⟩
    rw [hq, List.append_nil, hc] at hm
    simp only [messages, if_true] at hm
    obtain ⟨hi, -⟩ := List.append_inj' hm rfl
    rw [hd hc, List.append_nil] at hf
    have hlen := length_flatten_messages sent
    rw [hi, ← ho, hout, hf] at hlen
    have hz : sent = [] := List.length_eq_zero_iff.mp (by omega)
    rw [← hf, hz]
    rfl
  · intro hfile
    subst hfile
    obtain ⟨hfst, hrest⟩ := List.append_eq_nil_iff.mp hf
    have hz : sent = [] := by
      cases sent with
      | nil => rfl
      | cons c sent => exact absurd (List.append_eq_nil_iff.mp hfst).1 (hne c (by simp))
    subst hz
    cases hc : s.clientDone with
    | false => simp [messages, hc] at hm
    | true =>
      simp only [messages, hc, List.map_nil, List.nil_append, if_true] at hm
      have hl := congrArg List.length hm
      simp only [List.length_append, List.length_cons, List.length_nil] at hl
      have hi : init = [] := List.length_eq_zero_iff.mp (by omega)
      have hq : s.queue = [] := List.length_eq_zero_iff.mp (by omega)
      exact ⟨by rw [ho, hi]; rfl, rfl, hq⟩

/-- The transfer of the empty file. -/
theorem empty_file_received :
    ∃ s, (transfer [] (List.replicate 4096 0)).run [.send 0, .receive] = some s ∧
      s.output = [] ∧ s.clientDone = true ∧ s.queue = [] :=
  ⟨_, rfl, (@received_eq_file_iff [] (List.replicate 4096 0) _ ⟨[.send 0, .receive], rfl⟩ rfl).mpr
    rfl⟩

/-- A file of one byte arrives as two. -/
theorem one_byte_file_grows :
    ∃ s, (transfer [0x61] (List.replicate 4096 0)).run
        [.send 0, .send 0, .receive, .receive] = some s ∧
      s.stopped = true ∧ s.output = [0x61, 0] ∧
      ¬ (s.output = [0x61] ∧ s.clientDone = true ∧ s.queue = []) :=
  ⟨_, rfl, rfl, rfl, fun h => absurd h.1 (by decide)⟩

/-- A server that has not stopped still has the end marker in the queue once it was sent. -/
def MarkerQueued (s : State) : Prop :=
  s.stopped = false → s.clientDone = true → quit ++ [0] ∈ s.queue

theorem markerQueued_init (file buf : List Byte) : MarkerQueued (transfer file buf).init :=
  fun _ hd => Bool.noConfusion hd

theorem markerQueued_step (s : State) (a : Action) (t : State) (h : MarkerQueued s)
    (ht : step s a = some t) : MarkerQueued t := by
  cases a with
  | send behind =>
    simp only [step] at ht
    split_ifs at ht with hc
    cases ht
    intro _ hd
    unfold clientLoop at hd ⊢
    split at hd
    · exact List.mem_append_right _ (by simp)
    · exact absurd (hc.1.symm.trans hd) (by decide)
  | receive =>
    simp only [step] at ht
    split at ht
    · rename_i m queue hs hq
      cases ht
      unfold serverLoop
      dsimp only
      split_ifs with hm
      · intro hf
        cases hf
      · intro _ hd
        have hmem : quit ++ [0] ∈ m :: queue := hq ▸ h hs hd
        rcases List.mem_cons.mp hmem with rfl | hmem
        · exact absurd ((strcmp_eq_zero_iff (by decide)).mpr (List.prefix_append _ _)) hm
        · exact hmem
    · cases ht

/-- The bytes to read count twice, as each block still passes through the queue. -/
def remaining (s : State) : ℕ :=
  2 * (s.rest.length + if s.clientDone then 0 else 1) + s.queue.length

theorem remaining_step (s : State) (a : Action) (t : State) (ht : step s a = some t) :
    remaining t < remaining s := by
  cases a with
  | send behind =>
    simp only [step] at ht
    split_ifs at ht with hc
    cases ht
    unfold clientLoop
    split
    · simp only [remaining, hc.1, List.length_append, List.length_singleton, if_true,
        Bool.false_eq_true, if_false]
      omega
    · rename_i b bs hr
      have hl := congrArg List.length hr
      simp only [List.length_take, List.length_cons] at hl
      have hb : 0 < bufLen := by decide
      simp only [remaining, hc.1, List.length_append, List.length_singleton, List.length_drop,
        Bool.false_eq_true, if_false]
      omega
  | receive =>
    simp only [step] at ht
    split at ht
    · rename_i m queue hs hq
      cases ht
      unfold serverLoop
      dsimp only
      split_ifs <;> simp only [remaining, hq, List.length_cons] <;> omega
    · cases ht

/-- Nothing waits for ever: every transfer can be run until the server stops. -/
theorem exists_run_stopped (file buf : List Byte) :
    ∃ s, (transfer file buf).Reachable s ∧ s.stopped = true := by
  obtain ⟨as, s, hr, hh⟩ := Machine.exists_run_halted (M := transfer file buf)
    (I := MarkerQueued) (μ := remaining) markerQueued_step
    (fun s a t _ ht => remaining_step s a t ht) _ (markerQueued_init file buf)
  have hreach : (transfer file buf).Reachable s := ⟨as, hr⟩
  refine ⟨s, hreach, ?_⟩
  by_contra hs
  have hs' : s.stopped = false := by simpa using hs
  have hrec : step s .receive = none := hh .receive
  have hsend : step s (.send 0) = none := hh (.send 0)
  have hm : MarkerQueued s := hreach.invariant (markerQueued_init file buf) markerQueued_step
  cases hq : s.queue with
  | cons m queue => simp [step, hs', hq] at hrec
  | nil =>
    cases hc : s.clientDone with
    | false => simp [step, hc, hq, maxMsg] at hsend
    | true => simpa [hq] using hm hs' hc

end OsTasks.Transfer.MessageQueue
