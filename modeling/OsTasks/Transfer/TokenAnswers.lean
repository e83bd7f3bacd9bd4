import OsTasks.Transfer.TokenServer

/-! Which requests the token server answers, with which tokens, and which clients are left
waiting. -/
namespace OsTasks.Transfer.TokenServer
open OsTasks.Lib

variable {limit : ℕ} {inBuffer : List Byte}

/-- The message of a request. -/
def request (pid : ℕ) : List Byte := clientQueueName pid ++ [0]

/-- The clients whose requests the server has not finished yet. -/
def History.pending (h : History) : List ℕ := h.asked.drop h.answers.length

/-- The requests the server has finished, with what it did. -/
def History.processed (h : History) : List (ℕ × Option ℕ) := h.asked.zip h.answers

/-- The tokens sent to a client. -/
def History.tokensOf (h : History) (pid : ℕ) : List ℕ :=
  h.processed.filterMap fun x => if x.1 = pid then x.2 else none

/-- What the server does with its first `n` requests: it answers until it has no descriptor
left. -/
def answersOf (limit n : ℕ) : List (Option ℕ) :=
  (List.range n).map fun i => if ownDescriptors + i < limit then some (i + 1) else none

/-- Where the server stands in its loop. -/
structure Serving (limit : ℕ) (s : State) (h : History) : Prop where
  le : h.answers.length ≤ h.asked.length
  answers : h.answers = answersOf limit h.answers.length
  queue : s.server = .receive → s.serverQueue = h.pending.map request
  hand : s.server ≠ .receive → ∃ pid rest, h.pending = pid :: rest ∧
    cstr s.inBuffer = clientQueueName pid ∧ s.serverQueue = rest.map request
  loop : (∀ qd, s.server ≠ .send qd) →
    s.opened.length = min h.answers.length (limit - ownDescriptors)
  refused : s.server = .send (-1) → s.opened.length = limit - ownDescriptors ∧
    limit ≤ ownDescriptors + h.answers.length
  opened : ∀ qd, s.server = .send qd → qd ≠ -1 → ownDescriptors + h.answers.length < limit ∧
    qd = ownDescriptors + h.answers.length ∧
    ∃ before, before.length = h.answers.length ∧ s.opened = before ++ [cstr s.inBuffer]
  token : s.tokenNumber = min h.answers.length (limit - ownDescriptors) + 1

/-- Where the one request or reply of a client is. -/
structure Placed (s : State) (h : History) (pid : ℕ) : Prop where
  out : (s.client pid).pc = .out → s.queues (clientQueueName pid) = none
  running : (s.client pid).pc ≠ .out → ∃ queue, s.queues (clientQueueName pid) = some queue
  place : ((s.queues (clientQueueName pid)).getD []).length + h.pending.count pid +
    h.processed.count (pid, none) = if (s.client pid).pc = .receive then 1 else 0
  shown : (s.client pid).shown ++ ((s.queues (clientQueueName pid)).getD []).map cstr =
    (h.tokensOf pid).map decimal

structure Inv (limit : ℕ) (p : State × History) : Prop where
  serving : Serving limit p.1 p.2
  placed : ∀ pid, Placed p.1 p.2 pid

theorem inv_init (limit : ℕ) (inBuffer : List Byte) : Inv limit (recorded limit inBuffer).init where
  serving := {
    le := le_rfl
    answers := rfl
    queue := fun _ => rfl
    hand := fun h => absurd rfl h
    loop := fun _ => (Nat.zero_min _).symm
    refused := fun h => by cases h
    opened := fun _ h => by cases h
    token := by
      show 1 = min 0 _ + 1
      rw [Nat.zero_min] }
  placed := fun pid => ⟨fun _ => rfl, fun h => absurd rfl h, rfl, rfl⟩

theorem zip_append_singleton_left {α β : Type*} (l : List α) (l' : List β) (x : α)
    (h : l'.length ≤ l.length) : (l ++ [x]).zip l' = l.zip l' := by
  induction l' generalizing l with
  | nil => rw [List.zip_nil_right, List.zip_nil_right]
  | cons b l' ih =>
    cases l with
    | nil => cases h
    | cons a l =>
      rw [List.cons_append, List.zip_cons_cons, List.zip_cons_cons, ih l (Nat.le_of_succ_le_succ h)]

theorem zip_append_singleton_right {α β : Type*} {l rest : List α} {l' : List β} {x : α} (y : β)
    (h : l.drop l'.length = x :: rest) : l.zip (l' ++ [y]) = l.zip l' ++ [(x, y)] := by
  induction l' generalizing l with
  | nil =>
    rw [List.length_nil, List.drop_zero] at h
    rw [h, List.nil_append, List.zip_nil_right, List.nil_append, List.zip_cons_cons,
      List.zip_nil_right]
  | cons b l' ih =>
    cases l with
    | nil => cases h
    | cons a l =>
      rw [List.length_cons, List.drop_succ_cons] at h
      rw [List.cons_append, List.zip_cons_cons, List.zip_cons_cons, ih h, List.cons_append]

theorem History.pending_ask {h : History} (hle : h.answers.length ≤ h.asked.length) (pid : ℕ) :
    ({ h with asked := h.asked ++ [pid] } : History).pending = h.pending ++ [pid] :=
  List.drop_append_of_le_length hle

theorem History.processed_ask {h : History} (hle : h.answers.length ≤ h.asked.length) (pid : ℕ) :
    ({ h with asked := h.asked ++ [pid] } : History).processed = h.processed :=
  zip_append_singleton_left _ _ _ hle

theorem History.pending_answer {h : History} {pid : ℕ} {rest : List ℕ} (a : Option ℕ)
    (hp : h.pending = pid :: rest) :
    ({ h with answers := h.answers ++ [a] } : History).pending = rest := by
  unfold History.pending at hp ⊢
  rw [List.length_append, List.length_singleton, ← List.drop_drop, hp]
  rfl

theorem History.processed_answer {h : History} {pid : ℕ} {rest : List ℕ} (a : Option ℕ)
    (hp : h.pending = pid :: rest) :
    ({ h with answers := h.answers ++ [a] } : History).processed = h.processed ++ [(pid, a)] :=
  zip_append_singleton_right a hp

theorem History.length_lt_of_pending {h : History} {pid : ℕ} {rest : List ℕ}
    (hp : h.pending = pid :: rest) : h.answers.length < h.asked.length := by
  have hlen := congrArg List.length hp
  unfold History.pending at hlen
  rw [List.length_drop, List.length_cons] at hlen
  omega

/-- What a step of the recorded machine does. -/
inductive Move (limit : ℕ) (s : State) (h : History) : State → History → Prop
  | take (m : List Byte) (queue : List (List Byte)) : s.server = .receive →
      s.serverQueue = m :: queue →
      Move limit s h { s with serverQueue := queue, inBuffer := overwrite s.inBuffer m,
                              server := .mqOpen } h
  | opened : s.server = .mqOpen → (s.queues (cstr s.inBuffer)).isSome = true →
      ownDescriptors + s.opened.length < limit →
      Move limit s h { s with opened := s.opened ++ [cstr s.inBuffer],
                              server := .send (ownDescriptors + s.opened.length) } h
  | notOpened : s.server = .mqOpen → ¬ ((s.queues (cstr s.inBuffer)).isSome = true ∧
      ownDescriptors + s.opened.length < limit) →
      Move limit s h { s with server := .send (-1) } h
  | refuse : s.server = .send (-1) →
      Move limit s h { s with server := .receive } { h with answers := h.answers ++ [none] }
  | lost (qd : ℤ) : s.server = .send qd → qd ≠ -1 →
      s.queues (s.opened.getD (qd.toNat - ownDescriptors) []) = none →
      Move limit s h { s with tokenNumber := s.tokenNumber + 1, server := .receive }
        { h with answers := h.answers ++ [some s.tokenNumber] }
  | answer (qd : ℤ) (queue : List (List Byte)) : s.server = .send qd → qd ≠ -1 →
      s.queues (s.opened.getD (qd.toNat - ownDescriptors) []) = some queue →
      queue.length < maxMessages →
      Move limit s h
        { s.setQueue (s.opened.getD (qd.toNat - ownDescriptors) [])
            (some (queue ++ [decimal s.tokenNumber ++ [0]])) with
          tokenNumber := s.tokenNumber + 1, server := .receive }
        { h with answers := h.answers ++ [some s.tokenNumber] }
  | start (pid : ℕ) : (s.client pid).pc = .out →
      Move limit s h ((s.setQueue (clientQueueName pid)
        (some ((s.queues (clientQueueName pid)).getD []))).goto pid .fgets) h
  | more (pid : ℕ) : (s.client pid).pc = .fgets → Move limit s h (s.goto pid .send) h
  | leave (pid : ℕ) : (s.client pid).pc = .fgets →
      Move limit s h ((s.setQueue (clientQueueName pid) none).goto pid .out) h
  | ask (pid : ℕ) : (s.client pid).pc = .send → s.serverQueue.length < maxMessages →
      Move limit s h
        ({ s with serverQueue := s.serverQueue ++ [request pid] }.goto pid .receive)
        { h with asked := h.asked ++ [pid] }
  | display (pid : ℕ) (m : List Byte) (queue : List (List Byte)) : (s.client pid).pc = .receive →
      s.queues (clientQueueName pid) = some (m :: queue) →
      Move limit s h ((s.setQueue (clientQueueName pid) (some queue)).display pid (cstr m)) h

theorem move_of_step {s s' : State} {a : Act} (h : History) (hs : step limit s a = some s') :
    Move limit s h s' (record s a s' h) := by
  cases a with
  | server =>
    have hstep : serverStep limit s = some s' := hs
    unfold serverStep at hstep
    cases hserver : s.server with
    | receive =>
      rw [hserver] at hstep
      dsimp only at hstep
      cases hqueue : s.serverQueue with
      | nil =>
        rw [hqueue] at hstep
        cases hstep
      | cons m queue =>
        rw [hqueue] at hstep
        simp only [record, hserver]
        exact Option.some.inj hstep ▸ .take m queue hserver hqueue
    | mqOpen =>
      rw [hserver] at hstep
      dsimp only at hstep
      simp only [record, hserver]
      have hown : ownDescriptors + s.opened.length ≠ 1 := by
        unfold ownDescriptors
        omega
      rw [if_neg hown] at hstep
      split_ifs at hstep with hopen
      · exact Option.some.inj hstep ▸ .opened hserver hopen.1 hopen.2
      · exact Option.some.inj hstep ▸ .notOpened hserver hopen
    | send qd =>
      rw [hserver] at hstep
      dsimp only at hstep
      simp only [record, hserver]
      by_cases hqd : qd = -1
      · subst qd
        rw [if_pos rfl] at hstep ⊢
        exact Option.some.inj hstep ▸ .refuse hserver
      · rw [if_neg hqd] at hstep ⊢
        cases hqueue : s.queues (s.opened.getD (qd.toNat - ownDescriptors) []) with
        | none =>
          rw [hqueue] at hstep
          exact Option.some.inj hstep ▸ .lost qd hserver hqd hqueue
        | some queue =>
          rw [hqueue] at hstep
          dsimp only at hstep
          split_ifs at hstep with hroom
          exact Option.some.inj hstep ▸ .answer qd queue hserver hqd hqueue hroom
  | start pid =>
    obtain ⟨hpc, hs⟩ := Option.ite_none_right_eq_some.mp hs
    exact Option.some.inj hs ▸ .start pid hpc
  | fgets pid more =>
    cases more with
    | true =>
      obtain ⟨hpc, hs⟩ := Option.ite_none_right_eq_some.mp hs
      exact Option.some.inj hs ▸ .more pid hpc
    | false =>
      obtain ⟨hpc, hs⟩ := Option.ite_none_right_eq_some.mp hs
      exact Option.some.inj hs ▸ .leave pid hpc
  | client pid =>
    have hstep : clientStep s pid = some s' := hs
    unfold clientStep at hstep
    cases hpc : (s.client pid).pc with
    | send =>
      rw [hpc] at hstep
      obtain ⟨hroom, hstep⟩ := Option.ite_none_right_eq_some.mp hstep
      have hrec : record s (.client pid) s' h = { h with asked := h.asked ++ [pid] } := if_pos hpc
      rw [hrec]
      exact Option.some.inj hstep ▸ .ask pid hpc hroom
    | receive =>
      rw [hpc] at hstep
      dsimp only at hstep
      have hrec : record s (.client pid) s' h = h := if_neg (by rw [hpc]; nofun)
      rw [hrec]
      cases hqueue : s.queues (clientQueueName pid) with
      | none =>
        rw [hqueue] at hstep
        cases hstep
      | some queue =>
        cases queue with
        | nil =>
          rw [hqueue] at hstep
          cases hstep
        | cons m queue =>
          rw [hqueue] at hstep
          exact Option.some.inj hstep ▸ .display pid m queue hpc hqueue
    | out =>
      rw [hpc] at hstep
      cases hstep
    | fgets =>
      rw [hpc] at hstep
      cases hstep

theorem answersOf_succ (limit n : ℕ) : answersOf limit (n + 1) = answersOf limit n ++
    [if ownDescriptors + n < limit then some (n + 1) else none] := by
  unfold answersOf
  rw [List.range_succ, List.map_append, List.map_singleton]

theorem Placed.queue_of_pending {s : State} {h : History} {pid : ℕ} (hp : Placed s h pid)
    {rest : List ℕ} (hpending : h.pending = pid :: rest) :
    s.queues (clientQueueName pid) = some [] ∧ (s.client pid).pc = .receive := by
  have hplace := hp.place
  rw [hpending, List.count_cons_self] at hplace
  have hpc : (s.client pid).pc = .receive := by
    by_contra hne
    rw [if_neg hne] at hplace
    omega
  rw [if_pos hpc] at hplace
  obtain ⟨queue, hqueue⟩ := hp.running (by rw [hpc]; nofun)
  rw [hqueue, Option.getD_some] at hplace
  have hnil : queue = [] := List.eq_nil_of_length_eq_zero (by omega)
  exact ⟨by rw [hqueue, hnil], hpc⟩

/-- The descriptor stands for the queue of the client whose request the server holds. -/
theorem Serving.name_of_send {s : State} {h : History} (hs : Serving limit s h) {qd : ℤ}
    (hserver : s.server = .send qd) (hqd : qd ≠ -1) :
    s.opened.getD (qd.toNat - ownDescriptors) [] = cstr s.inBuffer := by
  obtain ⟨-, hnum, before, hlen, hopened⟩ := hs.opened qd hserver hqd
  have hindex : qd.toNat - ownDescriptors = before.length := by
    unfold ownDescriptors at hnum ⊢
    omega
  rw [hopened, hindex, List.getD_eq_getElem?_getD, List.getElem?_append_right le_rfl, Nat.sub_self]
  rfl

theorem serving_move {s s' : State} {h h' : History} (hs : Serving limit s h)
    (hp : ∀ pid, Placed s h pid) (hm : Move limit s h s' h') : Serving limit s' h' := by
  have hown : ownDescriptors = 4 := rfl
  cases hm with
  | take m queue hserver hqueue =>
    have hpending := hs.queue hserver
    rw [hqueue] at hpending
    obtain ⟨pid, rest, hcons, hpid, hrest⟩ := List.map_eq_cons_iff.mp hpending.symm
    refine ⟨hs.le, hs.answers, nofun, fun _ => ⟨pid, rest, hcons, ?_, hrest.symm⟩, fun _ => ?_,
      nofun, nofun, hs.token⟩
    · rw [← hpid]
      exact cstr_received s.inBuffer pid
    · exact hs.loop (by rw [hserver]; nofun)
  | opened hserver hsome hroom =>
    have hlen := hs.loop (by rw [hserver]; nofun)
    have hn : s.opened.length = h.answers.length := by omega
    refine ⟨hs.le, hs.answers, nofun, fun _ => hs.hand (by rw [hserver]; nofun),
      fun hloop => absurd rfl (hloop _), fun hrefused => ?_, fun qd hqd _ => ?_, hs.token⟩
    · injection hrefused with hrefused
      omega
    · injection hqd with hqd
      exact ⟨by omega, by omega, s.opened, hn, rfl⟩
  | notOpened hserver hnot =>
    obtain ⟨pid, rest, hpending, hname, hqueue⟩ := hs.hand (by rw [hserver]; nofun)
    have hlen := hs.loop (by rw [hserver]; nofun)
    have hexists := ((hp pid).queue_of_pending hpending).1
    have hfull : ¬ ownDescriptors + s.opened.length < limit := by
      intro hroom
      apply hnot
      rw [hname, hexists]
      exact ⟨rfl, hroom⟩
    refine ⟨hs.le, hs.answers, nofun, fun _ => ⟨pid, rest, hpending, hname, hqueue⟩,
      fun hloop => absurd rfl (hloop _), fun _ => ⟨?_, by omega⟩, fun qd hqd hne => ?_, hs.token⟩
    · show s.opened.length = limit - ownDescriptors
      omega
    · injection hqd with hqd
      exact absurd hqd.symm hne
  | refuse hserver =>
    obtain ⟨pid, rest, hpending, -, hqueue⟩ := hs.hand (by rw [hserver]; nofun)
    obtain ⟨hlen, hfull⟩ := hs.refused hserver
    have hlt := History.length_lt_of_pending hpending
    have hanswers : h.answers ++ [none] = answersOf limit (h.answers.length + 1) := by
      rw [answersOf_succ, if_neg (by omega), ← hs.answers]
    have htoken := hs.token
    refine ⟨?_, ?_, fun _ => ?_, fun hne => absurd rfl hne, fun _ => ?_, nofun, nofun, ?_⟩
    · rw [List.length_append, List.length_singleton]
      exact hlt
    · rw [List.length_append, List.length_singleton]
      exact hanswers
    · rw [History.pending_answer none hpending]
      exact hqueue
    · rw [List.length_append, List.length_singleton]
      dsimp only
      omega
    · rw [List.length_append, List.length_singleton]
      dsimp only
      omega
  | lost qd hserver hqd hnone =>
    obtain ⟨pid, rest, hpending, hname, -⟩ := hs.hand (by rw [hserver]; nofun)
    have hexists := ((hp pid).queue_of_pending hpending).1
    rw [hs.name_of_send hserver hqd, hname, hexists] at hnone
    cases hnone
  | answer qd queue hserver hqd hsome hroom =>
    obtain ⟨pid, rest, hpending, -, hqueue⟩ := hs.hand (by rw [hserver]; nofun)
    obtain ⟨hlimit, -, before, hbefore, hopened⟩ := hs.opened qd hserver hqd
    have hlt := History.length_lt_of_pending hpending
    have htoken := hs.token
    have hnum : s.tokenNumber = h.answers.length + 1 := by omega
    have hanswers : h.answers ++ [some s.tokenNumber] =
        answersOf limit (h.answers.length + 1) := by
      rw [answersOf_succ, if_pos hlimit, hnum, ← hs.answers]
    have hlen : s.opened.length = h.answers.length + 1 := by
      rw [hopened, List.length_append, hbefore, List.length_singleton]
    refine ⟨?_, ?_, fun _ => ?_, fun hne => absurd rfl hne, fun _ => ?_, nofun, nofun, ?_⟩
    · rw [List.length_append, List.length_singleton]
      exact hlt
    · rw [List.length_append, List.length_singleton]
      exact hanswers
    · rw [History.pending_answer _ hpending]
      exact hqueue
    · rw [List.length_append, List.length_singleton]
      show s.opened.length = _
      omega
    · rw [List.length_append, List.length_singleton]
      dsimp only
      omega
  | start pid _ =>
    exact ⟨hs.le, hs.answers, hs.queue, hs.hand, hs.loop, hs.refused, hs.opened, hs.token⟩
  | more pid _ =>
    exact ⟨hs.le, hs.answers, hs.queue, hs.hand, hs.loop, hs.refused, hs.opened, hs.token⟩
  | leave pid _ =>
    exact ⟨hs.le, hs.answers, hs.queue, hs.hand, hs.loop, hs.refused, hs.opened, hs.token⟩
  | ask pid hpc _ =>
    have hpending := History.pending_ask hs.le pid
    refine ⟨?_, hs.answers, fun hserver => ?_, fun hserver => ?_, hs.loop, hs.refused, hs.opened,
      hs.token⟩
    · rw [List.length_append]
      exact hs.le.trans (Nat.le_add_right ..)
    · rw [hpending, List.map_append, ← hs.queue hserver]
      rfl
    · obtain ⟨first, rest, hfirst, hname, hqueue⟩ := hs.hand hserver
      refine ⟨first, rest ++ [pid], ?_, hname, ?_⟩
      · rw [hpending, hfirst]
        rfl
      · rw [List.map_append, ← hqueue]
        rfl
  | display pid m queue _ _ =>
    exact ⟨hs.le, hs.answers, hs.queue, hs.hand, hs.loop, hs.refused, hs.opened, hs.token⟩

theorem History.tokensOf_answer {h : History} {first : ℕ} {rest : List ℕ} (a : Option ℕ)
    (hp : h.pending = first :: rest) (pid : ℕ) :
    ({ h with answers := h.answers ++ [a] } : History).tokensOf pid =
      h.tokensOf pid ++ (if first = pid then a.toList else []) := by
  unfold History.tokensOf
  rw [History.processed_answer a hp, List.filterMap_append]
  by_cases hpid : first = pid
  · cases a <;> simp [hpid]
  · simp [hpid]

/-- A step of the server that answers nobody, and a step of another client. -/
theorem Placed.congr {s s' : State} {h h' : History} {pid : ℕ} (hp : Placed s h pid)
    (hclient : s'.client pid = s.client pid)
    (hqueue : s'.queues (clientQueueName pid) = s.queues (clientQueueName pid))
    (hpending : h'.pending.count pid = h.pending.count pid)
    (hprocessed : h'.processed = h.processed) : Placed s' h' pid := by
  refine ⟨?_, ?_, ?_, ?_⟩
  · rw [hclient, hqueue]
    exact hp.out
  · rw [hclient, hqueue]
    exact hp.running
  · rw [hclient, hqueue, hpending, hprocessed]
    exact hp.place
  · unfold History.tokensOf
    rw [hclient, hqueue, hprocessed]
    exact hp.shown

/-- The server has finished the request of the client `first`, with a reply in its queue or with
none. -/
theorem Placed.answered {s s' : State} {h : History} {first : ℕ} {rest : List ℕ} {a : Option ℕ}
    (hp : ∀ pid, Placed s h pid) (hpending : h.pending = first :: rest)
    (hclient : s'.client = s.client)
    (hqueue : ∀ pid, s'.queues (clientQueueName pid) =
      if first = pid then some (a.toList.map fun n => decimal n ++ [0])
      else s.queues (clientQueueName pid)) (pid : ℕ) :
    Placed s' { h with answers := h.answers ++ [a] } pid := by
  have hold := hp pid
  have hprocessed := History.processed_answer a hpending
  have htokens := History.tokensOf_answer a hpending pid
  have hrest := History.pending_answer a hpending
  have hshown := hold.shown
  by_cases hpid : first = pid
  · subst hpid
    obtain ⟨hempty, hpc⟩ := hold.queue_of_pending hpending
    have hplace := hold.place
    rw [hempty, if_pos hpc, hpending, List.count_cons_self] at hplace
    rw [hempty] at hshown
    refine ⟨fun hout => ?_, fun _ => ⟨_, (hqueue first).trans (if_pos rfl)⟩, ?_, ?_⟩
    · rw [hclient, hpc] at hout
      cases hout
    · rw [hqueue, if_pos rfl, hclient, if_pos hpc, hprocessed, hrest]
      cases a with
      | none => simp at hplace ⊢; omega
      | some n => simp at hplace ⊢; omega
    · rw [hqueue, if_pos rfl, hclient, htokens, if_pos rfl, List.map_append, ← hshown]
      cases a with
      | none => simp
      | some n => simp [cstr_token]
  · have hq := (hqueue pid).trans (if_neg hpid)
    refine ⟨?_, ?_, ?_, ?_⟩
    · rw [hclient, hq]
      exact hold.out
    · rw [hclient, hq]
      exact hold.running
    · have hplace := hold.place
      rw [hpending, List.count_cons_of_ne (fun he => hpid (by simpa using he))] at hplace
      rw [hclient, hq, hprocessed, hrest, List.count_append]
      have hne : ¬ (first = pid ∧ a = none) := fun hboth => hpid hboth.1
      simpa [List.count_singleton, hpid] using hplace
    · rw [hclient, hq, htokens, if_neg hpid, List.append_nil]
      exact hshown

theorem queue_other (s : State) {pid other : ℕ} (hne : other ≠ pid)
    (queue : Option (List (List Byte))) :
    (s.setQueue (clientQueueName pid) queue).queues (clientQueueName other) =
      s.queues (clientQueueName other) :=
  Function.update_of_ne (fun he => hne (clientQueueName_injective he)) ..

theorem placed_move {s s' : State} {h h' : History} (hs : Serving limit s h)
    (hp : ∀ pid, Placed s h pid) (hm : Move limit s h s' h') (pid : ℕ) : Placed s' h' pid := by
  cases hm with
  | take m queue _ _ => exact (hp pid).congr rfl rfl rfl rfl
  | opened _ _ _ => exact (hp pid).congr rfl rfl rfl rfl
  | notOpened _ _ => exact (hp pid).congr rfl rfl rfl rfl
  | refuse hserver =>
    obtain ⟨first, rest, hpending, -⟩ := hs.hand (by rw [hserver]; nofun)
    refine Placed.answered hp hpending ?_ (fun other => ?_) pid
    · rfl
    split_ifs with heq
    · subst other
      exact ((hp first).queue_of_pending hpending).1
    · rfl
  | lost qd hserver hqd hnone =>
    obtain ⟨first, rest, hpending, hname, -⟩ := hs.hand (by rw [hserver]; nofun)
    rw [hs.name_of_send hserver hqd, hname, ((hp first).queue_of_pending hpending).1] at hnone
    cases hnone
  | answer qd queue hserver hqd hsome _ =>
    obtain ⟨first, rest, hpending, hname, -⟩ := hs.hand (by rw [hserver]; nofun)
    rw [hs.name_of_send hserver hqd, hname] at hsome ⊢
    have hempty := ((hp first).queue_of_pending hpending).1
    rw [hempty] at hsome
    cases hsome
    refine Placed.answered hp hpending ?_ (fun other => ?_) pid
    · rfl
    split_ifs with heq
    · subst other
      exact Function.update_self ..
    · exact queue_other s (fun he => heq he.symm) _
  | start other hpc =>
    by_cases hne : pid = other
    · subst other
      have hnone := (hp pid).out hpc
      have hplace := (hp pid).place
      have hshown := (hp pid).shown
      have hqueue : ((s.setQueue (clientQueueName pid)
          (some ((s.queues (clientQueueName pid)).getD []))).goto pid .fgets).queues
          (clientQueueName pid) = some [] := by
        rw [hnone]
        exact Function.update_self ..
      have hclient : ((s.setQueue (clientQueueName pid)
          (some ((s.queues (clientQueueName pid)).getD []))).goto pid .fgets).client pid =
          { pc := .fgets, shown := (s.client pid).shown } := Function.update_self ..
      rw [hnone, hpc] at hplace
      rw [hnone] at hshown
      refine ⟨fun hout => ?_, fun _ => ⟨[], hqueue⟩, ?_, ?_⟩
      · rw [hclient] at hout
        cases hout
      · rw [hqueue, hclient]
        exact hplace
      · rw [hqueue, hclient]
        exact hshown
    · exact (hp pid).congr (Function.update_of_ne hne ..) (queue_other s hne _) rfl rfl
  | more other hpc =>
    by_cases hne : pid = other
    · subst other
      have hplace := (hp pid).place
      have hclient : (s.goto pid .send).client pid =
          { pc := .send, shown := (s.client pid).shown } := Function.update_self ..
      rw [hpc] at hplace
      refine ⟨fun hout => ?_, fun _ => (hp pid).running (by rw [hpc]; nofun), ?_, ?_⟩
      · rw [hclient] at hout
        cases hout
      · rw [hclient]
        exact hplace
      · rw [hclient]
        exact (hp pid).shown
    · exact (hp pid).congr (Function.update_of_ne hne ..) rfl rfl rfl
  | leave other hpc =>
    by_cases hne : pid = other
    · subst other
      have hplace := (hp pid).place
      have hshown := (hp pid).shown
      obtain ⟨queue, hsome⟩ := (hp pid).running (by rw [hpc]; nofun)
      have hclient : ((s.setQueue (clientQueueName pid) none).goto pid .out).client pid =
          { pc := .out, shown := (s.client pid).shown } := Function.update_self ..
      have hqueue : ((s.setQueue (clientQueueName pid) none).goto pid .out).queues
          (clientQueueName pid) = none := Function.update_self ..
      rw [hsome, hpc] at hplace
      simp only [Option.getD_some, reduceCtorEq, if_false] at hplace
      have hnil : queue = [] := List.eq_nil_of_length_eq_zero (by omega)
      rw [hsome, hnil] at hshown
      refine ⟨fun _ => hqueue, fun hout => ?_, ?_, ?_⟩
      · rw [hclient] at hout
        exact absurd rfl hout
      · rw [hqueue, hclient]
        show 0 + _ + _ = 0
        omega
      · rw [hqueue, hclient]
        exact hshown
    · exact (hp pid).congr (Function.update_of_ne hne ..) (queue_other s hne _) rfl rfl
  | ask other hpc _ =>
    have hpending := History.pending_ask hs.le other
    have hprocessed := History.processed_ask hs.le other
    by_cases hne : pid = other
    · subst other
      have hplace := (hp pid).place
      have hclient : ({ s with serverQueue := s.serverQueue ++ [request pid] }.goto pid
          .receive).client pid = { pc := .receive, shown := (s.client pid).shown } :=
        Function.update_self ..
      rw [hpc] at hplace
      simp only [reduceCtorEq, if_false] at hplace
      refine ⟨fun hout => ?_, fun _ => (hp pid).running (by rw [hpc]; nofun), ?_, ?_⟩
      · rw [hclient] at hout
        cases hout
      · rw [hclient, hpending, hprocessed, List.count_append, List.count_singleton_self]
        show ((s.queues (clientQueueName pid)).getD []).length + _ + _ = 1
        omega
      · unfold History.tokensOf
        rw [hclient, hprocessed]
        exact (hp pid).shown
    · have hcount : (h.pending ++ [other]).count pid = h.pending.count pid := by
        rw [List.count_append, List.count_singleton, if_neg (by simpa using Ne.symm hne),
          Nat.add_zero]
      exact (hp pid).congr (Function.update_of_ne hne ..) rfl (by rw [hpending, hcount]) hprocessed
  | display other m queue hpc hsome =>
    by_cases hne : pid = other
    · subst other
      have hplace := (hp pid).place
      have hshown := (hp pid).shown
      rw [hsome, if_pos hpc, Option.getD_some, List.length_cons] at hplace
      have hnil : queue = [] := List.eq_nil_of_length_eq_zero (by omega)
      subst hnil
      rw [hsome] at hshown
      have hclient : ((s.setQueue (clientQueueName pid) (some [])).display pid
          (cstr m)).client pid = { pc := .fgets, shown := (s.client pid).shown ++ [cstr m] } :=
        Function.update_self ..
      have hqueue : ((s.setQueue (clientQueueName pid) (some [])).display pid (cstr m)).queues
          (clientQueueName pid) = some [] := Function.update_self ..
      refine ⟨fun hout => ?_, fun _ => ⟨[], hqueue⟩, ?_, ?_⟩
      · rw [hclient] at hout
        cases hout
      · rw [hclient, hqueue]
        simp at hplace ⊢
        omega
      · rw [hclient, hqueue]
        simpa using hshown
    · refine (hp pid).congr (Function.update_of_ne hne ..) ?_ rfl rfl
      exact queue_other s hne _

theorem inv_step (p : State × History) (a : Act) (q : State × History) (h : Inv limit p)
    (hq : (recorded limit inBuffer).step p a = some q) : Inv limit q := by
  obtain ⟨hstep, hrec⟩ := Machine.withHistory_step_eq_some.mp hq
  have hm := move_of_step p.2 hstep
  rw [← hrec] at hm
  exact ⟨serving_move h.serving h.placed hm, placed_move h.serving h.placed hm⟩

theorem inv_of_reachable {p : State × History} (h : (recorded limit inBuffer).Reachable p) :
    Inv limit p :=
  h.invariant (inv_init limit inBuffer) inv_step

/-- The server takes the requests in the order in which they were made and answers them with the
tokens 1, 2, 3, … until it has no descriptor left, and then none. Each client has shown the tokens
of its own requests in order, up to one that lies in its queue. -/
theorem tokens_in_order {s : State} {h : History}
    (hr : (recorded limit inBuffer).Reachable (s, h)) :
    h.answers = answersOf limit h.answers.length ∧
    (s.server = .receive → s.serverQueue = h.pending.map request) ∧
    ∀ pid, ((s.queues (clientQueueName pid)).getD []).length ≤ 1 ∧
      (s.client pid).shown ++ ((s.queues (clientQueueName pid)).getD []).map cstr =
        (h.tokensOf pid).map decimal := by
  have hinv := inv_of_reachable hr
  refine ⟨hinv.serving.answers, hinv.serving.queue, fun pid => ⟨?_, (hinv.placed pid).shown⟩⟩
  have hplace := (hinv.placed pid).place
  dsimp only at hplace
  split_ifs at hplace <;> omega

/-- Two clients ask a server that may have six descriptors, the client 7 twice. -/
def threeRequests : List Act :=
  [.start 7, .start 8, .fgets 7 true, .fgets 8 true, .client 7, .client 8, .server, .server,
    .server, .client 7, .fgets 7 true, .client 7, .server, .server, .server, .server, .server,
    .server]

theorem answers_threeRequests :
    ((recorded 6 []).run threeRequests).map (fun p =>
      (p.2.answers, p.1.queues (clientQueueName 8))) =
        some ([some 1, some 2, none], some [decimal 2 ++ [0]]) := by
  decide +kernel

theorem tokens_in_order_three :
    ∃ s h, (recorded 6 []).run threeRequests = some (s, h) ∧
      answersOf 6 h.answers.length = [some 1, some 2, none] ∧
      (s.client 7).shown ++ ((s.queues (clientQueueName 7)).getD []).map cstr =
        (h.tokensOf 7).map decimal ∧
      (s.client 8).shown ++ [decimal 2] = (h.tokensOf 8).map decimal := by
  obtain ⟨⟨s, h⟩, hrun, hproj⟩ := Option.map_eq_some_iff.mp answers_threeRequests
  obtain ⟨hanswers, hqueue⟩ := Prod.mk.inj hproj
  have hall := tokens_in_order ⟨threeRequests, hrun⟩
  have height := (hall.2.2 8).2
  rw [hqueue, Option.getD_some, List.map_singleton, cstr_token] at height
  exact ⟨s, h, hrun, hall.1.symm.trans hanswers, (hall.2.2 7).2, height⟩

theorem server_of_stuck {s : State} {h : History} (hinv : Inv limit (s, h))
    (hserver : step limit s .server = none) : s.server = .receive ∧ s.serverQueue = [] := by
  have hserver : serverStep limit s = none := hserver
  unfold serverStep at hserver
  cases hpc : s.server with
  | receive =>
    rw [hpc] at hserver
    dsimp only at hserver
    cases hqueue : s.serverQueue with
    | nil => exact ⟨rfl, rfl⟩
    | cons m queue =>
      rw [hqueue] at hserver
      cases hserver
  | mqOpen =>
    rw [hpc] at hserver
    dsimp only at hserver
    split_ifs at hserver
  | send qd =>
    rw [hpc] at hserver
    dsimp only at hserver
    by_cases hqd : qd = -1
    · rw [if_pos hqd] at hserver
      cases hserver
    · obtain ⟨pid, rest, hpending, hname, -⟩ := hinv.serving.hand (by rw [hpc]; nofun)
      have hempty := ((hinv.placed pid).queue_of_pending hpending).1
      dsimp only at hname hempty
      rw [if_neg hqd, hinv.serving.name_of_send hpc hqd, hname, hempty] at hserver
      cases hserver

theorem queue_of_stuck {s : State} {pid : ℕ} (hclient : step limit s (.client pid) = none)
    (hpc : (s.client pid).pc = .receive) : (s.queues (clientQueueName pid)).getD [] = [] := by
  have hclient : clientStep s pid = none := hclient
  unfold clientStep at hclient
  rw [hpc] at hclient
  dsimp only at hclient
  cases hq : s.queues (clientQueueName pid) with
  | none => rfl
  | some queue =>
    cases queue with
    | nil => rfl
    | cons m queue =>
      rw [hq] at hclient
      cases hclient

theorem Serving.limit_of_refused {s : State} {h : History} (hs : Serving limit s h) {pid : ℕ}
    (hmem : (pid, none) ∈ h.processed) : limit < ownDescriptors + h.asked.length := by
  have hnone : none ∈ h.answers := (List.of_mem_zip hmem).2
  have hlen := hs.le
  rw [hs.answers] at hnone
  obtain ⟨i, hi, hval⟩ := List.mem_map.mp hnone
  have hi := List.mem_range.mp hi
  by_contra hle
  rw [if_pos (by omega)] at hval
  cases hval

theorem refused_move {s s' : State} {h h' : History} (hs : Serving limit s h)
    (hm : Move limit s h s' h') {x : ℕ × Option ℕ} (hx : x ∈ h.processed) : x ∈ h'.processed := by
  have hanswer : ∀ a, s.server ≠ .receive →
      x ∈ ({ h with answers := h.answers ++ [a] } : History).processed := by
    intro a hserver
    obtain ⟨first, rest, hpending, -⟩ := hs.hand hserver
    rw [History.processed_answer a hpending]
    exact List.mem_append_left _ hx
  cases hm with
  | refuse hserver => exact hanswer _ (by rw [hserver]; nofun)
  | lost qd hserver => exact hanswer _ (by rw [hserver]; nofun)
  | answer qd queue hserver => exact hanswer _ (by rw [hserver]; nofun)
  | ask pid _ _ =>
    rw [History.processed_ask hs.le pid]
    exact hx
  | _ => exact hx

/-- A client whose request was refused never goes on. -/
theorem receive_of_refused {p q : State × History} {as : List Act} {pid : ℕ} (hinv : Inv limit p)
    (hmem : (pid, none) ∈ p.2.processed)
    (h : (recorded limit inBuffer).runFrom p as = some q) : (q.1.client pid).pc = .receive := by
  have hkept : Inv limit q ∧ (pid, none) ∈ q.2.processed := by
    apply Machine.runFrom_invariant (I := fun r => Inv limit r ∧ (pid, none) ∈ r.2.processed) _
      ⟨hinv, hmem⟩ h
    intro r a t hr ht
    obtain ⟨hstep, hrec⟩ := Machine.withHistory_step_eq_some.mp ht
    have hm := move_of_step r.2 hstep
    rw [← hrec] at hm
    exact ⟨inv_step r a t hr.1 ht, refused_move hr.1.serving hm hr.2⟩
  have hplace := (hkept.1.placed pid).place
  have hcount := List.count_pos_iff.mpr hkept.2
  by_contra hne
  rw [if_neg hne] at hplace
  omega

/-- When the server waits for a request, a client that cannot go on without input either waits for
input or has made a request when the server had no descriptor left, and then it waits for ever. -/
theorem waiting_iff {s : State} {h : History} (hr : (recorded limit inBuffer).Reachable (s, h))
    (hserver : step limit s .server = none) :
    (∀ pid, step limit s (.client pid) = none →
      (s.client pid).pc ≠ .send ∧
      ((s.client pid).pc = .receive ↔ (pid, none) ∈ h.processed)) ∧
    (∀ pid, (pid, none) ∈ h.processed → ∀ as q,
      (recorded limit inBuffer).runFrom (s, h) as = some q → (q.1.client pid).pc = .receive) ∧
    (ownDescriptors + h.asked.length ≤ limit →
      ∀ pid, step limit s (.client pid) = none → (s.client pid).pc ≠ .receive) := by
  have hinv := inv_of_reachable hr
  obtain ⟨hpc, hqueue⟩ := server_of_stuck hinv hserver
  have hpending : h.pending = [] := by
    have hq : s.serverQueue = h.pending.map request := hinv.serving.queue hpc
    rw [hqueue] at hq
    exact List.map_eq_nil_iff.mp hq.symm
  have hiff : ∀ pid, step limit s (.client pid) = none →
      ((s.client pid).pc = .receive ↔ (pid, none) ∈ h.processed) := by
    intro pid hclient
    have hplace := (hinv.placed pid).place
    dsimp only at hplace
    rw [hpending, List.count_nil] at hplace
    constructor
    · intro hreceive
      rw [queue_of_stuck hclient hreceive, if_pos hreceive, List.length_nil] at hplace
      exact List.count_pos_iff.mp (by omega)
    · intro hmem
      by_contra hne
      rw [if_neg hne] at hplace
      have := List.count_pos_iff.mpr hmem
      omega
  refine ⟨fun pid hclient => ⟨fun hsend => ?_, hiff pid hclient⟩,
    fun pid hmem as q hq => receive_of_refused hinv hmem hq, fun hle pid hclient hreceive => ?_⟩
  · have hclient : clientStep s pid = none := hclient
    unfold clientStep at hclient
    rw [hsend] at hclient
    dsimp only at hclient
    rw [hqueue, if_pos (by decide)] at hclient
    cases hclient
  · have hlimit := hinv.serving.limit_of_refused ((hiff pid hclient).mp hreceive)
    dsimp only at hlimit
    omega

/-- Two requests of the client 7 to a server that may have five descriptors. -/
def twoRequests : List Act :=
  [.start 7, .fgets 7 true, .client 7, .server, .server, .server, .client 7, .fgets 7 true,
    .client 7, .server, .server, .server]

theorem state_twoRequests : ((recorded 5 []).run twoRequests).map (fun p =>
    (p.1.server, p.1.serverQueue, (p.1.client 7).pc, p.1.queues (clientQueueName 7))) =
      some (.receive, [], .receive, some []) := by
  decide +kernel

theorem waiting_two : ∃ s h, (recorded 5 []).run twoRequests = some (s, h) ∧
    (s.client 7).pc = .receive ∧ (7, none) ∈ h.processed := by
  obtain ⟨⟨s, h⟩, hrun, hstate⟩ := Option.map_eq_some_iff.mp state_twoRequests
  simp only [Prod.mk.injEq] at hstate
  obtain ⟨hserver, hqueue, hpc, hempty⟩ := hstate
  have hs : step 5 s .server = none := by
    show serverStep 5 s = none
    simp [serverStep, hserver, hqueue]
  have hc : step 5 s (.client 7) = none := by
    show clientStep s 7 = none
    simp [clientStep, hpc, hempty]
  have hall := waiting_iff ⟨twoRequests, hrun⟩ hs
  exact ⟨s, h, hrun, hpc, ((hall.1 7 hc).2).mp hpc⟩

end OsTasks.Transfer.TokenServer
