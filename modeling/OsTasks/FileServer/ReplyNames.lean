import OsTasks.FileServer.DispatchActed
import OsTasks.FileServer.Server

/-! Where the file server sends its responses: the name that a client's own `REG` message gives, the
one that `add_client` stores and the one that `client_request` hands to `send_file`. -/
namespace OsTasks.FileServer.Dispatch
open OsTasks.Lib

/-- The name for the responses in a message alone. -/
def ownRx (m : List Byte) : Option Name := (tokensOf 3 m)[2]?

def Registration.client (r : Registration) : Client := ⟨r.fd, r.rx⟩

def recordRegistration (s : State) (e : ServerEvent) (_ : State) (regs : List Registration) :
    List Registration :=
  regs ++ (registration s e).toList

/-- The server with its registrations, in the order of the clients. -/
def serverRegistrations (setup : Setup) : Machine (State × List Registration) ServerEvent :=
  (server setup).withHistory [] recordRegistration

/-- What is stored for a client, which a `GET` hands on, is the name in its own message, and fits in
the block allocated for it; what was handed on is that name too. -/
structure RepliesOwn (p : State × List Registration) : Prop where
  stored : ∀ (i : ℕ) (r : Registration), p.2[i]? = some r → ∃ c, p.1.clients[i]? = some c ∧
    ownRx r.message = some c.rxFilename ∧ c.rxFilename.length < pointerSize
  handed : ∀ j ∈ p.1.jobs, ∃ r, p.2[j.client]? = some r ∧
    ownRx r.message = some j.request.destFileName

/-- A message has three words, the third one fits, and what the buffer holds behind the message does
not go on with it. -/
def NamesReply (q : Env × List Byte) : Prop :=
  ∃ a b c, tokensOf 3 q.2 = [a, b, c] ∧ c.length < pointerSize ∧
    (scan 3 q.2 = none → (q.1.stack.buf.drop q.2.length).takeWhile isToken = [])

/-- A message that is read as a registration names where the responses go. -/
def RegistersOwn (p : State × List Registration) (e : ServerEvent) : Prop :=
  ∀ q ∈ received p.1 e, registered q ≠ none → NamesReply q

/-- The clients are those registered, and the jobs are for them. -/
structure Recorded (p : State × List Registration) : Prop where
  clients : p.1.clients = p.2.map Registration.client
  jobs : ∀ j ∈ p.1.jobs, ∃ r, p.2[j.client]? = some r ∧ j.request.destFileName = r.rx

section Names
variable {setup : Setup} {s t : State} {e : ServerEvent} {regs : List Registration}

theorem recorded_step (h : Recorded (s, regs)) (ht : serverStep setup s e = some t) :
    Recorded (t, recordRegistration s e t regs) := by
  have hclients : s.clients = regs.map Registration.client := h.clients
  have hold : ∀ more : List Registration, ∀ j ∈ s.jobs,
      ∃ r : Registration, (regs ++ more)[j.client]? = some r ∧ j.request.destFileName = r.rx := by
    intro more j hj
    obtain ⟨r, hr, hdest⟩ := h.jobs j hj
    have hlt : j.client < regs.length := (List.getElem?_eq_some_iff.mp hr).1
    exact ⟨r, (List.getElem?_append_left hlt).trans hr, hdest⟩
  unfold recordRegistration
  have hhandled := handled_of_step ht
  cases hr : registration s e with
  | none =>
    rw [hr] at hhandled
    cases hhandled with
    | other hk hj =>
      rw [Option.toList_none, List.append_nil]
      refine ⟨hk.clients.trans hclients, ?_⟩
      dsimp only
      rcases hj with hj | ⟨j', c, hc, hdest, hj⟩
      · rw [hj]
        exact h.jobs
      · rw [hj]
        intro j hmem
        rcases List.mem_append.mp hmem with hmem | hmem
        · exact h.jobs j hmem
        · rw [List.mem_singleton.mp hmem]
          rw [hclients, List.getElem?_map] at hc
          obtain ⟨r, hr, rfl⟩ := Option.map_eq_some_iff.mp hc
          exact ⟨r, hr, hdest⟩
  | some r =>
    rw [hr] at hhandled
    cases hhandled with
    | register hnew hc hm ho hj =>
      refine ⟨?_, ?_⟩
      · rw [hc, hclients, List.map_append]
        rfl
      · dsimp only
        rw [hj]
        exact hold _

theorem repliesOwn_iff_forall (h : Recorded (s, regs)) : RepliesOwn (s, regs) ↔
    ∀ r ∈ regs, ownRx r.message = some r.rx ∧ r.rx.length < pointerSize := by
  have hclient : ∀ i : ℕ, s.clients[i]? = (regs[i]?).map Registration.client := by
    intro i
    rw [show s.clients = _ from h.clients, List.getElem?_map]
  constructor
  · intro hown r hr
    obtain ⟨i, hi⟩ := List.getElem?_of_mem hr
    obtain ⟨c, hc, hname, hlen⟩ := hown.stored i r hi
    rw [hclient, hi] at hc
    cases hc
    exact ⟨hname, hlen⟩
  · intro hall
    refine ⟨?_, ?_⟩
    · intro i r hi
      obtain ⟨hname, hlen⟩ := hall r (List.mem_of_getElem? hi)
      refine ⟨r.client, ?_, hname, hlen⟩
      exact (hclient i).trans (congrArg (Option.map Registration.client) hi)
    · intro j hj
      obtain ⟨r, hr, hdest⟩ := h.jobs j hj
      obtain ⟨hname, _⟩ := hall r (List.mem_of_getElem? hr)
      exact ⟨r, hr, hname.trans (congrArg some hdest.symm)⟩

/-- A message of three words is read as these, but for what the third one goes on with. -/
theorem scan_of_three {m g : List Byte} {a b c : Name} {ws : List (List Byte)} {rest : List Byte}
    (h0 : tokensOf 3 m = [a, b, c]) (h : scan 3 (m ++ g) = some (ws, rest)) :
    ∃ x, ws = [a, b, c ++ x] ∧ (x = [] ↔ (scan 3 m = none → g.takeWhile isToken = [])) := by
  obtain ⟨front, last, x, hfront, hws, hx⟩ := scan_append_of_length (by rw [h0]; rfl) h
  have htokens : [a, b] ++ [c] = front ++ [last] := h0.symm.trans hfront
  obtain ⟨hfront', hlast⟩ := List.append_inj' htokens rfl
  rw [← hfront', ← List.singleton_inj.mp hlast] at hws
  exact ⟨x, hws, hx⟩

theorem exists_scan_of_registered {q : Env × List Byte} {r : Registration}
    (h : registered q = some r) : ∃ ws rest,
      scan 3 (q.2 ++ q.1.stack.buf.drop q.2.length) = some (ws, rest) ∧
      ws.getD 0 q.1.stack.cmd = reg ∧
      r = ⟨q.2, ws.getD 1 q.1.stack.txFifo, ws.getD 2 q.1.stack.rxFifo, q.1.fd⟩ := by
  unfold registered at h
  cases hc : command q.1.stack q.2 with
  | none =>
    rw [hc] at h
    cases h
  | some c =>
    rw [hc] at h
    obtain ⟨⟨ws, rest⟩, hscan, hcmd⟩ := Option.map_eq_some_iff.mp hc
    refine ⟨ws, rest, hscan, ?_⟩
    dsimp only at hcmd
    split_ifs at hcmd with hoff hreg
    · rw [← hcmd] at h
      cases h
    · rw [← hcmd] at h
      cases h
    · rw [← hcmd] at h
      cases h
      exact ⟨not_not.mp hreg, rfl⟩

theorem registered_ownRx_iff {q : Env × List Byte} {r : Registration} (h : registered q = some r) :
    ownRx r.message = some r.rx ∧ r.rx.length < pointerSize ↔ NamesReply q := by
  obtain ⟨ws, rest, hscan, _, rfl⟩ := exists_scan_of_registered h
  unfold ownRx NamesReply
  dsimp only
  constructor
  · rintro ⟨hown, hlen⟩
    have hlt : 2 < (tokensOf 3 q.2).length := (List.getElem?_eq_some_iff.mp hown).1
    have hle := length_tokensOf_le 3 q.2
    obtain ⟨a, b, c, habc⟩ := List.length_eq_three.mp (show (tokensOf 3 q.2).length = 3 by omega)
    obtain ⟨x, rfl, hx⟩ := scan_of_three habc hscan
    rw [habc] at hown
    have hname : c = c ++ x := Option.some.inj hown
    have hnil : x = [] := List.self_eq_append_right.mp hname
    rw [hnil, List.append_nil] at hlen
    exact ⟨a, b, c, habc, hlen, hx.mp hnil⟩
  · rintro ⟨a, b, c, habc, hlen, hgo⟩
    obtain ⟨x, rfl, hx⟩ := scan_of_three habc hscan
    rw [hx.mpr hgo, habc, List.append_nil]
    exact ⟨rfl, hlen⟩

/-- An event keeps to the names exactly when it registers a client under its own. -/
theorem repliesOwn_step (h : Recorded (s, regs)) (ht : serverStep setup s e = some t) :
    RepliesOwn (t, recordRegistration s e t regs) ↔
      RepliesOwn (s, regs) ∧ RegistersOwn (s, regs) e := by
  rw [repliesOwn_iff_forall (recorded_step h ht), repliesOwn_iff_forall h]
  unfold RegistersOwn recordRegistration registration
  dsimp only
  cases received s e with
  | none => simp
  | some q =>
    cases hr : registered q with
    | none => simp [hr]
    | some r =>
      rw [Option.bind_some, hr, Option.toList_some, List.forall_mem_append,
        List.forall_mem_singleton, registered_ownRx_iff hr]
      simp [hr]

/-- Responses go where the clients asked exactly in the runs in which every client that is
registered names in its message a place that fits. -/
theorem repliesOwn_iff {es : List ServerEvent}
    (hrun : (serverRegistrations setup).run es = some (s, regs)) :
    RepliesOwn (s, regs) ↔
      (serverRegistrations setup).AllSteps RegistersOwn (serverRegistrations setup).init es := by
  have hinit : RepliesOwn (serverRegistrations setup).init := by
    refine ⟨?_, fun j hj => absurd hj List.not_mem_nil⟩
    intro i r hr
    cases hr
  have hrec : Recorded (serverRegistrations setup).init :=
    ⟨rfl, fun j hj => absurd hj List.not_mem_nil⟩
  apply Machine.run_withHistory_iff_allSteps (J := Recorded) hinit hrec _ _ hrun
  · intro s regs e t h ht
    exact recorded_step h ht
  · intro s regs e t h ht
    exact repliesOwn_step h ht

theorem request_goes_to_own : ∃ s regs,
    (serverRegistrations lowest).run (onePassEach.map fun a => .event (.act a)) = some (s, regs) ∧
      s.jobs = [⟨0, [0x61], ⟨[0x62], [0x66]⟩⟩] ∧ RepliesOwn (s, regs) := by
  have hrun : (serverRegistrations lowest).run (onePassEach.map fun a => .event (.act a)) =
    some _ := rfl
  refine ⟨_, _, hrun, rfl, (repliesOwn_iff hrun).mpr ?_⟩
  refine .cons (forall_received_of_none rfl) rfl ?_
  refine .cons (forall_received_of_none rfl) rfl ?_
  refine .cons ?_ rfl ?_
  · intro q hq _
    cases hq
    refine ⟨reg, [0x61], [0x62], rfl, by decide, ?_⟩
    intro h
    cases h
  refine .cons (forall_received_of_none rfl) rfl ?_
  refine .cons (forall_received_of_none rfl) rfl ?_
  refine .cons (forall_received_of_none rfl) rfl ?_
  refine .cons (forall_received_of_none rfl) rfl ?_
  refine .cons (forall_received_of_none rfl) rfl ?_
  exact .cons (forall_received_of_none rfl) rfl trivial

/-- "REG a bbbbbbbb" -/
def longReg : List Byte :=
  reg ++ [space, 0x61, space] ++ List.replicate pointerSize 0x62 ++ [newline]

/-- The eight letters leave no room for the NUL. -/
theorem long_name_overflows : ∃ s regs,
    (serverRegistrations lowest).run [.event (.put cmdFifo longReg), .event (.act .select),
      .event (.act (.cmd (fresh 5)))] = some (s, regs) ∧ ¬ RepliesOwn (s, regs) := by
  refine ⟨_, _, rfl, ?_⟩
  intro h
  obtain ⟨c, hc, _, hlen⟩ := h.stored 0 _ rfl
  cases hc
  exact absurd hlen (by decide)

end Names

end OsTasks.FileServer.Dispatch
