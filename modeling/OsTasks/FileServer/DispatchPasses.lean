import OsTasks.FileServer.Dispatch

/-! The passes of the main loop: what `select` reported, which clients there were then and for
which of them `client_request` has been called since. Clients write what they like, and a step that
overruns an array may leave the server's variables alone. -/
namespace OsTasks.FileServer.Dispatch
open OsTasks.Lib

inductive Event where
  /-- any bytes written to a FIFO -/
  | put (n : Name) (bytes : List Byte)
  | act (a : Action)
  /-- a step that overran an array but none of the server's variables -/
  | overrun (a : Action)

section Passes
variable (setup : Setup)

/-- The state after an overrun that hit nothing: it is not carried on with a client beyond the
array, or one whose descriptor is none of a set. -/
def carriedOn (s t : State) : Option State :=
  match s.pc with
  | .cmd => if t.clients.length ≤ maxNumOfClients then some { t with pc := .scan 0 } else none
  | .scan i =>
    ((s.clients[i]?.bind Client.txFd).filter (· < fdSetSize)).map fun fd =>
      { t with pc := .scan (i + 1), rfds := t.rfds.erase fd }
  | _ => none

def eventStep (s : State) : Event → Option State
  | .put n bytes => some { s with fifo := Function.update s.fifo n (s.fifo n ++ bytes) }
  | .act a => step setup s a
  | .overrun a => (step setup s a).bind fun t => if t.pc = .fault then carriedOn s t else none

/-- The client `client_request` is called for next, when the loop over the clients is there. -/
def called (s : State) : Option ℕ :=
  match s.pc with
  | .scan i =>
    match (s.clients[i]?.bind Client.txFd).filter (· < fdSetSize) with
    | some fd => if fd ∈ s.rfds ∧ fd ≠ 0 then some i else none
    | none => none
  | _ => none

/-- What the last `select` left in the set, the clients registered by then, and the calls of
`client_request` since. -/
structure Pass where
  ready : Finset ℕ
  clients : ℕ
  calls : List ℕ

def recordPass (s : State) (e : Event) (t : State) (p : Pass) : Pass :=
  match e with
  | .act .select => ⟨t.rfds, s.clients.length, []⟩
  | .act .scan => { p with calls := p.calls ++ (called s).toList }
  | .overrun .scan => { p with calls := p.calls ++ (called s).toList }
  | _ => p

def passes : Machine (State × Pass) Event :=
  Machine.withHistory ⟨(dispatch setup).init, eventStep setup⟩ ⟨∅, 0, []⟩ recordPass

end Passes

/-- The clients and their descriptors are as before. -/
structure Kept (s t : State) : Prop where
  clients : t.clients = s.clients
  maxFd : t.maxFd = s.maxFd
  opened : t.opened = s.opened

/-- What an event does to the set, the clients and the pass. -/
inductive Turn (setup : Setup) (s t : State) (p : Pass) : Pass → Prop where
  | write (hk : Kept s t) (hr : t.rfds = s.rfds) (ht : t.pc = s.pc) : Turn setup s t p p
  | select (hk : Kept s t) (hpc : s.pc = .select) (hr : t.rfds ⊆ s.rfds)
      (ht : t.pc = .cmd ∨ t.pc = .scan 0) : Turn setup s t p ⟨t.rfds, s.clients.length, []⟩
  | command (hk : Kept s t) (hpc : s.pc = .cmd) (hr : t.rfds = s.rfds) (ht : t.pc = .scan 0) :
      Turn setup s t p p
  | register {tx rx : Name} {fd : Option ℕ} (hpc : s.pc = .cmd)
      (hnew : ∀ n ∈ fd, s.opened n = none) (hc : t.clients = s.clients ++ [⟨fd, rx⟩])
      (hm : t.maxFd = max s.maxFd (fd.getD 0))
      (ho : t.opened = fd.elim s.opened fun n => Function.update s.opened n (some tx))
      (hr : t.rfds = s.rfds) (ht : t.pc = .scan 0 ∨ t.pc = .fault) : Turn setup s t p p
  | finish {i : ℕ} (hk : Kept s t) (hpc : s.pc = .scan i) (hlen : s.clients.length ≤ i)
      (hr : t.rfds = watchSet setup s) (ht : t.pc = .select) : Turn setup s t p p
  | skip {i : ℕ} {c : Client} {fd : ℕ} (hk : Kept s t) (hpc : s.pc = .scan i)
      (hc : s.clients[i]? = some c) (hfd : c.txFd = some fd) (hr : t.rfds = s.rfds)
      (ht : t.pc = .scan (i + 1)) : Turn setup s t p p
  | serve {i : ℕ} {c : Client} {fd : ℕ} (hk : Kept s t) (hpc : s.pc = .scan i)
      (hc : s.clients[i]? = some c) (hfd : c.txFd = some fd) (hmem : fd ∈ s.rfds)
      (hr : t.rfds ⊆ s.rfds) (ht : t.pc = .scan (i + 1) ∨ t.pc = .fault) :
      Turn setup s t p { p with calls := p.calls ++ [i] }
  | stop (hk : Kept s t) (hr : t.rfds = s.rfds) (ht : t.pc = .exited ∨ t.pc = .fault) :
      Turn setup s t p p

variable {setup : Setup} {s t : State}

theorem exists_of_called {i : ℕ} (h : called s = some i) : s.pc = .scan i ∧
    ∃ c fd, s.clients[i]? = some c ∧ c.txFd = some fd ∧ fd ∈ s.rfds := by
  unfold called at h
  cases hpc : s.pc with
  | scan j =>
    simp only [hpc] at h
    cases hf : (s.clients[j]?.bind Client.txFd).filter (· < fdSetSize) with
    | none => simp [hf] at h
    | some fd =>
      simp only [hf] at h
      obtain ⟨⟨hmem, _⟩, hj⟩ := Option.ite_none_right_eq_some.mp h
      cases hj
      obtain ⟨hfd, _⟩ := Option.filter_eq_some_iff.mp hf
      obtain ⟨c, hc, hcfd⟩ := Option.bind_eq_some_iff.mp hfd
      exact ⟨rfl, c, fd, hc, hcfd, hmem⟩
  | select => simp [hpc] at h
  | cmd => simp [hpc] at h
  | exited => simp [hpc] at h
  | fault => simp [hpc] at h

theorem turn_of_cmd {env : Env} (ht : step setup s (.cmd env) = some t) (p : Pass) :
    Turn setup s t p p ∧
      (t.pc = .fault → Turn setup s { t with pc := .scan 0 } p p) := by
  obtain ⟨⟨hpc, hfresh⟩, ht⟩ := Option.ite_none_right_eq_some.mp ht
  obtain ⟨_, ht⟩ := Option.ite_none_left_eq_some.mp ht
  have hkept : Kept s (s.read cmdFifo) := ⟨rfl, rfl, rfl⟩
  cases hc : command env.stack ((s.fifo cmdFifo).take bufSize) with
  | none =>
    simp only [hc] at ht
    cases ht
    exact ⟨.stop ⟨rfl, rfl, rfl⟩ rfl (Or.inr rfl), fun _ => .command ⟨rfl, rfl, rfl⟩ hpc rfl rfl⟩
  | some c =>
    cases c with
    | off =>
      simp only [hc] at ht
      cases ht
      refine ⟨.stop ⟨rfl, rfl, rfl⟩ rfl (Or.inl rfl), ?_⟩
      intro he
      cases he
    | unknown =>
      simp only [hc] at ht
      cases ht
      refine ⟨.command ⟨rfl, rfl, rfl⟩ hpc rfl rfl, ?_⟩
      intro he
      cases he
    | reg tx rx =>
      simp only [hc] at ht
      cases ht
      have hnew : ∀ n ∈ env.fd, s.opened n = none := fun n hn => (hfresh n hn).2.2
      refine ⟨.register hpc hnew rfl rfl rfl rfl ?_,
        fun _ => .register hpc hnew rfl rfl rfl rfl (Or.inl rfl)⟩
      unfold addClient
      dsimp only
      split_ifs
      · exact Or.inl rfl
      · exact Or.inr rfl

theorem called_of_client {i : ℕ} (hpc : s.pc = .scan i) {c : Client} (hc : s.clients[i]? = some c) :
    called s = match c.txFd.filter (· < fdSetSize) with
      | some fd => if fd ∈ s.rfds ∧ fd ≠ 0 then some i else none
      | none => none := by
  unfold called
  rw [hpc]
  dsimp only
  rw [hc]
  rfl

theorem carriedOn_of_client {i : ℕ} (hpc : s.pc = .scan i) {c : Client}
    (hc : s.clients[i]? = some c) :
    carriedOn s t = (c.txFd.filter (· < fdSetSize)).map fun fd =>
      { t with pc := .scan (i + 1), rfds := t.rfds.erase fd } := by
  unfold carriedOn
  rw [hpc]
  dsimp only
  rw [hc]
  rfl

theorem turn_of_scan {i : ℕ} (hpc : s.pc = .scan i) (ht : scanStep setup s i = some t)
    (p : Pass) :
    Turn setup s t p { p with calls := p.calls ++ (called s).toList } ∧
      (t.pc = .fault → ∀ u, carriedOn s t = some u →
        Turn setup s u p { p with calls := p.calls ++ (called s).toList }) := by
  cases scanned_of_step ht with
  | finish hc =>
    have hnone : called s = none := by simp [called, hpc, hc]
    rw [hnone, Option.toList_none, List.append_nil]
    refine ⟨.finish ⟨rfl, rfl, rfl⟩ hpc (List.getElem?_eq_none_iff.mp hc) rfl rfl, ?_⟩
    intro he
    cases he
  | noFd hc hfd =>
    rw [called_of_client hpc hc, carriedOn_of_client hpc hc, hfd]
    refine ⟨?_, ?_⟩
    · rw [Option.toList_none, List.append_nil]
      exact .stop ⟨rfl, rfl, rfl⟩ rfl (Or.inr rfl)
    · intro _ u hu
      cases hu
  | skip hc hfd hmem =>
    rw [called_of_client hpc hc, hfd]
    dsimp only
    rw [if_neg hmem, Option.toList_none, List.append_nil]
    have htx := (Option.filter_eq_some_iff.mp hfd).1
    refine ⟨.skip ⟨rfl, rfl, rfl⟩ hpc hc htx rfl rfl, ?_⟩
    intro he
    cases he
  | overread hc hfd hmem hn hreq =>
    rw [called_of_client hpc hc, carriedOn_of_client hpc hc, hfd]
    dsimp only
    rw [if_pos hmem, Option.toList_some]
    have htx := (Option.filter_eq_some_iff.mp hfd).1
    refine ⟨.serve ⟨rfl, rfl, rfl⟩ hpc hc htx hmem.1 subset_rfl (Or.inr rfl), ?_⟩
    intro _ u hu
    cases hu
    exact .serve ⟨rfl, rfl, rfl⟩ hpc hc htx hmem.1 (Finset.erase_subset _ _) (Or.inl rfl)
  | serve hc hfd hmem hn hreq =>
    rw [called_of_client hpc hc, hfd]
    dsimp only
    rw [if_pos hmem, Option.toList_some]
    have htx := (Option.filter_eq_some_iff.mp hfd).1
    refine ⟨.serve ⟨rfl, rfl, rfl⟩ hpc hc htx hmem.1 (Finset.erase_subset _ _) (Or.inl rfl), ?_⟩
    intro he
    cases he

theorem turn_of_act {a : Action} (ht : step setup s a = some t) (p : Pass) :
    Turn setup s t p (recordPass s (.act a) t p) := by
  cases a with
  | write n m =>
    cases ht
    exact .write ⟨rfl, rfl, rfl⟩ rfl rfl
  | select =>
    obtain ⟨⟨hpc, _⟩, ht⟩ := Option.ite_none_right_eq_some.mp ht
    cases ht
    refine .select ⟨rfl, rfl, rfl⟩ hpc (Finset.filter_subset _ _) ?_
    dsimp only
    split_ifs
    · exact Or.inl rfl
    · exact Or.inr rfl
  | cmd env => exact (turn_of_cmd ht p).1
  | scan =>
    obtain ⟨i, hpc, ht⟩ := exists_scan ht
    exact (turn_of_scan hpc ht p).1
  | abort =>
    obtain ⟨_, ht⟩ := Option.ite_none_left_eq_some.mp ht
    cases ht
    exact .stop ⟨rfl, rfl, rfl⟩ rfl (Or.inl rfl)

theorem turn_of_overrun {a : Action} (ht : eventStep setup s (.overrun a) = some t) (p : Pass) :
    Turn setup s t p (recordPass s (.overrun a) t p) := by
  obtain ⟨u, hu, hcarry⟩ := Option.bind_eq_some_iff.mp ht
  obtain ⟨hfault, hgo⟩ := Option.ite_none_right_eq_some.mp hcarry
  cases a with
  | write n m =>
    cases hu
    have hpc : s.pc = .fault := hfault
    simp [carriedOn, hpc] at hgo
  | select =>
    obtain ⟨_, hu⟩ := Option.ite_none_right_eq_some.mp hu
    cases hu
    dsimp only at hfault
    split_ifs at hfault
  | cmd env =>
    have hpc : s.pc = .cmd := (Option.ite_none_right_eq_some.mp hu).1.1
    simp only [carriedOn, hpc] at hgo
    obtain ⟨_, hgo⟩ := Option.ite_none_right_eq_some.mp hgo
    cases hgo
    exact (turn_of_cmd hu p).2 hfault
  | scan =>
    obtain ⟨i, hpc, hu⟩ := exists_scan hu
    exact (turn_of_scan hpc hu p).2 hfault t hgo
  | abort =>
    obtain ⟨_, hu⟩ := Option.ite_none_left_eq_some.mp hu
    cases hu
    cases hfault

theorem turn_of_event {e : Event} (ht : eventStep setup s e = some t) (p : Pass) :
    Turn setup s t p (recordPass s e t p) := by
  cases e with
  | put n bytes =>
    cases ht
    exact .write ⟨rfl, rfl, rfl⟩ rfl rfl
  | act a => exact turn_of_act ht p
  | overrun a => exact turn_of_overrun ht p

end OsTasks.FileServer.Dispatch
