import OsTasks.FileServer.Decoding
import OsTasks.FileServer.DispatchPasses

/-! The main loop of the file server with any bytes in its FIFOs: which events register a client, and
what every event does to the clients and the jobs. -/
namespace OsTasks.FileServer.Dispatch
open OsTasks.Lib

inductive ServerEvent where
  | event (e : Event)
  /-- a `read` of the command FIFO that returns nothing -/
  | emptyRead (env : Env)

/-- `server_cmd` behind its `read`. -/
def decoded (s : State) (env : Env) (received : List Byte) : State :=
  match command env.stack received with
  | none => { s with pc := .fault }
  | some .off => { s with pc := .exited }
  | some .unknown => { s with pc := .scan 0 }
  | some (.reg tx rx) => addClient s tx rx env.fd

section Server
variable (setup : Setup)

def serverStep (s : State) : ServerEvent → Option State
  | .event e => eventStep setup s e
  | .emptyRead env =>
    if s.pc = .cmd ∧ ∀ fd ∈ env.fd, fd ≠ 0 ∧ fd ≠ setup.tx ∧ s.opened fd = none then
      some (decoded s env [])
    else none

def server : Machine State ServerEvent := ⟨(dispatch setup).init, serverStep setup⟩

end Server

/-- What `server_cmd` reads in an event. -/
def received (s : State) : ServerEvent → Option (Env × List Byte)
  | .event (.act (.cmd env)) => some (env, (s.fifo cmdFifo).take bufSize)
  | .event (.overrun (.cmd env)) => some (env, (s.fifo cmdFifo).take bufSize)
  | .event _ => none
  | .emptyRead env => some (env, [])

/-- A call of `add_client`: the bytes that were read, the names it is given and what `open` returns. -/
structure Registration where
  message : List Byte
  tx : Name
  rx : Name
  fd : Option ℕ

def registered (p : Env × List Byte) : Option Registration :=
  match command p.1.stack p.2 with
  | some (.reg tx rx) => some ⟨p.2, tx, rx, p.1.fd⟩
  | _ => none

/-- The registration that an event makes. -/
def registration (s : State) (e : ServerEvent) : Option Registration :=
  (received s e).bind registered

/-- No job is added, or one for a client. -/
def JobsOf (s t : State) : Prop :=
  t.jobs = s.jobs ∨ ∃ j c, s.clients[j.client]? = some c ∧
    j.request.destFileName = c.rxFilename ∧ t.jobs = s.jobs ++ [j]

/-- What an event does to the clients and the jobs. -/
inductive Handled (s t : State) : Option Registration → Prop where
  | other (hk : Kept s t) (hj : JobsOf s t) : Handled s t none
  | register {r : Registration} (hnew : ∀ n ∈ r.fd, s.opened n = none)
      (hc : t.clients = s.clients ++ [⟨r.fd, r.rx⟩]) (hm : t.maxFd = max s.maxFd (r.fd.getD 0))
      (ho : t.opened = r.fd.elim s.opened fun n => Function.update s.opened n (some r.tx))
      (hj : t.jobs = s.jobs) : Handled s t (some r)

variable {setup : Setup} {s t u : State}

theorem forall_received_of_none {P : Env × List Byte → Prop} {e : ServerEvent}
    (h : received s e = none) : ∀ q ∈ received s e, P q := by
  intro q hq
  rw [h] at hq
  cases hq

theorem Handled.congr {o : Option Registration} (h : Handled s u o) (hk : Kept u t)
    (hj : t.jobs = u.jobs) : Handled s t o := by
  obtain ⟨hclients, hmax, hopened⟩ := hk
  cases h with
  | other hk hj' =>
    refine .other ⟨hclients.trans hk.clients, hmax.trans hk.maxFd, hopened.trans hk.opened⟩ ?_
    unfold JobsOf
    rw [hj]
    exact hj'
  | register hnew hc hm ho hj' =>
    exact .register hnew (hclients.trans hc) (hmax.trans hm) (hopened.trans ho) (hj.trans hj')

theorem Handled.of_read {n : Name} {o : Option Registration} (h : Handled (s.read n) t o) :
    Handled s t o := by
  cases h with
  | other hk hj => exact .other ⟨hk.clients, hk.maxFd, hk.opened⟩ hj
  | register hnew hc hm ho hj => exact .register hnew hc hm ho hj

theorem serverCmd_eq (s : State) (env : Env) : serverCmd s env =
    if s.fifo cmdFifo = [] then none
    else some (decoded (s.read cmdFifo) env ((s.fifo cmdFifo).take bufSize)) := by
  unfold serverCmd decoded
  cases command env.stack ((s.fifo cmdFifo).take bufSize) with
  | none => rfl
  | some c => cases c <;> rfl

theorem handled_decoded {env : Env} (hnew : ∀ n ∈ env.fd, s.opened n = none) (m : List Byte) :
    Handled s (decoded s env m) (registered (env, m)) := by
  unfold decoded registered
  dsimp only
  cases command env.stack m with
  | none => exact .other ⟨rfl, rfl, rfl⟩ (Or.inl rfl)
  | some c =>
    cases c with
    | off => exact .other ⟨rfl, rfl, rfl⟩ (Or.inl rfl)
    | unknown => exact .other ⟨rfl, rfl, rfl⟩ (Or.inl rfl)
    | reg tx rx => exact .register hnew rfl rfl rfl rfl

theorem handled_cmd {env : Env} (ht : step setup s (.cmd env) = some t) :
    Handled s t (registered (env, (s.fifo cmdFifo).take bufSize)) := by
  obtain ⟨⟨_, hnew⟩, ht⟩ := Option.ite_none_right_eq_some.mp ht
  rw [serverCmd_eq] at ht
  obtain ⟨_, ht⟩ := Option.ite_none_left_eq_some.mp ht
  cases ht
  have hread : ∀ n ∈ env.fd, (s.read cmdFifo).opened n = none := fun n hn => (hnew n hn).2.2
  exact (handled_decoded hread _).of_read

theorem handled_scan {i : ℕ} (ht : scanStep setup s i = some t) : Handled s t none := by
  cases scanned_of_step ht with
  | finish hc => exact .other ⟨rfl, rfl, rfl⟩ (Or.inl rfl)
  | noFd hc hfd => exact .other ⟨rfl, rfl, rfl⟩ (Or.inl rfl)
  | skip hc hfd hmem => exact .other ⟨rfl, rfl, rfl⟩ (Or.inl rfl)
  | overread hc hfd hmem hn hreq => exact .other ⟨rfl, rfl, rfl⟩ (Or.inl rfl)
  | @serve c fd n file hc hfd hmem hn hreq =>
    refine .other ⟨rfl, rfl, rfl⟩ ?_
    cases file with
    | none => exact Or.inl (List.append_nil _)
    | some f => exact Or.inr ⟨⟨i, n, ⟨c.rxFilename, f⟩⟩, c, hc, rfl, rfl⟩

theorem handled_act {a : Action} (ht : step setup s a = some t) :
    Handled s t (registration s (.event (.act a))) := by
  cases a with
  | write n m =>
    cases ht
    exact .other ⟨rfl, rfl, rfl⟩ (Or.inl rfl)
  | select =>
    obtain ⟨_, ht⟩ := Option.ite_none_right_eq_some.mp ht
    cases ht
    exact .other ⟨rfl, rfl, rfl⟩ (Or.inl rfl)
  | cmd env => exact handled_cmd ht
  | scan =>
    obtain ⟨i, _, ht⟩ := exists_scan ht
    exact handled_scan ht
  | abort =>
    obtain ⟨_, ht⟩ := Option.ite_none_left_eq_some.mp ht
    cases ht
    exact .other ⟨rfl, rfl, rfl⟩ (Or.inl rfl)

theorem carriedOn_eq (ht : carriedOn s u = some t) : Kept u t ∧ t.jobs = u.jobs := by
  unfold carriedOn at ht
  cases hpc : s.pc with
  | cmd =>
    rw [hpc] at ht
    obtain ⟨_, ht⟩ := Option.ite_none_right_eq_some.mp ht
    cases ht
    exact ⟨⟨rfl, rfl, rfl⟩, rfl⟩
  | scan i =>
    rw [hpc] at ht
    obtain ⟨fd, _, rfl⟩ := Option.map_eq_some_iff.mp ht
    exact ⟨⟨rfl, rfl, rfl⟩, rfl⟩
  | select =>
    rw [hpc] at ht
    cases ht
  | exited =>
    rw [hpc] at ht
    cases ht
  | fault =>
    rw [hpc] at ht
    cases ht

theorem handled_of_step {e : ServerEvent} (ht : serverStep setup s e = some t) :
    Handled s t (registration s e) := by
  cases e with
  | emptyRead env =>
    obtain ⟨⟨_, hnew⟩, ht⟩ := Option.ite_none_right_eq_some.mp ht
    cases ht
    exact handled_decoded (fun n hn => (hnew n hn).2.2) []
  | event e =>
    cases e with
    | put n bytes =>
      cases ht
      exact .other ⟨rfl, rfl, rfl⟩ (Or.inl rfl)
    | act a => exact handled_act ht
    | overrun a =>
      obtain ⟨u, hu, hcarry⟩ := Option.bind_eq_some_iff.mp ht
      obtain ⟨_, hgo⟩ := Option.ite_none_right_eq_some.mp hcarry
      obtain ⟨hk, hj⟩ := carriedOn_eq hgo
      have hact := (handled_act hu).congr hk hj
      cases a <;> exact hact

end OsTasks.FileServer.Dispatch
