import OsTasks.FileServer.ClientTable
import OsTasks.FileServer.ReplyNames

/-! What messages that are no command do to the clients of the file server, and whether the
descriptors that `select` is given are open. -/
namespace OsTasks.FileServer.Dispatch
open OsTasks.Lib

/-- `REG` and two names, of which the first one can be opened. -/
def Registers (q : Env × List Byte) : Prop :=
  (∃ tx rx, tokensOf 3 q.2 = [reg, tx, rx]) ∧ q.1.fd ≠ none

def Malformed (q : Env × List Byte) : Prop :=
  (tokensOf 3 q.2).head? ≠ some off ∧ ¬ Registers q

/-- A call of `server_cmd`: what it finds, and the states around it. -/
structure CmdCall where
  found : Env × List Byte
  before : State
  after : State

def recordCmd (s : State) (e : ServerEvent) (t : State) (calls : List CmdCall) : List CmdCall :=
  calls ++ (received s e).toList.map fun q => ⟨q, s, t⟩

def serverCmds (setup : Setup) : Machine (State × List CmdCall) ServerEvent :=
  (server setup).withHistory [] recordCmd

/-- Malformed messages have changed nothing, `client_num` included, and all descriptors are open. -/
structure Harmless (p : State × List CmdCall) : Prop where
  unchanged : ∀ c ∈ p.2, Malformed c.found →
    c.after.clients = c.before.clients ∧ c.after.maxFd = c.before.maxFd
  valid : ∀ c ∈ p.1.clients, ∃ fd ∈ c.txFd, p.1.opened fd ≠ none

/-- What is read as a registration is one. -/
def OnlyRegisters (p : State × List CmdCall) (e : ServerEvent) : Prop :=
  ∀ q ∈ received p.1 e, registered q ≠ none → Registers q

/-- The descriptors that `open` returned are open. -/
def KeepsOpen (p : State × List CmdCall) : Prop :=
  ∀ c ∈ p.1.clients, ∀ fd ∈ c.txFd, p.1.opened fd ≠ none

section Malformed
variable {setup : Setup} {s t : State} {e : ServerEvent} {calls : List CmdCall}

theorem keepsOpen_step {calls' : List CmdCall} (h : KeepsOpen (s, calls))
    (ht : serverStep setup s e = some t) : KeepsOpen (t, calls') := by
  have hopen : ∀ c ∈ s.clients, ∀ fd ∈ c.txFd, s.opened fd ≠ none := h
  have hhandled := handled_of_step ht
  generalize registration s e = o at hhandled
  intro c hc fd hfd
  dsimp only at hc ⊢
  cases hhandled with
  | other hk hj =>
    rw [hk.clients] at hc
    rw [hk.opened]
    exact hopen c hc fd hfd
  | @register r hnew hclients hm ho hj =>
    rw [hclients] at hc
    rw [ho]
    cases hr : r.fd with
    | none =>
      rcases List.mem_append.mp hc with hc | hc
      · exact hopen c hc fd hfd
      · rw [List.mem_singleton.mp hc, hr] at hfd
        cases hfd
    | some n =>
      change Function.update s.opened n (some r.tx) fd ≠ none
      by_cases hn : fd = n
      · rw [hn, Function.update_self]
        exact Option.some_ne_none r.tx
      · rw [Function.update_of_ne hn]
        rcases List.mem_append.mp hc with hc | hc
        · exact hopen c hc fd hfd
        · rw [List.mem_singleton.mp hc, hr] at hfd
          exact absurd (Option.some.inj hfd).symm hn

theorem harmless_iff (h : KeepsOpen (s, calls)) : Harmless (s, calls) ↔
    (∀ c ∈ calls, Malformed c.found →
      c.after.clients = c.before.clients ∧ c.after.maxFd = c.before.maxFd) ∧
    ∀ c ∈ s.clients, c.txFd ≠ none := by
  constructor
  · intro hharmless
    refine ⟨hharmless.unchanged, ?_⟩
    intro c hc hnone
    obtain ⟨fd, hfd, _⟩ := hharmless.valid c hc
    rw [hnone] at hfd
    cases hfd
  · rintro ⟨hunchanged, hvalid⟩
    refine ⟨hunchanged, ?_⟩
    intro c hc
    obtain ⟨fd, hfd⟩ := Option.ne_none_iff_exists'.mp (hvalid c hc)
    exact ⟨fd, hfd, h c hc fd hfd⟩

theorem head_ne_off_of_registered {q : Env × List Byte} (h : registered q ≠ none) :
    (tokensOf 3 q.2).head? ≠ some off := by
  intro hoff
  obtain ⟨r, hr⟩ := Option.ne_none_iff_exists'.mp h
  obtain ⟨ws, rest, hscan, hcmd, _⟩ := exists_scan_of_registered hr
  obtain ⟨more, htokens⟩ := List.head?_eq_some_iff.mp hoff
  obtain ⟨x, hx⟩ := head_of_scan_append htokens hscan
  obtain ⟨ws', rfl⟩ := List.head?_eq_some_iff.mp hx
  have hbytes : off ++ x = reg := hcmd
  unfold off reg at hbytes
  simp at hbytes

/-- What is read as a registration is one unless it is malformed or has no descriptor. -/
theorem registers_iff {q : Env × List Byte} {r : Registration} (hr : registered q = some r) :
    ¬ Malformed q ∧ r.fd ≠ none ↔ Registers q := by
  have hfd : r.fd = q.1.fd := by
    obtain ⟨_, _, _, _, rfl⟩ := exists_scan_of_registered hr
    rfl
  have hoff : (tokensOf 3 q.2).head? ≠ some off := by
    apply head_ne_off_of_registered
    rw [hr]
    exact Option.some_ne_none r
  unfold Malformed
  rw [hfd, not_and, not_not]
  constructor
  · intro h
    exact h.1 hoff
  · intro h
    exact ⟨fun _ => h, h.2⟩

/-- An event does no harm exactly when it registers no client, or one that has sent a registration. -/
theorem harmless_step (h : KeepsOpen (s, calls)) (ht : serverStep setup s e = some t) :
    Harmless (t, recordCmd s e t calls) ↔ Harmless (s, calls) ∧ OnlyRegisters (s, calls) e := by
  have hkeeps : KeepsOpen (t, recordCmd s e t calls) := keepsOpen_step h ht
  have hhandled := handled_of_step ht
  rw [harmless_iff hkeeps, harmless_iff h]
  unfold OnlyRegisters recordCmd
  unfold registration at hhandled
  dsimp only
  cases hq : received s e with
  | none =>
    rw [hq] at hhandled
    obtain ⟨hk, _⟩ := hhandled
    rw [hk.clients]
    simp
  | some q =>
    rw [hq, Option.bind_some] at hhandled
    rw [Option.toList_some, List.map_singleton, List.forall_mem_append, List.forall_mem_singleton]
    cases hr : registered q with
    | none =>
      rw [hr] at hhandled
      obtain ⟨hk, _⟩ := hhandled
      simp [hk.clients, hk.maxFd, hr]
    | some r =>
      rw [hr] at hhandled
      cases hhandled with
      | register hnew hclients hm ho hj =>
        have hchanged : t.clients ≠ s.clients := by
          rw [hclients]
          simp
        have hentry : (Malformed q → t.clients = s.clients ∧ t.maxFd = s.maxFd) ↔
            ¬ Malformed q :=
          ⟨fun h hq => hchanged (h hq).1, fun h hq => absurd hq h⟩
        have hall : (∀ q' ∈ some q, registered q' ≠ none → Registers q') ↔ Registers q := by
          simp [hr]
        rw [hentry, hall, hclients, List.forall_mem_append, List.forall_mem_singleton,
          ← registers_iff hr]
        exact and_and_and_comm

/-- Malformed messages do no harm exactly in the runs in which all that is read as a registration is
`REG` and two names of its own, of which the first can be opened. -/
theorem harmless_iff_allSteps {es : List ServerEvent}
    (hrun : (serverCmds setup).run es = some (s, calls)) :
    Harmless (s, calls) ↔
      (serverCmds setup).AllSteps OnlyRegisters (serverCmds setup).init es := by
  have hinit : Harmless (serverCmds setup).init :=
    ⟨fun c hc => absurd hc List.not_mem_nil, fun c hc => absurd hc List.not_mem_nil⟩
  have hkeeps : KeepsOpen (serverCmds setup).init := fun c hc => absurd hc List.not_mem_nil
  apply Machine.run_withHistory_iff_allSteps (J := KeepsOpen) hinit hkeeps _ _ hrun
  · intro s calls e t h ht
    exact keepsOpen_step h ht
  · intro s calls e t h ht
    exact harmless_step h ht

theorem registration_harmless : ∃ s calls,
    (serverCmds lowest).run (registerEvents 0) = some (s, calls) ∧ s.clients.length = 1 ∧
      Harmless (s, calls) := by
  have hrun : (serverCmds lowest).run (registerEvents 0) = some _ := rfl
  refine ⟨_, _, hrun, rfl, (harmless_iff_allSteps hrun).mpr ?_⟩
  refine .cons (forall_received_of_none rfl) rfl ?_
  refine .cons (forall_received_of_none rfl) rfl ?_
  refine .cons ?_ rfl trivial
  intro q hq _
  cases hq
  exact ⟨⟨[0x61], [0x62], rfl⟩, Option.some_ne_none 5⟩

/-- "REG a b" when there is no FIFO `a`. -/
theorem failed_open_harms : ∃ s calls,
    (serverCmds lowest).run [.event (.act (.write cmdFifo regA)), .event (.act .select),
      .event (.act (.cmd { fresh 5 with fd := none }))] = some (s, calls) ∧
      s.clients = [⟨none, [0x62]⟩] ∧ ¬ Harmless (s, calls) := by
  refine ⟨_, _, rfl, rfl, ?_⟩
  intro h
  obtain ⟨fd, hfd, _⟩ := h.valid _ List.mem_cons_self
  cases hfd

end Malformed

end OsTasks.FileServer.Dispatch
