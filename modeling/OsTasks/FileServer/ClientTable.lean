import OsTasks.FileServer.DispatchActed
import OsTasks.FileServer.Server

/-! The table of clients of the file server: the indices into it, and a registration when it is
full. Behind it are `rx`, `tx`, `max_fd` and `client_num`. -/
namespace OsTasks.FileServer.Dispatch
open OsTasks.Lib

/-- The indices into `clients` in the loops of `main` and, behind the last client, `reinit_select`. -/
def loopIndices (s : State) : ServerEvent → List ℕ
  | .event (.act .scan) | .event (.overrun .scan) =>
    match s.pc with
    | .scan i => if i < s.clients.length then [i] else List.range s.clients.length
    | _ => []
  | _ => []

/-- All indices that were used, and the states around each registration for which there was no
entry. -/
structure TableLog where
  indices : List ℕ
  beyond : List (State × State)

def recordTable (s : State) (e : ServerEvent) (t : State) (log : TableLog) : TableLog where
  indices :=
    log.indices ++ (registration s e).toList.map (fun _ => s.clients.length) ++ loopIndices s e
  beyond :=
    if (registration s e).isSome ∧ maxNumOfClients ≤ s.clients.length then (s, t) :: log.beyond
    else log.beyond

def serverTable (setup : Setup) : Machine (State × TableLog) ServerEvent :=
  (server setup).withHistory ⟨[], []⟩ recordTable

/-- `client_num` and the indices are within the table, and a registration beyond it changes
nothing. `rx` and `tx` are parameters that no step changes. -/
structure WithinTable (p : State × TableLog) : Prop where
  clientNum : p.1.clients.length ≤ maxNumOfClients
  indices : ∀ i ∈ p.2.indices, i < maxNumOfClients
  beyond : ∀ q ∈ p.2.beyond, q.2.clients = q.1.clients ∧ q.2.maxFd = q.1.maxFd

/-- A client is registered only while there is an entry for it. -/
def HasRoom (p : State × TableLog) (e : ServerEvent) : Prop :=
  registration p.1 e ≠ none → p.1.clients.length < maxNumOfClients

section Table
variable {setup : Setup} {s t : State} {e : ServerEvent} {log : TableLog}

theorem lt_of_mem_loopIndices {i : ℕ} (h : i ∈ loopIndices s e) : i < s.clients.length := by
  have hscan : ∀ l : List ℕ, (l = match s.pc with
      | .scan i => if i < s.clients.length then [i] else List.range s.clients.length
      | _ => []) → i ∈ l → i < s.clients.length := by
    intro l hl hi
    rw [hl] at hi
    split at hi
    · split_ifs at hi with hlt
      · rw [List.mem_singleton.mp hi]
        exact hlt
      · exact List.mem_range.mp hi
    · cases hi
  unfold loopIndices at h
  split at h
  · exact hscan _ rfl h
  · exact hscan _ rfl h
  · cases h

theorem mem_indices {i : ℕ} : i ∈ (recordTable s e t log).indices ↔
    i ∈ log.indices ∨ registration s e ≠ none ∧ i = s.clients.length ∨ i ∈ loopIndices s e := by
  unfold recordTable
  rw [List.mem_append, List.mem_append, or_assoc]
  cases registration s e <;> simp

theorem mem_beyond {q : State × State} : q ∈ (recordTable s e t log).beyond ↔
    q ∈ log.beyond ∨ registration s e ≠ none ∧ maxNumOfClients ≤ s.clients.length ∧ q = (s, t) := by
  unfold recordTable
  dsimp only
  rw [← Option.isSome_iff_ne_none]
  by_cases hfull : (registration s e).isSome ∧ maxNumOfClients ≤ s.clients.length
  · rw [if_pos hfull, List.mem_cons, or_comm, ← and_assoc, and_iff_right hfull]
  · rw [if_neg hfull, ← and_assoc, or_iff_left fun h => hfull h.1]

theorem length_of_handled {o : Option Registration} (h : Handled s t o) :
    t.clients.length = s.clients.length + o.toList.length := by
  cases h with
  | other hk hj => rw [hk.clients]; rfl
  | register hnew hc hm ho hj => rw [hc, List.length_append]; rfl

/-- An event keeps within the table exactly when it has room for the client it registers. -/
theorem withinTable_step (ht : serverStep setup s e = some t) :
    WithinTable (t, recordTable s e t log) ↔ WithinTable (s, log) ∧ HasRoom (s, log) e := by
  have hlen := length_of_handled (handled_of_step ht)
  constructor
  · intro h
    have hnum : t.clients.length ≤ maxNumOfClients := h.clientNum
    have hroom : HasRoom (s, log) e := by
      intro hr
      exact h.indices _ (mem_indices.mpr (Or.inr (Or.inl ⟨hr, rfl⟩)))
    refine ⟨⟨?_, ?_, ?_⟩, hroom⟩
    · change s.clients.length ≤ maxNumOfClients
      omega
    · intro i hi
      exact h.indices i (mem_indices.mpr (Or.inl hi))
    · intro q hq
      exact h.beyond q (mem_beyond.mpr (Or.inl hq))
  · rintro ⟨h, hroom⟩
    have hnum : s.clients.length ≤ maxNumOfClients := h.clientNum
    refine ⟨?_, ?_, ?_⟩
    · change t.clients.length ≤ maxNumOfClients
      cases hr : registration s e with
      | none =>
        rw [hr] at hlen
        exact hlen.trans_le hnum
      | some r =>
        have hne : registration s e ≠ none := by
          rw [hr]
          exact Option.some_ne_none r
        have hlt : s.clients.length < maxNumOfClients := hroom hne
        rw [hr] at hlen
        exact hlen.trans_le hlt
    · intro i hi
      rcases mem_indices.mp hi with hi | ⟨hr, rfl⟩ | hi
      · exact h.indices i hi
      · exact hroom hr
      · exact (lt_of_mem_loopIndices hi).trans_le hnum
    · intro q hq
      rcases mem_beyond.mp hq with hq | ⟨hr, hfull, _⟩
      · exact h.beyond q hq
      · exact absurd (hroom hr) (not_lt.mpr hfull)

/-- The server keeps within its table exactly in the runs that register 64 clients at most. -/
theorem withinTable_iff {es : List ServerEvent}
    (hrun : (serverTable setup).run es = some (s, log)) :
    WithinTable (s, log) ↔ (serverTable setup).AllSteps HasRoom (serverTable setup).init es := by
  have hinit : WithinTable (serverTable setup).init :=
    ⟨Nat.zero_le _, fun i hi => absurd hi List.not_mem_nil, fun q hq => absurd hq List.not_mem_nil⟩
  apply Machine.run_withHistory_iff_allSteps (J := fun _ => True) hinit trivial _ _ hrun
  · intro _ _ _ _ _ _
    trivial
  · intro s log e t _ ht
    exact withinTable_step ht

/-- A message `REG a b` is read while the loop waits. -/
def registerEvents (k : ℕ) : List ServerEvent :=
  [.event (.act (.write cmdFifo regA)), .event (.act .select),
    .event (.act (.cmd (fresh (5 + k))))]

theorem first_registration_within : ∃ s log,
    (serverTable lowest).run (registerEvents 0) = some (s, log) ∧ s.clients.length = 1 ∧
      WithinTable (s, log) := by
  have hrun : (serverTable lowest).run (registerEvents 0) = some _ := rfl
  have hroom : 0 < maxNumOfClients := Nat.zero_lt_succ 63
  refine ⟨_, _, hrun, rfl, (withinTable_iff hrun).mpr ?_⟩
  exact .cons (fun _ => hroom) rfl (.cons (fun _ => hroom) rfl (.cons (fun _ => hroom) rfl trivial))

end Table

section Full

/-- There are `k` clients, with the descriptors from 5, and nothing waits in a FIFO. -/
structure Holding (k : ℕ) (s : State) : Prop where
  fifo : ∀ n, s.fifo n = []
  length : s.clients.length = k
  txFd : ∀ i c, s.clients[i]? = some c → c.txFd = some (5 + i)
  opened : ∀ fd, 5 + k ≤ fd → s.opened fd = none
  rx : ∀ fd, s.opened fd = some cmdFifo ↔ fd = 3
  le : 3 ≤ s.maxFd

structure Waiting (k : ℕ) (s : State) : Prop extends Holding k s where
  pc : s.pc = .select
  mem : 3 ∈ s.rfds

theorem run_scans {setup : Setup} {n i : ℕ} {s : State} (hpc : s.pc = .scan i)
    (hlen : s.clients.length = i + n)
    (hskip : ∀ (j : ℕ) (c : Client), s.clients[j]? = some c →
      ∃ fd ∉ s.rfds, c.txFd = some fd ∧ fd < fdSetSize) :
    (server setup).runFrom s (List.replicate (n + 1) (.event (.act .scan))) =
      some { s with pc := .select, rfds := watchSet setup s } := by
  induction n generalizing i s with
  | zero =>
    have hc : s.clients[i]? = none := List.getElem?_eq_none_iff.mpr hlen.le
    have hstep : step setup s .scan = some { s with pc := .select, rfds := watchSet setup s } := by
      unfold step
      rw [hpc]
      dsimp only
      unfold scanStep
      rw [hc]
    exact Machine.runFrom_cons_eq_some.mpr ⟨_, hstep, rfl⟩
  | succ n ih =>
    have hi : i < s.clients.length := by omega
    have hc := List.getElem?_eq_getElem hi
    obtain ⟨fd, hnot, hfd, hlt⟩ := hskip i _ hc
    have hfilter : s.clients[i].txFd.filter (· < fdSetSize) = some fd := by
      rw [hfd]
      simp [hlt]
    have hstep : step setup s .scan = some { s with pc := .scan (i + 1) } := by
      unfold step
      rw [hpc]
      dsimp only
      unfold scanStep
      rw [hc]
      dsimp only
      rw [hfilter]
      exact if_neg fun h => hnot h.1
    have hrest := ih (s := { s with pc := .scan (i + 1) }) rfl (by dsimp only; omega) hskip
    rw [List.replicate_succ]
    exact Machine.runFrom_cons_eq_some.mpr ⟨_, hstep, hrest⟩

theorem Waiting.ready {k : ℕ} {s : State} (h : Waiting k s) : (s.write cmdFifo regA).ready = {3} := by
  have hopened : (s.write cmdFifo regA).opened = s.opened := rfl
  ext fd
  unfold State.ready
  rw [Finset.mem_filter, Finset.mem_singleton]
  constructor
  · rintro ⟨_, _, hne⟩
    by_contra hfd
    apply hne
    unfold State.pending
    rw [hopened]
    cases hn : s.opened fd with
    | none => rfl
    | some n =>
      have hcmd : n ≠ cmdFifo := by
        rintro rfl
        exact hfd ((h.rx fd).mp hn)
      exact (Function.update_of_ne hcmd _ _).trans (h.fifo n)
  · rintro rfl
    refine ⟨h.mem, h.le, ?_⟩
    unfold State.pending
    rw [hopened, (h.rx 3).mpr rfl]
    change Function.update s.fifo cmdFifo (s.fifo cmdFifo ++ regA.text) cmdFifo ≠ []
    rw [Function.update_self, h.fifo]
    exact regA.text_ne_nil

/-- What these leave, at the start of the loop over the clients. -/
def joined (k : ℕ) (s : State) : State :=
  addClient (State.read { s.write cmdFifo regA with rfds := {3}, pc := .cmd } cmdFifo)
    [0x61] [0x62] (some (5 + k))

theorem Waiting.run_register {k : ℕ} {s : State} (h : Waiting k s) :
    (server lowest).runFrom s (registerEvents k) = some (joined k s) := by
  have hselect : step lowest (s.write cmdFifo regA) .select =
      some { s.write cmdFifo regA with rfds := {3}, pc := .cmd } := by
    have hready : (s.write cmdFifo regA).ready = {3} := h.ready
    have hpc : (s.write cmdFifo regA).pc = .select := h.pc
    unfold step
    dsimp only
    rw [hready, if_pos ⟨hpc, Finset.singleton_nonempty 3⟩]
    rfl
  have hfifo : (s.write cmdFifo regA).fifo cmdFifo = regA.text := by
    change Function.update s.fifo cmdFifo (s.fifo cmdFifo ++ regA.text) cmdFifo = regA.text
    rw [Function.update_self, h.fifo]
    rfl
  have hcmd : step lowest { s.write cmdFifo regA with rfds := {3}, pc := .cmd }
      (.cmd (fresh (5 + k))) = some (joined k s) := by
    have hnew : ∀ fd ∈ (fresh (5 + k)).fd, fd ≠ 0 ∧ fd ≠ lowest.tx ∧ s.opened fd = none := by
      intro fd hfd
      cases hfd
      have htx : lowest.tx = 4 := rfl
      exact ⟨by omega, by omega, h.opened _ le_rfl⟩
    have hreg : command (fresh (5 + k)).stack regA.text = some (.reg [0x61] [0x62]) :=
      command_reg _ (m := regA) rfl
    refine (if_pos ⟨rfl, hnew⟩).trans ?_
    unfold serverCmd
    dsimp only
    rw [hfifo, if_neg regA.text_ne_nil, regA.take_text, hreg]
    rfl
  refine Machine.runFrom_cons_eq_some.mpr ⟨_, rfl, ?_⟩
  refine Machine.runFrom_cons_eq_some.mpr ⟨_, hselect, ?_⟩
  exact Machine.runFrom_cons_eq_some.mpr ⟨_, hcmd, rfl⟩

theorem Holding.joined {k : ℕ} {s : State} (h : Holding k s) : Holding (k + 1) (joined k s) where
  fifo := by
    intro n
    change Function.update (Function.update s.fifo cmdFifo (s.fifo cmdFifo ++ regA.text)) cmdFifo
      ((Function.update s.fifo cmdFifo (s.fifo cmdFifo ++ regA.text) cmdFifo).drop bufSize) n = []
    rw [Function.update_idem, Function.update_self, h.fifo]
    by_cases hn : n = cmdFifo
    · rw [hn, Function.update_self]
      exact regA.drop_text
    · rw [Function.update_of_ne hn]
      exact h.fifo n
  length := by
    change (s.clients ++ [_]).length = k + 1
    rw [List.length_append, h.length]
    rfl
  txFd := by
    intro i c hc
    change (s.clients ++ [⟨some (5 + k), [0x62]⟩])[i]? = some c at hc
    rcases lt_or_ge i s.clients.length with hi | hi
    · rw [List.getElem?_append_left hi] at hc
      exact h.txFd i c hc
    · rw [List.getElem?_append_right hi, List.getElem?_singleton] at hc
      obtain ⟨hlast, hclient⟩ := Option.ite_none_right_eq_some.mp hc
      cases hclient
      have hlen := h.length
      rw [show i = k by omega]
  opened := by
    intro fd hfd
    have hne : fd ≠ 5 + k := by omega
    exact (Function.update_of_ne hne _ _).trans (h.opened fd (by omega))
  rx := by
    intro fd
    change Function.update s.opened (5 + k) (some [0x61]) fd = some cmdFifo ↔ fd = 3
    by_cases hfd : fd = 5 + k
    · rw [hfd, Function.update_self]
      have hname : (some [0x61] : Option Name) ≠ some cmdFifo := by decide
      exact iff_of_false hname (by omega)
    · rw [Function.update_of_ne hfd]
      exact h.rx fd
  le := h.le.trans (le_max_left _ _)

/-- While there is an entry for it, the loop then waits with one client more. -/
theorem Waiting.next {k : ℕ} {s : State} (h : Waiting k s) (hk : k < maxNumOfClients) :
    ∃ t, (server lowest).runFrom s
        (registerEvents k ++ List.replicate (k + 2) (.event (.act .scan))) = some t ∧
      Waiting (k + 1) t := by
  have hjoined := h.toHolding.joined
  have hpc : (joined k s).pc = .scan 0 := if_pos ⟨h.length.trans_lt hk, by decide⟩
  have hlen : (joined k s).clients.length = 0 + (k + 1) := by
    rw [hjoined.length, Nat.zero_add]
  have hskip : ∀ (i : ℕ) (c : Client), (joined k s).clients[i]? = some c →
      ∃ fd ∉ (joined k s).rfds, c.txFd = some fd ∧ fd < fdSetSize := by
    intro i c hc
    have hi : i < (joined k s).clients.length := (List.getElem?_eq_some_iff.mp hc).1
    have hmax : maxNumOfClients = 64 := rfl
    have hset : fdSetSize = 1024 := rfl
    refine ⟨5 + i, ?_, hjoined.txFd i c hc, by omega⟩
    intro hmem
    have hthree := Finset.mem_singleton.mp hmem
    omega
  have hscans := @run_scans lowest _ _ _ hpc hlen hskip
  refine ⟨{ joined k s with pc := .select, rfds := watchSet lowest (joined k s) }, ?_,
    ⟨hjoined.fifo, hjoined.length, hjoined.txFd, hjoined.opened, hjoined.rx, hjoined.le⟩, rfl,
    Finset.mem_insert_self _ _⟩
  rw [Machine.runFrom_append, h.run_register]
  exact hscans

/-- `k` registrations, each in a pass of its own. -/
def fillEvents : ℕ → List ServerEvent
  | 0 => []
  | k + 1 => fillEvents k ++ (registerEvents k ++ List.replicate (k + 2) (.event (.act .scan)))

theorem run_fillEvents {k : ℕ} (hk : k ≤ maxNumOfClients) :
    ∃ s, (server lowest).run (fillEvents k) = some s ∧ Waiting k s := by
  induction k with
  | zero =>
    refine ⟨_, rfl, ⟨fun _ => rfl, rfl, ?_, ?_, ?_, by decide⟩, rfl, by decide⟩
    · intro i c hc
      cases hc
    · intro fd hfd
      have hne : fd ≠ 3 := by omega
      exact if_neg hne
    · intro fd
      change (if fd = 3 then some cmdFifo else none) = some cmdFifo ↔ fd = 3
      simp
  | succ k ih =>
    obtain ⟨s, hs, hwait⟩ := ih (by omega)
    obtain ⟨t, ht, hnext⟩ := hwait.next (by omega)
    refine ⟨t, ?_, hnext⟩
    unfold Machine.run at hs ⊢
    rw [fillEvents, Machine.runFrom_append, hs]
    exact ht

/-- The 65th registration goes beyond the table. -/
theorem table_overrun : ∃ s log,
    (serverTable lowest).run (fillEvents 64 ++ registerEvents 64) = some (s, log) ∧
      s.clients.length = 65 ∧ ¬ WithinTable (s, log) := by
  obtain ⟨s, hs, hwait⟩ := run_fillEvents (k := maxNumOfClients) le_rfl
  have hrun : (server lowest).run (fillEvents 64 ++ registerEvents 64) = some (joined 64 s) := by
    unfold Machine.run at hs ⊢
    rw [Machine.runFrom_append, show (server lowest).runFrom _ (fillEvents 64) = _ from hs]
    exact hwait.run_register
  have hlen : (joined 64 s).clients.length = 65 := hwait.toHolding.joined.length
  have hmap : ((serverTable lowest).run (fillEvents 64 ++ registerEvents 64)).map Prod.fst =
      some (joined 64 s) :=
    (Machine.run_withHistory_map _).trans hrun
  obtain ⟨⟨t, log⟩, ht, hfst⟩ := Option.map_eq_some_iff.mp hmap
  have ht65 : t.clients.length = 65 := (congrArg (fun u => u.clients.length) hfst).trans hlen
  refine ⟨t, log, ht, ht65, ?_⟩
  intro h
  have hnum : t.clients.length ≤ maxNumOfClients := h.clientNum
  rw [ht65] at hnum
  exact absurd hnum (by decide)

end Full

end OsTasks.FileServer.Dispatch
