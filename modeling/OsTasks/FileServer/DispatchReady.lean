import OsTasks.FileServer.DispatchActed
import OsTasks.FileServer.DispatchPasses

/-! What is in the set that `select` watches, and which clients a pass reads from. -/
namespace OsTasks.FileServer.Dispatch
open OsTasks.Lib

variable {setup : Setup} {s t : State} {p q : Pass}

structure OpenFds (setup : Setup) (s : State) : Prop where
  rx : s.opened setup.rx ≠ none
  rx_le : setup.rx ≤ s.maxFd
  le : ∀ c ∈ s.clients, ∀ fd, c.txFd = some fd → fd ≤ s.maxFd
  opened : ∀ c ∈ s.clients, ∀ fd, c.txFd = some fd → s.opened fd ≠ none
  rfds : ∀ fd ∈ s.rfds, s.opened fd ≠ none

/-- The calls of the pass went up through the clients, and each was for a descriptor that `select`
reported. -/
structure Logged (s : State) (p : Pass) : Prop where
  increasing : p.calls.Pairwise (· < ·)
  reported : ∀ i ∈ p.calls, i < p.clients ∧
    ∃ c fd, s.clients[i]? = some c ∧ c.txFd = some fd ∧ fd ∈ p.ready

/-- Between `select` and the loop over the clients. -/
structure Reported (s : State) (p : Pass) : Prop where
  rfds : s.rfds ⊆ p.ready
  calls : p.calls = []
  clients : p.clients = s.clients.length
  opens : ∀ c ∈ s.clients, c.txFd ≠ none
  opened : ∀ fd ∈ p.ready, s.opened fd ≠ none

/-- In the loop over the clients, before client `i`. -/
structure Scanning (s : State) (p : Pass) (i : ℕ) : Prop where
  rfds : s.rfds ⊆ p.ready
  before : ∀ j ∈ p.calls, j < i
  opens : ∀ j c, j < i → s.clients[j]? = some c → c.txFd ≠ none
  old : ∀ j c fd, s.clients[j]? = some c → c.txFd = some fd → fd ∈ p.ready → j < p.clients

def Stage (setup : Setup) (s : State) (p : Pass) : Prop :=
  match s.pc with
  | .select => s.rfds = watchSet setup s ∧ ∀ c ∈ s.clients, c.txFd ≠ none
  | .cmd => Reported s p
  | .scan i => Scanning s p i
  | .exited => True
  | .fault => True

structure PassInv (setup : Setup) (s : State) (p : Pass) : Prop where
  fds : OpenFds setup s
  log : Logged s p
  stage : Stage setup s p

theorem mem_watchSet {fd : ℕ} :
    fd ∈ watchSet setup s ↔ fd = setup.rx ∨ ∃ c ∈ s.clients, c.txFd = some fd := by
  simp only [watchSet, Finset.mem_insert, List.mem_toFinset, List.mem_filterMap]

theorem OpenFds.of_mem_watchSet (h : OpenFds setup s) {fd : ℕ} (hfd : fd ∈ watchSet setup s) :
    s.opened fd ≠ none ∧ fd ≤ s.maxFd := by
  rcases mem_watchSet.mp hfd with rfl | ⟨c, hc, htx⟩
  · exact ⟨h.rx, h.rx_le⟩
  · exact ⟨h.opened c hc fd htx, h.le c hc fd htx⟩

theorem OpenFds.kept (h : OpenFds setup s) (hk : Kept s t)
    (hr : ∀ fd ∈ t.rfds, s.opened fd ≠ none) : OpenFds setup t := by
  obtain ⟨hclients, hmax, hopened⟩ := hk
  constructor
  · rw [hopened]
    exact h.rx
  · rw [hmax]
    exact h.rx_le
  · rw [hclients, hmax]
    exact h.le
  · rw [hclients, hopened]
    exact h.opened
  · rw [hopened]
    exact hr

theorem OpenFds.subset (h : OpenFds setup s) (hk : Kept s t) (hr : t.rfds ⊆ s.rfds) :
    OpenFds setup t := by
  apply h.kept hk
  intro fd hfd
  exact h.rfds fd (hr hfd)

theorem OpenFds.register (h : OpenFds setup s) {tx rx : Name} {fd : Option ℕ}
    (hc : t.clients = s.clients ++ [⟨fd, rx⟩]) (hm : t.maxFd = max s.maxFd (fd.getD 0))
    (ho : t.opened = fd.elim s.opened fun n => Function.update s.opened n (some tx))
    (hr : t.rfds = s.rfds) : OpenFds setup t := by
  have hkeep : ∀ n, s.opened n ≠ none → t.opened n ≠ none := by
    intro n hn
    rw [ho]
    cases fd with
    | none => exact hn
    | some m =>
      change Function.update s.opened m (some tx) n ≠ none
      rw [Function.update_apply]
      split_ifs
      · exact Option.some_ne_none _
      · exact hn
  have hmax : s.maxFd ≤ t.maxFd := by
    rw [hm]
    exact le_max_left _ _
  constructor
  · exact hkeep _ h.rx
  · exact h.rx_le.trans hmax
  · intro c hmem n hn
    rw [hc] at hmem
    rcases List.mem_append.mp hmem with hmem | hmem
    · exact (h.le c hmem n hn).trans hmax
    · rw [List.mem_singleton] at hmem
      rw [hmem] at hn
      have hfd : fd = some n := hn
      rw [hm, hfd]
      exact le_max_right _ _
  · intro c hmem n hn
    rw [hc] at hmem
    rcases List.mem_append.mp hmem with hmem | hmem
    · exact hkeep n (h.opened c hmem n hn)
    · rw [List.mem_singleton] at hmem
      rw [hmem] at hn
      have hfd : fd = some n := hn
      rw [ho, hfd]
      change Function.update s.opened n (some tx) n ≠ none
      rw [Function.update_self]
      exact Option.some_ne_none _
  · intro n hn
    rw [hr] at hn
    exact hkeep n (h.rfds n hn)

theorem getElem?_of_append {new : List Client} (hc : t.clients = s.clients ++ new) {i : ℕ}
    {c : Client} (h : s.clients[i]? = some c) : t.clients[i]? = some c := by
  obtain ⟨hi, _⟩ := List.getElem?_eq_some_iff.mp h
  rw [hc, List.getElem?_append_left hi, h]

theorem Logged.append (h : Logged s p) {new : List Client} (hc : t.clients = s.clients ++ new) :
    Logged t p := by
  refine ⟨h.increasing, ?_⟩
  intro i hi
  obtain ⟨hlt, c, fd, hci, hfd, hmem⟩ := h.reported i hi
  exact ⟨hlt, c, fd, getElem?_of_append hc hci, hfd, hmem⟩

theorem Logged.kept (h : Logged s p) (hk : Kept s t) : Logged t p :=
  h.append (hk.clients.trans (List.append_nil _).symm)

theorem logged_start (s : State) (ready : Finset ℕ) (n : ℕ) : Logged s ⟨ready, n, []⟩ := by
  refine ⟨List.Pairwise.nil, ?_⟩
  intro i hi
  cases hi

theorem Logged.call (h : Logged s p) {i : ℕ} {c : Client} {fd : ℕ} (hi : Scanning s p i)
    (hc : s.clients[i]? = some c) (hfd : c.txFd = some fd) (hmem : fd ∈ s.rfds) :
    Logged s { p with calls := p.calls ++ [i] } := by
  constructor
  · rw [List.pairwise_append]
    refine ⟨h.increasing, List.pairwise_singleton _ _, ?_⟩
    intro j hj k hk
    rw [List.mem_singleton] at hk
    rw [hk]
    exact hi.before j hj
  · intro j hj
    rcases List.mem_append.mp hj with hj | hj
    · exact h.reported j hj
    · rw [List.mem_singleton] at hj
      subst hj
      have hready : fd ∈ p.ready := hi.rfds hmem
      exact ⟨hi.old j c fd hc hfd hready, c, fd, hc, hfd, hready⟩

/-- The loop starts with the clients there were at `select`. -/
theorem Reported.scan (h : Reported s p) (hk : Kept s t) (hr : t.rfds = s.rfds) :
    Scanning t p 0 := by
  constructor
  · rw [hr]
    exact h.rfds
  · rw [h.calls]
    intro j hj
    cases hj
  · intro j c hj
    exact absurd hj (Nat.not_lt_zero j)
  · intro j c fd hc _ _
    rw [hk.clients] at hc
    rw [h.clients]
    exact (List.getElem?_eq_some_iff.mp hc).1

theorem Reported.register (h : Reported s p) {rx : Name} {fd : Option ℕ}
    (hnew : ∀ n ∈ fd, s.opened n = none) (hc : t.clients = s.clients ++ [⟨fd, rx⟩])
    (hr : t.rfds = s.rfds) : Scanning t p 0 := by
  constructor
  · rw [hr]
    exact h.rfds
  · rw [h.calls]
    intro j hj
    cases hj
  · intro j c hj
    exact absurd hj (Nat.not_lt_zero j)
  · intro j c n hj hn hmem
    rw [h.clients]
    by_contra hle
    rw [hc, List.getElem?_append_right (not_lt.mp hle), List.getElem?_singleton] at hj
    obtain ⟨_, hcfd⟩ := Option.ite_none_right_eq_some.mp hj
    cases hcfd
    exact h.opened n hmem (hnew n hn)

theorem Scanning.next {i : ℕ} (h : Scanning s p i) {c : Client} {fd : ℕ} (hk : Kept s t)
    (hc : s.clients[i]? = some c) (hfd : c.txFd = some fd) (hr : t.rfds ⊆ s.rfds)
    {calls : List ℕ} (hcalls : ∀ j ∈ calls, j ∈ p.calls ∨ j = i) :
    Scanning t { p with calls := calls } (i + 1) := by
  constructor
  · exact hr.trans h.rfds
  · intro j hj
    rcases hcalls j hj with hj | rfl
    · exact (h.before j hj).trans (Nat.lt_succ_self i)
    · exact Nat.lt_succ_self j
  · intro j d hj hd
    rw [hk.clients] at hd
    rcases Nat.lt_succ_iff_lt_or_eq.mp hj with hj | rfl
    · exact h.opens j d hj hd
    · cases hc.symm.trans hd
      rw [hfd]
      exact Option.some_ne_none _
  · rw [hk.clients]
    exact h.old

theorem Scanning.finish {i : ℕ} (h : Scanning s p i) (hlen : s.clients.length ≤ i) :
    ∀ c ∈ s.clients, c.txFd ≠ none := by
  intro c hc
  obtain ⟨j, hj⟩ := List.mem_iff_getElem?.mp hc
  have hlt : j < s.clients.length := (List.getElem?_eq_some_iff.mp hj).1
  exact h.opens j c (hlt.trans_le hlen) hj

theorem watchSet_kept (hk : Kept s t) : watchSet setup t = watchSet setup s := by
  unfold watchSet
  rw [hk.clients]

theorem Stage.kept (h : Stage setup s p) (hk : Kept s t) (hr : t.rfds = s.rfds)
    (ht : t.pc = s.pc) : Stage setup t p := by
  unfold Stage at h ⊢
  rw [ht]
  cases hpc : s.pc with
  | select =>
    rw [hpc] at h
    dsimp only at h ⊢
    rw [hr, watchSet_kept hk, hk.clients]
    exact h
  | cmd =>
    rw [hpc] at h
    obtain ⟨hsub, hcalls, hclients, hopens, hopened⟩ := h
    constructor
    · rw [hr]
      exact hsub
    · exact hcalls
    · rw [hk.clients]
      exact hclients
    · rw [hk.clients]
      exact hopens
    · rw [hk.opened]
      exact hopened
  | scan i =>
    rw [hpc] at h
    obtain ⟨hsub, hbefore, hopens, hold⟩ := h
    constructor
    · rw [hr]
      exact hsub
    · exact hbefore
    · rw [hk.clients]
      exact hopens
    · rw [hk.clients]
      exact hold
  | exited => trivial
  | fault => trivial

theorem openFds_init : OpenFds setup (dispatch setup).init := by
  have hrx : (dispatch setup).init.opened setup.rx ≠ none := by
    simp [dispatch]
  constructor
  · exact hrx
  · exact setup.rx_lt.le
  · intro c hc
    cases hc
  · intro c hc
    cases hc
  · intro fd hfd
    have hfd' : fd = setup.rx := Finset.mem_singleton.mp hfd
    rw [hfd']
    exact hrx

theorem passInv_init : PassInv setup (dispatch setup).init ⟨∅, 0, []⟩ := by
  refine ⟨openFds_init, logged_start _ _ _, rfl, ?_⟩
  intro c hc
  cases hc

theorem passInv_select (h : PassInv setup s p) (hk : Kept s t) (hpc : s.pc = .select)
    (hr : t.rfds ⊆ s.rfds) (ht : t.pc = .cmd ∨ t.pc = .scan 0) :
    PassInv setup t ⟨t.rfds, s.clients.length, []⟩ := by
  have hstage := h.stage
  simp only [Stage, hpc] at hstage
  have hreported : Reported t ⟨t.rfds, s.clients.length, []⟩ := by
    constructor
    · exact subset_rfl
    · rfl
    · rw [hk.clients]
    · rw [hk.clients]
      exact hstage.2
    · intro fd hfd
      rw [hk.opened]
      exact h.fds.rfds fd (hr hfd)
  refine ⟨h.fds.subset hk hr, logged_start _ _ _, ?_⟩
  rcases ht with ht | ht
  · simp only [Stage, ht]
    exact hreported
  · simp only [Stage, ht]
    exact hreported.scan ⟨rfl, rfl, rfl⟩ rfl

theorem passInv_turn (h : PassInv setup s p) (ht : Turn setup s t p q) : PassInv setup t q := by
  have hstage := h.stage
  cases ht with
  | write hk hr ht => exact ⟨h.fds.subset hk hr.le, h.log.kept hk, hstage.kept hk hr ht⟩
  | select hk hpc hr ht => exact passInv_select h hk hpc hr ht
  | command hk hpc hr ht =>
    simp only [Stage, hpc] at hstage
    refine ⟨h.fds.subset hk hr.le, h.log.kept hk, ?_⟩
    simp only [Stage, ht]
    exact hstage.scan hk hr
  | register hpc hnew hc hm ho hr ht =>
    simp only [Stage, hpc] at hstage
    refine ⟨h.fds.register hc hm ho hr, h.log.append hc, ?_⟩
    rcases ht with ht | ht
    · simp only [Stage, ht]
      exact hstage.register hnew hc hr
    · simp only [Stage, ht]
  | finish hk hpc hlen hr ht =>
    simp only [Stage, hpc] at hstage
    have hfds : OpenFds setup t := by
      apply h.fds.kept hk
      intro fd hfd
      rw [hr] at hfd
      exact (h.fds.of_mem_watchSet hfd).1
    refine ⟨hfds, h.log.kept hk, ?_⟩
    simp only [Stage, ht]
    rw [hr, watchSet_kept hk, hk.clients]
    exact ⟨rfl, hstage.finish hlen⟩
  | skip hk hpc hc hfd hr ht =>
    simp only [Stage, hpc] at hstage
    refine ⟨h.fds.subset hk hr.le, h.log.kept hk, ?_⟩
    simp only [Stage, ht]
    exact hstage.next hk hc hfd hr.le fun j hj => Or.inl hj
  | serve hk hpc hc hfd hmem hr ht =>
    simp only [Stage, hpc] at hstage
    refine ⟨h.fds.subset hk hr, (h.log.call hstage hc hfd hmem).kept hk, ?_⟩
    rcases ht with ht | ht
    · simp only [Stage, ht]
      apply hstage.next hk hc hfd hr
      intro j hj
      rcases List.mem_append.mp hj with hj | hj
      · exact Or.inl hj
      · exact Or.inr (List.mem_singleton.mp hj)
    · simp only [Stage, ht]
  | stop hk hr ht =>
    refine ⟨h.fds.subset hk hr.le, h.log.kept hk, ?_⟩
    rcases ht with ht | ht
    · simp only [Stage, ht]
    · simp only [Stage, ht]

theorem passInv_of_reachable (h : (passes setup).Reachable (s, p)) : PassInv setup s p := by
  apply Machine.Reachable.invariant_withHistory _ _ h
  · exact passInv_init
  · intro s p e t _ hinv ht
    exact passInv_turn hinv (turn_of_event ht p)

/-- At `select` the set is that of the command FIFO and all clients, under `max_fd`. Between two
calls of it `client_request` is called for each client once at most, and only for those whose own
descriptor it reported. -/
theorem watch_set_invariant (h : (passes setup).Reachable (s, p)) :
    (s.pc = .select →
      (∀ fd, fd ∈ s.rfds ↔ fd = setup.rx ∨ ∃ c ∈ s.clients, c.txFd = some fd) ∧
      (∀ c ∈ s.clients, c.txFd ≠ none) ∧ ∀ fd ∈ s.rfds, fd ≤ s.maxFd) ∧
    p.calls.Nodup ∧
    (∀ i ∈ p.calls, i < p.clients ∧
      ∃ c fd, s.clients[i]? = some c ∧ c.txFd = some fd ∧ fd ∈ p.ready) ∧
    ∀ i, called s = some i → i ∉ p.calls ∧ i < p.clients ∧
      ∃ c fd, s.clients[i]? = some c ∧ c.txFd = some fd ∧ fd ∈ p.ready := by
  obtain ⟨hfds, hlog, hstage⟩ := passInv_of_reachable h
  refine ⟨?_, ?_, hlog.reported, ?_⟩
  · intro hpc
    simp only [Stage, hpc] at hstage
    obtain ⟨hset, hopens⟩ := hstage
    rw [hset]
    exact ⟨fun fd => mem_watchSet, hopens, fun fd hfd => (hfds.of_mem_watchSet hfd).2⟩
  · apply hlog.increasing.imp
    intro a b hab
    exact hab.ne
  · intro i hi
    obtain ⟨hpc, c, fd, hc, hfd, hmem⟩ := exists_of_called hi
    simp only [Stage, hpc] at hstage
    have hready : fd ∈ p.ready := hstage.rfds hmem
    refine ⟨?_, hstage.old i c fd hc hfd hready, c, fd, hc, hfd, hready⟩
    intro hin
    exact absurd (hstage.before i hin) (lt_irrefl i)

/-- Two registrations in passes of their own, and a pass that reads from both clients. -/
theorem watch_set_two_clients :
    ∃ s p, (passes lowest).Reachable (s, p) ∧ p.calls = [0, 1] ∧ p.calls.Nodup ∧
      (∀ fd, fd ∈ s.rfds ↔ fd = 3 ∨ ∃ c ∈ s.clients, c.txFd = some fd) ∧
      ∃ c fd, s.clients[1]? = some c ∧ c.txFd = some fd ∧ fd ∈ p.ready := by
  have h : (passes lowest).Reachable _ := ⟨twoClients.map .act, rfl⟩
  obtain ⟨hselect, hnodup, hcalls, -⟩ := watch_set_invariant h
  exact ⟨_, _, h, rfl, hnodup, (hselect rfl).1, (hcalls 1 (by decide)).2⟩

end OsTasks.FileServer.Dispatch
