import OsTasks.FileServer.Dispatch

/-! What the steps of the main loop that lose no message do, and what they keep of the clients and
their descriptors. -/
namespace OsTasks.FileServer.Dispatch
open OsTasks.Lib

/-- The calls of `add_client` that a message makes: for a registration one, with its names. -/
def Adds (m : Message) (calls : List (Name × Name)) : Prop :=
  ∀ tx rx, m.line = .reg tx rx → calls = [(tx.bytes, rx.bytes)]

/-- The FIFO `n` holds `m` alone. -/
def Alone (s : State) (n : Name) (m : Message) : Prop :=
  m ∈ (s.written n).getLast? ∧ s.fifo n = m.text

/-- Client `i` reads its requests from the FIFO `n` through `fd`. -/
structure Serves (s : State) (i : ℕ) (c : Client) (fd : ℕ) (n : Name) : Prop where
  txFd : c.txFd = some fd
  ne_zero : fd ≠ 0
  lt : fd < fdSetSize
  le : fd ≤ s.maxFd
  opened : s.opened fd = some n
  ne_cmdFifo : n ≠ cmdFifo
  added : s.added[i]? = some (n, c.rxFilename)

/-- What a step that loses no message does. -/
inductive Moved (setup : Setup) (s : State) : State → Prop where
  | write (n : Name) (m : Message) (hpc : s.pc ≠ .exited) : Moved setup s (s.write n m)
  | select (hpc : s.pc = .select) : Moved setup s
      { s with rfds := s.ready, pc := if setup.rx ∈ s.ready then .cmd else .scan 0 }
  | off {m : Message} (hpc : s.pc = .cmd) (hm : Alone s cmdFifo m) (hadds : Adds m [])
      (hn : ∀ p ∈ s.added, s.fifo p.1 = []) : Moved setup s { s.read cmdFifo with pc := .exited }
  | unknown {m : Message} (hpc : s.pc = .cmd) (hm : Alone s cmdFifo m) (hadds : Adds m []) :
      Moved setup s { s.read cmdFifo with pc := .scan 0 }
  | register {m : Message} {tx rx : Name} {fd : ℕ} (hpc : s.pc = .cmd) (hm : Alone s cmdFifo m)
      (hadds : Adds m [(tx, rx)]) (hfits : Fits s tx rx (some fd)) (hfd : fd < fdSetSize)
      (h0 : fd ≠ 0) (hnew : s.opened fd = none) :
      Moved setup s (addClient (s.read cmdFifo) tx rx (some fd))
  | finish {i : ℕ} (hpc : s.pc = .scan i) :
      Moved setup s { s with pc := .select, rfds := watchSet setup s }
  | skip {i : ℕ} (hpc : s.pc = .scan i) : Moved setup s { s with pc := .scan (i + 1) }
  | serve {i : ℕ} {c : Client} {fd : ℕ} {n : Name} {m : Message} {file : Option Name}
      (hpc : s.pc = .scan i) (hc : s.clients[i]? = some c) (hserves : Serves s i c fd n)
      (hm : Alone s n m) (hfile : clientRequest m.text = some file) :
      Moved setup s { s.read n with
        pc := .scan (i + 1)
        rfds := s.rfds.erase fd
        jobs := s.jobs ++ (file.map fun f => ⟨i, n, ⟨c.rxFilename, f⟩⟩).toList }
  | abort (h : Served s) : Moved setup s { s with pc := .exited }

/-- The clients, the calls that added them and their descriptors. Each FIFO is open once. -/
structure Registered (setup : Setup) (s : State) : Prop where
  rx : s.opened setup.rx = some cmdFifo
  rx_le : setup.rx ≤ s.maxFd
  known : ∀ fd n, s.opened fd = some n →
    fd = setup.rx ∨ ∃ c ∈ s.clients, c.txFd = some fd
  once : ∀ fd fd' n, s.opened fd = some n → s.opened fd' = some n → fd = fd'
  length : s.clients.length = s.added.length
  serves : ∀ i c, s.clients[i]? = some c → ∃ fd n, Serves s i c fd n

variable {setup : Setup}

theorem pending_of_opened {s : State} {fd : ℕ} {n : Name} (h : s.opened fd = some n) :
    s.pending fd = s.fifo n := by
  unfold State.pending
  rw [h, Option.map_some, Option.getD_some]

theorem Alone.take {s : State} {n : Name} {m : Message} (h : Alone s n m) :
    (s.fifo n).take bufSize = m.text := by
  rw [h.2, m.take_text]

theorem Alone.ne_nil {s : State} {n : Name} {m : Message} (h : Alone s n m) : s.fifo n ≠ [] := by
  rw [h.2]
  exact m.text_ne_nil

theorem Alone.read {s : State} {n : Name} {m : Message} (h : Alone s n m) :
    (s.read n).fifo n = [] := by
  have hr : (s.read n).fifo n = (s.fifo n).drop bufSize := Function.update_self _ _ _
  rw [hr, h.2, m.drop_text]

@[simp] theorem read_fifo_of_ne {s : State} {n n' : Name} (h : n' ≠ n) :
    (s.read n).fifo n' = s.fifo n' := Function.update_of_ne h _ _

theorem pending_read {s : State} {n n' : Name} {fd : ℕ} (hn : s.opened fd = some n')
    (hne : n' ≠ n) : (s.read n).pending fd = s.pending fd := by
  have hr : (s.read n).opened fd = some n' := hn
  rw [pending_of_opened hr, pending_of_opened hn, read_fifo_of_ne hne]

theorem adds_nil {stack : Stack} {m : Message} {c : Command}
    (hc : command stack m.text = some c) (hne : ∀ tx rx, c ≠ .reg tx rx) : Adds m [] := by
  intro tx rx h
  rw [command_reg stack h] at hc
  exact absurd (Option.some.inj hc).symm (hne _ _)

theorem adds_reg {stack : Stack} {m : Message} {tx rx : Name}
    (hc : command stack m.text = some (.reg tx rx)) : Adds m [(tx, rx)] := by
  intro tx' rx' h
  rw [command_reg stack h] at hc
  cases hc
  rfl

theorem moved_cmd {s t : State} {env : Env} (hok : Ok s (.cmd env))
    (ht : step setup s (.cmd env) = some t) : Moved setup s t := by
  obtain ⟨⟨m, hlast, htext⟩, c, hc, hoff, hreg⟩ := hok
  have hm : Alone s cmdFifo m := ⟨hlast, htext⟩
  obtain ⟨⟨hpc, henv⟩, ht⟩ := Option.ite_none_right_eq_some.mp ht
  unfold serverCmd at ht
  rw [if_neg hm.ne_nil, hc] at ht
  rw [hm.take] at hc
  cases c with
  | off =>
    cases ht
    exact .off hpc hm (adds_nil hc nofun) (hoff rfl)
  | unknown =>
    cases ht
    exact .unknown hpc hm (adds_nil hc nofun)
  | reg tx rx =>
    cases ht
    have hfits := hreg tx rx rfl
    obtain ⟨fd, hfd, hlt⟩ := hfits.opens
    obtain ⟨h0, _, hnew⟩ := henv fd hfd
    rw [show env.fd = some fd from hfd] at hfits ⊢
    exact .register hpc hm (adds_reg hc) hfits hlt h0 hnew

theorem moved_scan {s t : State} (hs : Registered setup s) (hok : Ok s .scan)
    (ht : step setup s .scan = some t) : Moved setup s t := by
  obtain ⟨i, hpc, ht⟩ := exists_scan ht
  have hserved : ∀ c fd, s.clients[i]? = some c → c.txFd.filter (· < fdSetSize) = some fd →
      fd ∈ s.rfds → ∀ n, s.opened fd = some n → ∃ m, Serves s i c fd n ∧ Alone s n m := by
    intro c fd hc hfilter hmem n hn
    have hfd : c.txFd = some fd := (Option.filter_eq_some_iff.mp hfilter).1
    obtain ⟨m, hlast, htext⟩ := hok i c hpc hc fd hfd hmem n hn
    obtain ⟨fd', n', hserves⟩ := hs.serves i c hc
    cases hserves.txFd.symm.trans hfd
    cases hserves.opened.symm.trans hn
    exact ⟨m, hserves, hlast, htext⟩
  cases scanned_of_step ht with
  | finish hc => exact .finish hpc
  | @noFd c hc hfd =>
    obtain ⟨fd, n, hserves⟩ := hs.serves i c hc
    rw [hserves.txFd, Option.filter_some, if_pos (decide_eq_true hserves.lt)] at hfd
    cases hfd
  | skip hc hfd hmem => exact .skip hpc
  | overread hc hfd hmem hn hreq =>
    obtain ⟨m, _, hm⟩ := hserved _ _ hc hfd hmem.1 _ hn
    obtain ⟨file, hfile⟩ := clientRequest_isSome m
    rw [hm.take, hfile] at hreq
    cases hreq
  | serve hc hfd hmem hn hreq =>
    obtain ⟨m, hserves, hm⟩ := hserved _ _ hc hfd hmem.1 _ hn
    rw [hm.take] at hreq
    exact .serve hpc hc hserves hm hreq

theorem moved_of_ok {s t : State} {a : Action} (hs : Registered setup s) (hok : Ok s a)
    (ht : step setup s a = some t) : Moved setup s t := by
  cases a with
  | write n m =>
    cases ht
    exact .write n m hok
  | select =>
    obtain ⟨⟨hpc, _⟩, ht⟩ := Option.ite_none_right_eq_some.mp ht
    cases ht
    exact .select hpc
  | cmd env => exact moved_cmd hok ht
  | scan => exact moved_scan hs hok ht
  | abort =>
    obtain ⟨_, ht⟩ := Option.ite_none_left_eq_some.mp ht
    cases ht
    exact .abort hok

theorem registered_init : Registered setup (dispatch setup).init where
  rx := if_pos rfl
  rx_le := setup.rx_lt.le
  known := by
    intro fd n h
    exact Or.inl (Option.ite_none_right_eq_some.mp h).1
  once := by
    intro fd fd' n h h'
    exact (Option.ite_none_right_eq_some.mp h).1.trans (Option.ite_none_right_eq_some.mp h').1.symm
  length := rfl
  serves := nofun

theorem Registered.congr {s t : State} (hs : Registered setup s) (hc : t.clients = s.clients)
    (hm : t.maxFd = s.maxFd) (ho : t.opened = s.opened) (ha : t.added = s.added) :
    Registered setup t where
  rx := ho ▸ hs.rx
  rx_le := hm ▸ hs.rx_le
  known := by
    rw [ho, hc]
    exact hs.known
  once := by
    rw [ho]
    exact hs.once
  length := by
    rw [hc, ha]
    exact hs.length
  serves := by
    intro i c hi
    rw [hc] at hi
    obtain ⟨fd, n, h⟩ := hs.serves i c hi
    exact ⟨fd, n, h.txFd, h.ne_zero, h.lt, hm ▸ h.le, ho ▸ h.opened, h.ne_cmdFifo, ha ▸ h.added⟩

theorem Registered.exists_serves {s : State} (hs : Registered setup s) {p : Name × Name}
    (hp : p ∈ s.added) : ∃ i c fd, Serves s i c fd p.1 := by
  obtain ⟨i, hi⟩ := List.mem_iff_getElem?.mp hp
  have hlt : i < s.clients.length := by
    rw [hs.length]
    exact (List.getElem?_eq_some_iff.mp hi).1
  obtain ⟨fd, n, hserves⟩ := hs.serves i _ (List.getElem?_eq_getElem hlt)
  cases hi.symm.trans hserves.added
  exact ⟨i, _, fd, hserves⟩

theorem Registered.serves_of_mem {s : State} (hs : Registered setup s) {c : Client}
    (hc : c ∈ s.clients) {fd : ℕ} (hfd : c.txFd = some fd) : ∃ i n, Serves s i c fd n := by
  obtain ⟨i, hi⟩ := List.mem_iff_getElem?.mp hc
  obtain ⟨fd', n, h⟩ := hs.serves i c hi
  cases hfd.symm.trans h.txFd
  exact ⟨i, n, h⟩

theorem Registered.ne_of_opened {s : State} (hs : Registered setup s) {tx rx : Name}
    {o : Option ℕ} (hfits : Fits s tx rx o) {fd : ℕ} {n : Name} (hn : s.opened fd = some n) :
    n ≠ tx := by
  rcases hs.known fd n hn with rfl | ⟨c, hc, hfd⟩
  · rw [hs.rx] at hn
    cases hn
    exact hfits.ne_cmdFifo.symm
  · obtain ⟨i, n', h⟩ := hs.serves_of_mem hc hfd
    cases hn.symm.trans h.opened
    exact hfits.fresh _ (List.mem_of_getElem? h.added)

theorem addClient_opened {s : State} {tx rx : Name} {fd : ℕ} (hnew : s.opened fd = none)
    {fd' : ℕ} {n : Name} (h : s.opened fd' = some n) :
    (addClient s tx rx (some fd)).opened fd' = some n := by
  have hne : fd' ≠ fd := by
    rintro rfl
    rw [hnew] at h
    cases h
  exact (Function.update_of_ne hne _ _).trans h

theorem registered_addClient {s : State} (hs : Registered setup s) {tx rx : Name} {fd : ℕ}
    (hfits : Fits s tx rx (some fd)) (hlt : fd < fdSetSize) (h0 : fd ≠ 0)
    (hnew : s.opened fd = none) : Registered setup (addClient s tx rx (some fd)) := by
  have hself : (addClient s tx rx (some fd)).opened fd = some tx := Function.update_self _ _ _
  have hcases : ∀ fd' n, (addClient s tx rx (some fd)).opened fd' = some n →
      fd' = fd ∧ n = tx ∨ s.opened fd' = some n := by
    intro fd' n h
    by_cases hne : fd' = fd
    · subst hne
      exact Or.inl ⟨rfl, (Option.some.inj (hself.symm.trans h)).symm⟩
    · exact Or.inr ((Function.update_of_ne hne _ _).symm.trans h)
  refine ⟨addClient_opened hnew hs.rx, hs.rx_le.trans (le_max_left _ _), ?_, ?_, ?_, ?_⟩
  · intro fd' n h
    rcases hcases fd' n h with ⟨rfl, rfl⟩ | h
    · exact Or.inr ⟨⟨some fd', rx⟩, List.mem_append_right _ List.mem_cons_self, rfl⟩
    · rcases hs.known fd' n h with h | ⟨c, hc, hfd⟩
      · exact Or.inl h
      · exact Or.inr ⟨c, List.mem_append_left _ hc, hfd⟩
  · intro fd₁ fd₂ n h₁ h₂
    rcases hcases fd₁ n h₁ with ⟨e₁, en⟩ | h₁'
    · rcases hcases fd₂ n h₂ with ⟨e₂, _⟩ | h₂'
      · exact e₁.trans e₂.symm
      · exact absurd en (hs.ne_of_opened hfits h₂')
    · rcases hcases fd₂ n h₂ with ⟨_, en⟩ | h₂'
      · exact absurd en (hs.ne_of_opened hfits h₁')
      · exact hs.once fd₁ fd₂ n h₁' h₂'
  · simp only [addClient, List.length_append, hs.length, List.length_singleton]
  · intro i c hi
    have hi' : (s.clients ++ [⟨some fd, rx⟩])[i]? = some c := hi
    rcases lt_or_ge i s.clients.length with hlen | hlen
    · rw [List.getElem?_append_left hlen] at hi'
      obtain ⟨fd', n, h⟩ := hs.serves i c hi'
      refine ⟨fd', n, h.txFd, h.ne_zero, h.lt, h.le.trans (le_max_left _ _),
        addClient_opened hnew h.opened, h.ne_cmdFifo, ?_⟩
      exact (List.getElem?_append_left (hs.length ▸ hlen)).trans h.added
    · rw [List.getElem?_append_right hlen, List.getElem?_singleton] at hi'
      obtain ⟨hi0, hc⟩ := Option.ite_none_right_eq_some.mp hi'
      cases hc
      refine ⟨fd, tx, rfl, h0, hlt, le_max_right _ _, hself, hfits.ne_cmdFifo, ?_⟩
      have hlen' : s.added.length ≤ i := hs.length ▸ hlen
      refine (List.getElem?_append_right hlen').trans ?_
      rw [← hs.length, hi0]
      rfl

theorem registered_moved {s t : State} (hs : Registered setup s) (ht : Moved setup s t) :
    Registered setup t := by
  cases ht with
  | register hpc hm hadds hfits hfd h0 hnew =>
    have hread : Registered setup (s.read cmdFifo) := hs.congr rfl rfl rfl rfl
    have hf : Fits (s.read cmdFifo) _ _ _ :=
      ⟨hfits.room, hfits.name, hfits.opens, hfits.ne_cmdFifo, hfits.fresh⟩
    exact registered_addClient hread hf hfd h0 hnew
  | _ => exact hs.congr rfl rfl rfl rfl

end OsTasks.FileServer.Dispatch
