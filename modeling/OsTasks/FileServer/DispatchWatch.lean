import OsTasks.FileServer.DispatchSteps

/-! The sets the main loop gives to `select`: no `read` of a pass blocks, and a server that can do
nothing has read all that was written. -/
namespace OsTasks.FileServer.Dispatch
open OsTasks.Lib

/-- In a pass of the loop what is left of the set can be read, and before `select` the set is
complete. -/
structure Watching (setup : Setup) (s : State) : Prop where
  opened : ∀ fd ∈ s.rfds, ∃ n, s.opened fd = some n
  select : s.pc = .select → ∀ fd n, s.opened fd = some n → fd ∈ s.rfds
  cmd : s.pc = .cmd → s.fifo cmdFifo ≠ []
  ready : (s.pc = .cmd ∨ ∃ i, s.pc = .scan i) → ∀ fd ∈ s.rfds, fd ≠ setup.rx → s.pending fd ≠ []
  ne_fault : s.pc ≠ .fault
  exited : s.pc = .exited → Served s

variable {setup : Setup}

theorem watching_init : Watching setup (dispatch setup).init where
  opened := by
    intro fd h
    rw [Finset.mem_singleton.mp h]
    exact ⟨cmdFifo, if_pos rfl⟩
  select := by
    intro _ fd n h
    exact Finset.mem_singleton.mpr (Option.ite_none_right_eq_some.mp h).1
  cmd := nofun
  ready := fun h => h.elim nofun nofun
  ne_fault := nofun
  exited := nofun

theorem write_fifo_ne_nil {s : State} {n n' : Name} {m : Message} (h : s.fifo n' ≠ []) :
    (s.write n m).fifo n' ≠ [] := by
  unfold State.write
  simp only [Function.update_apply]
  split_ifs with hn
  · subst hn
    exact List.append_ne_nil_of_left_ne_nil h _
  · exact h

theorem pending_write_ne_nil {s : State} {n : Name} {m : Message} {fd : ℕ}
    (h : s.pending fd ≠ []) : (s.write n m).pending fd ≠ [] := by
  cases hn : s.opened fd with
  | none =>
    unfold State.pending at h
    rw [hn] at h
    exact absurd rfl h
  | some n' =>
    rw [pending_of_opened hn] at h
    have hn' : (s.write n m).opened fd = some n' := hn
    rw [pending_of_opened hn']
    exact write_fifo_ne_nil h

theorem served_read {s : State} {m : Message} (hm : Alone s cmdFifo m)
    (hn : ∀ p ∈ s.added, s.fifo p.1 = []) : Served (s.read cmdFifo) := by
  refine ⟨hm.read, ?_⟩
  intro p hp
  by_cases h : p.1 = cmdFifo
  · rw [h]
    exact hm.read
  · rw [read_fifo_of_ne h]
    exact hn p hp

/-- What is ready in the set stays so when the server reads the command FIFO. -/
theorem Watching.read {s : State} (hs : Watching setup s) (hreg : Registered setup s)
    (hpc : s.pc = .cmd) : ∀ fd ∈ s.rfds, fd ≠ setup.rx → (s.read cmdFifo).pending fd ≠ [] := by
  intro fd hfd hne
  obtain ⟨n, hn⟩ := hs.opened fd hfd
  have hcmd : n ≠ cmdFifo := by
    rintro rfl
    exact hne (hreg.once fd setup.rx cmdFifo hn hreg.rx)
  rw [pending_read hn hcmd]
  exact hs.ready (Or.inl hpc) fd hfd hne

theorem watching_select {s : State} (hs : Watching setup s) (hreg : Registered setup s) :
    Watching setup
      { s with rfds := s.ready, pc := if setup.rx ∈ s.ready then .cmd else .scan 0 } where
  opened := by
    intro fd h
    exact hs.opened fd (Finset.mem_filter.mp h).1
  select := by
    intro h
    change ite _ _ _ = _ at h
    split_ifs at h
  cmd := by
    intro h
    change ite _ _ _ = _ at h
    split_ifs at h with hrx
    have hp := (Finset.mem_filter.mp hrx).2.2
    rwa [pending_of_opened hreg.rx] at hp
  ready := by
    intro _ fd h _
    exact (Finset.mem_filter.mp h).2.2
  ne_fault := by
    change ite _ _ _ ≠ _
    split_ifs <;> exact nofun
  exited := by
    intro h
    change ite _ _ _ = _ at h
    split_ifs at h

theorem watching_register {s : State} (hs : Watching setup s) (hreg : Registered setup s)
    (hpc : s.pc = .cmd) {tx rx : Name} {fd : ℕ} (hfits : Fits s tx rx (some fd))
    (hnew : s.opened fd = none) :
    Watching setup (addClient (s.read cmdFifo) tx rx (some fd)) := by
  have hpc' : (addClient (s.read cmdFifo) tx rx (some fd)).pc = .scan 0 :=
    if_pos ⟨hfits.room, hfits.name⟩
  have hold : ∀ fd' n, s.opened fd' = some n →
      (addClient (s.read cmdFifo) tx rx (some fd)).opened fd' = some n :=
    fun _ _ h => addClient_opened (s := s.read cmdFifo) hnew h
  refine ⟨?_, ?_, ?_, ?_, ?_, ?_⟩
  · intro fd' h
    obtain ⟨n, hn⟩ := hs.opened fd' h
    exact ⟨n, hold fd' n hn⟩
  · intro h
    rw [hpc'] at h
    cases h
  · intro h
    rw [hpc'] at h
    cases h
  · intro _ fd' h hne
    obtain ⟨n, hn⟩ := hs.opened fd' h
    have hp := hs.read hreg hpc fd' h hne
    have hn' : (s.read cmdFifo).opened fd' = some n := hn
    rw [pending_of_opened hn'] at hp
    rw [pending_of_opened (hold fd' n hn)]
    exact hp
  · rw [hpc']
    exact nofun
  · intro h
    rw [hpc'] at h
    cases h

theorem watching_finish {s : State} (hreg : Registered setup s) :
    Watching setup { s with pc := .select, rfds := watchSet setup s } where
  opened := by
    intro fd h
    change fd ∈ watchSet setup s at h
    unfold watchSet at h
    rcases Finset.mem_insert.mp h with rfl | h
    · exact ⟨cmdFifo, hreg.rx⟩
    · obtain ⟨c, hc, hfd⟩ := List.mem_filterMap.mp (List.mem_toFinset.mp h)
      obtain ⟨i, n, hserves⟩ := hreg.serves_of_mem hc hfd
      exact ⟨n, hserves.opened⟩
  select := by
    intro _ fd n h
    change fd ∈ watchSet setup s
    unfold watchSet
    rcases hreg.known fd n h with rfl | ⟨c, hc, hfd⟩
    · exact Finset.mem_insert_self _ _
    · apply Finset.mem_insert_of_mem
      exact List.mem_toFinset.mpr (List.mem_filterMap.mpr ⟨c, hc, hfd⟩)
  cmd := nofun
  ready := fun h => h.elim nofun nofun
  ne_fault := nofun
  exited := nofun

theorem watching_moved {s t : State} (hs : Watching setup s) (hreg : Registered setup s)
    (ht : Moved setup s t) : Watching setup t := by
  cases ht with
  | write n m hpc =>
    exact ⟨hs.opened, hs.select, fun h => write_fifo_ne_nil (hs.cmd h),
      fun h fd hfd hne => pending_write_ne_nil (hs.ready h fd hfd hne), hs.ne_fault,
      fun h => absurd h hpc⟩
  | select hpc => exact watching_select hs hreg
  | off hpc hm hadds hn =>
    exact ⟨hs.opened, nofun, nofun, fun h => h.elim nofun nofun, nofun,
      fun _ => served_read hm hn⟩
  | unknown hpc hm hadds =>
    exact ⟨hs.opened, nofun, nofun, fun _ => hs.read hreg hpc, nofun, nofun⟩
  | register hpc hm hadds hfits hfd h0 hnew => exact watching_register hs hreg hpc hfits hnew
  | finish hpc => exact watching_finish hreg
  | skip hpc =>
    exact ⟨hs.opened, nofun, nofun, fun _ => hs.ready (Or.inr ⟨_, hpc⟩), nofun, nofun⟩
  | @serve i c fd n m file hpc hc hserves hm hfile =>
    refine ⟨fun fd' h => hs.opened fd' (Finset.mem_of_mem_erase h), nofun, nofun, ?_, nofun, nofun⟩
    intro _ fd' h hne
    obtain ⟨hfd', hmem⟩ := Finset.mem_erase.mp h
    obtain ⟨n', hn'⟩ := hs.opened fd' hmem
    have hother : n' ≠ n := by
      rintro rfl
      exact hfd' (hreg.once fd' fd n' hn' hserves.opened)
    change (s.read n).pending fd' ≠ []
    rw [pending_read hn' hother]
    exact hs.ready (Or.inr ⟨i, hpc⟩) fd' hmem hne
  | abort h =>
    exact ⟨hs.opened, nofun, nofun, fun h' => h'.elim nofun nofun, nofun, fun _ => h⟩

/-- A `select` with every open FIFO in its set that still waits finds them all empty. -/
theorem fifo_eq_nil_of_select {s : State} (hs : Watching setup s) (hreg : Registered setup s)
    (hpc : s.pc = .select) (h : step setup s .select = none) {fd : ℕ} {n : Name}
    (hn : s.opened fd = some n) : s.fifo n = [] := by
  have hle : fd ≤ s.maxFd := by
    rcases hreg.known fd n hn with rfl | ⟨c, hc, hfd⟩
    · exact hreg.rx_le
    · obtain ⟨i, n', hserves⟩ := hreg.serves_of_mem hc hfd
      exact hserves.le
  by_contra hne
  rw [← pending_of_opened hn] at hne
  have hmem : fd ∈ s.ready := Finset.mem_filter.mpr ⟨hs.select hpc fd n hn, hle, hne⟩
  unfold step at h
  rw [if_pos ⟨hpc, fd, hmem⟩] at h
  cases h

theorem serverCmd_ne_none {s : State} {env : Env} (h : s.fifo cmdFifo ≠ []) :
    serverCmd s env ≠ none := by
  unfold serverCmd
  rw [if_neg h]
  cases command env.stack ((s.fifo cmdFifo).take bufSize) with
  | none => exact nofun
  | some c => cases c <;> exact nofun

theorem serveClient_ne_none {s : State} {i : ℕ} {c : Client} {fd : ℕ} {n : Name}
    (h : s.fifo n ≠ []) : serveClient s i c fd n ≠ none := by
  unfold serveClient
  rw [if_neg h]
  cases clientRequest ((s.fifo n).take bufSize) <;> exact nofun

/-- In a pass of the loop no `read` blocks. -/
theorem scanStep_ne_none {s : State} (hs : Watching setup s) (hreg : Registered setup s) {i : ℕ}
    (hpc : s.pc = .scan i) : scanStep setup s i ≠ none := by
  unfold scanStep
  cases hc : s.clients[i]? with
  | none => exact nofun
  | some c =>
    obtain ⟨fd, n, hserves⟩ := hreg.serves i c hc
    have hfilter : c.txFd.filter (· < fdSetSize) = some fd := by
      rw [hserves.txFd]
      simp [hserves.lt]
    simp only [hfilter]
    by_cases hmem : fd ∈ s.rfds ∧ fd ≠ 0
    · have hrx : fd ≠ setup.rx := by
        rintro rfl
        exact hserves.ne_cmdFifo (Option.some.inj (hserves.opened.symm.trans hreg.rx))
      have hp := hs.ready (Or.inr ⟨i, hpc⟩) fd hmem.1 hrx
      rw [pending_of_opened hserves.opened] at hp
      rw [if_pos hmem, hserves.opened, Option.bind_some]
      exact serveClient_ne_none hp
    · rw [if_neg hmem]
      exact nofun

theorem served_of_idle {s : State} (hs : Watching setup s) (hreg : Registered setup s)
    (h : Idle setup s) : Served s := by
  obtain ⟨hselect, hcmd, hscan⟩ := h
  cases hpc : s.pc with
  | select =>
    constructor
    · exact fifo_eq_nil_of_select hs hreg hpc hselect hreg.rx
    · intro p hp
      obtain ⟨i, c, fd, hserves⟩ := hreg.exists_serves hp
      exact fifo_eq_nil_of_select hs hreg hpc hselect hserves.opened
  | cmd =>
    let env : Env := ⟨⟨List.replicate bufSize 0, List.length_replicate, [], [], []⟩, none⟩
    have henv : serverCmd s env = none := (if_pos ⟨hpc, nofun⟩).symm.trans (hcmd env)
    exact absurd henv (serverCmd_ne_none (hs.cmd hpc))
  | scan i =>
    unfold step at hscan
    simp only [hpc] at hscan
    exact absurd hscan (scanStep_ne_none hs hreg hpc)
  | exited => exact hs.exited hpc
  | fault => exact absurd hpc hs.ne_fault

end OsTasks.FileServer.Dispatch
