import OsTasks.Integral.GatherReads

/-! How many passes the loop of `gather_results` makes: each takes bytes, gives up a socket or is the
last. -/
namespace OsTasks.Integral
open OsTasks.Lib

/-- `recv` never fails. -/
def Wake.NoReset : Wake → Prop
  | .arrivals batch => ∀ e ∈ batch, e.2 ≠ .reset
  | .failure => True

def NetEvent.bytes : NetEvent → ℕ
  | .segment bytes => bytes.length
  | .close => 0
  | .reset => 0

/-- The bytes that arrive for the sockets in `fds`. -/
def batchBytes (fds : Finset ℕ) (batch : List (ℕ × NetEvent)) : ℕ :=
  (batch.map fun e => if e.1 ∈ fds then e.2.bytes else 0).sum

def Wake.bytes (fds : Finset ℕ) : Wake → ℕ
  | .arrivals batch => batchBytes fds batch
  | .failure => 0

def arrivedBytes (fds : Finset ℕ) (wakes : List Wake) : ℕ := (wakes.map (Wake.bytes fds)).sum

/-- The bytes that wait in the connections. -/
def bufferedBytes (fds : Finset ℕ) (conns : ℕ → Conn) : ℕ := ∑ fd ∈ fds, (conns fd).buffered.length

/-- What the loop can still use up. -/
def GatherState.left (fds : Finset ℕ) (s : GatherState) : ℕ :=
  bufferedBytes fds s.gather.conns + s.gather.readSet.card + if s.phase = .running then 1 else 0

theorem bufferedBytes_update {fds : Finset ℕ} {fd : ℕ} (hfd : fd ∈ fds) (conns : ℕ → Conn)
    (c : Conn) :
    bufferedBytes fds (Function.update conns fd c) + (conns fd).buffered.length =
      bufferedBytes fds conns + c.buffered.length := by
  have hrest : ∑ j ∈ fds.erase fd, (Function.update conns fd c j).buffered.length =
      ∑ j ∈ fds.erase fd, (conns j).buffered.length := by
    apply Finset.sum_congr rfl
    intro j hj
    rw [Function.update_of_ne (Finset.ne_of_mem_erase hj)]
  have hafter := Finset.add_sum_erase fds
    (fun j => (Function.update conns fd c j).buffered.length) hfd
  have hbefore := Finset.add_sum_erase fds (fun j => (conns j).buffered.length) hfd
  simp only [Function.update_self] at hafter
  unfold bufferedBytes
  omega

theorem bufferedBytes_update_of_notMem {fds : Finset ℕ} {fd : ℕ} (hfd : fd ∉ fds)
    (conns : ℕ → Conn) (c : Conn) :
    bufferedBytes fds (Function.update conns fd c) = bufferedBytes fds conns := by
  apply Finset.sum_congr rfl
  intro j hj
  have hne : j ≠ fd := fun he => hfd (he ▸ hj)
  rw [Function.update_of_ne hne]

theorem length_deliver (c : Conn) (e : NetEvent) :
    (c.deliver e).buffered.length = c.buffered.length + e.bytes := by
  cases e with
  | segment bytes => exact List.length_append
  | close => rfl
  | reset => rfl

theorem bufferedBytes_deliverAll (fds : Finset ℕ) (conns : ℕ → Conn)
    (batch : List (ℕ × NetEvent)) :
    bufferedBytes fds (deliverAll conns batch) =
      bufferedBytes fds conns + batchBytes fds batch := by
  induction batch generalizing conns with
  | nil => rfl
  | cons e batch ih =>
    have hcons : deliverAll conns (e :: batch) =
        deliverAll (Function.update conns e.1 ((conns e.1).deliver e.2)) batch := rfl
    have hbytes : batchBytes fds (e :: batch) =
        (if e.1 ∈ fds then e.2.bytes else 0) + batchBytes fds batch := by
      unfold batchBytes
      rw [List.map_cons, List.sum_cons]
    have hlen := length_deliver (conns e.1) e.2
    rw [hcons, ih, hbytes]
    by_cases hfd : e.1 ∈ fds
    · have hupdate := bufferedBytes_update hfd conns ((conns e.1).deliver e.2)
      rw [if_pos hfd]
      omega
    · have hupdate := bufferedBytes_update_of_notMem hfd conns ((conns e.1).deliver e.2)
      rw [if_neg hfd]
      omega

theorem deliverAll_error {conns : ℕ → Conn} (h : ∀ fd, (conns fd).error = false)
    {batch : List (ℕ × NetEvent)} (hbatch : ∀ e ∈ batch, e.2 ≠ .reset) (fd : ℕ) :
    (deliverAll conns batch fd).error = false := by
  induction batch generalizing conns with
  | nil => exact h fd
  | cons e batch ih =>
    refine ih ?_ fun e' he' => hbatch e' (List.mem_cons_of_mem _ he')
    intro j
    change (Function.update conns e.1 ((conns e.1).deliver e.2) j).error = false
    by_cases hj : j = e.1
    · have hreset := hbatch e List.mem_cons_self
      rw [hj, Function.update_self]
      cases hev : e.2 with
      | segment bytes => exact h e.1
      | close => exact h e.1
      | reset => exact absurd hev hreset
    · rw [Function.update_of_ne hj]
      exact h j

/-- Without a pending error `recv` takes bytes or finds the end of the stream. -/
theorem recv_progress {c : Conn} (herr : c.error = false) :
    (recv sizeofDouble c).2.error = false ∧
      ((∃ l, (recv sizeofDouble c).1 = .bytes l ∧
          (recv sizeofDouble c).2.buffered.length < c.buffered.length) ∨
        (recv sizeofDouble c).1 = .endOfStream ∧
          (recv sizeofDouble c).2.buffered.length = c.buffered.length) := by
  unfold recv
  by_cases hne : c.buffered ≠ []
  · rw [if_pos hne]
    have hpos := List.length_pos_of_ne_nil hne
    refine ⟨herr, Or.inl ⟨_, rfl, ?_⟩⟩
    dsimp only
    rw [List.length_drop]
    change c.buffered.length - 8 < _
    omega
  · rw [if_neg hne, herr]
    exact ⟨herr, Or.inr ⟨rfl, rfl⟩⟩

variable (decode : List Byte → ℚ) {fds : Finset ℕ}

theorem serve_left {w : Worker} {g : Gather} (hw : w.socket ∈ fds)
    (herr : ∀ fd, (g.conns fd).error = false) :
    (∀ fd, ((serve decode w g).2.conns fd).error = false) ∧
      bufferedBytes fds (serve decode w g).2.conns + (serve decode w g).2.readSet.card +
        (if w.socket ∈ g.readSet then 1 else 0) ≤
          bufferedBytes fds g.conns + g.readSet.card := by
  unfold serve
  by_cases hin : w.socket ∈ g.readSet
  · obtain ⟨hclear, hcase⟩ := recv_progress (herr w.socket)
    have hupdate := bufferedBytes_update hw g.conns (recv sizeofDouble (g.conns w.socket)).2
    have herase := Finset.card_erase_add_one hin
    have hkeep : ∀ fd, (Function.update g.conns w.socket
        (recv sizeofDouble (g.conns w.socket)).2 fd).error = false := by
      intro fd
      by_cases hfd : fd = w.socket
      · rw [hfd, Function.update_self]
        exact hclear
      · rw [Function.update_of_ne hfd]
        exact herr fd
    rw [if_pos hin, if_pos hin]
    rcases hrecv : recv sizeofDouble (g.conns w.socket) with ⟨l | _ | _, c⟩ <;>
      rw [hrecv] at hcase hupdate hkeep <;> dsimp only at hcase hupdate ⊢
    · have hless : c.buffered.length < (g.conns w.socket).buffered.length := by
        rcases hcase with ⟨_, _, hless⟩ | ⟨hno, _⟩
        · exact hless
        · cases hno
      split_ifs
      · refine ⟨hkeep, ?_⟩
        dsimp only
        omega
      · refine ⟨hkeep, ?_⟩
        dsimp only
        omega
    · have hsame : c.buffered.length = (g.conns w.socket).buffered.length := by
        rcases hcase with ⟨_, hno, _⟩ | ⟨_, hsame⟩
        · cases hno
        · exact hsame
      refine ⟨hkeep, ?_⟩
      omega
    · rcases hcase with ⟨_, hno, _⟩ | ⟨hno, _⟩
      · cases hno
      · cases hno
  · rw [if_neg hin, if_neg hin]
    exact ⟨herr, le_rfl⟩

/-- A scan uses up as much for each socket that is ready. -/
theorem scan_left {workers : List Worker} (hd : (workers.map Worker.socket).Nodup)
    (hfds : ∀ w ∈ workers, w.socket ∈ fds) {g : Gather}
    (herr : ∀ fd, (g.conns fd).error = false) :
    (∀ fd, ((scan decode workers g).2.conns fd).error = false) ∧
      bufferedBytes fds (scan decode workers g).2.conns +
          (scan decode workers g).2.readSet.card +
        workers.countP (fun w => w.socket ∈ g.readSet) ≤
          bufferedBytes fds g.conns + g.readSet.card := by
  induction workers generalizing g with
  | nil => exact ⟨herr, le_rfl⟩
  | cons v vs ih =>
    obtain ⟨hother, hd⟩ := nodup_sockets_cons hd
    obtain ⟨herr', hserve⟩ := serve_left decode (hfds v List.mem_cons_self) herr
    have hframe : ∀ w ∈ vs,
        (w.socket ∈ (serve decode v g).2.readSet ↔ w.socket ∈ g.readSet) := by
      intro w hw
      exact (serve_frame decode (hother w hw)).2
    obtain ⟨herr'', hrest⟩ := ih hd (fun w hw => hfds w (List.mem_cons_of_mem _ hw)) herr'
    have hcount : vs.countP (fun w => w.socket ∈ (serve decode v g).2.readSet) =
        vs.countP fun w => w.socket ∈ g.readSet := by
      apply List.countP_congr
      intro w hw
      simp only [decide_eq_true_eq, hframe w hw]
    have hscan : (scan decode (v :: vs) g).2 = (scan decode vs (serve decode v g).2).2 := rfl
    rw [hscan, List.countP_cons]
    simp only [decide_eq_true_eq]
    refine ⟨herr'', ?_⟩
    omega

variable {decode}

/-- What the loop keeps while no `recv` fails. -/
structure PassInv (workers : List Worker) (s : GatherState) : Prop where
  sockets : s.workers.map Worker.socket = workers.map Worker.socket
  noError : ∀ fd, (s.gather.conns fd).error = false
  readSet : s.gather.readSet ⊆ (workers.map Worker.socket).toFinset

theorem PassInv.exists_worker {workers : List Worker} {s : GatherState} (h : PassInv workers s)
    {fd : ℕ} (hfd : fd ∈ s.gather.readSet) : ∃ w ∈ s.workers, w.socket = fd := by
  apply List.mem_map.mp
  rw [h.sockets]
  exact List.mem_toFinset.mp (h.readSet hfd)

/-- A pass uses up something. -/
theorem passInv_step {workers : List Worker} {start s t : GatherState} {wake : Wake}
    (hd : (workers.map Worker.socket).Nodup) (h : PassInv workers s) (hwake : wake.NoReset)
    (ht : (gatherLoop decode start).step s wake = some t) :
    PassInv workers t ∧ t.left (workers.map Worker.socket).toFinset + 1 ≤
      s.left (workers.map Worker.socket).toFinset +
        wake.bytes (workers.map Worker.socket).toFinset := by
  obtain ⟨hloop, ht⟩ := Option.ite_none_right_eq_some.mp ht
  have hphase : s.phase = .running := hloop.1
  cases ht
  set fds := (workers.map Worker.socket).toFinset with hfds
  cases wake with
  | failure =>
    refine ⟨⟨h.sockets, h.noError, h.readSet⟩, ?_⟩
    unfold GatherState.left
    rw [if_pos hphase]
    exact le_rfl
  | arrivals batch =>
    set conns := deliverAll s.gather.conns batch with hconns
    set ready := select (s.maxfd + 1) s.gather.readSet conns with hready
    have hsub : ready ⊆ s.gather.readSet := Finset.filter_subset _ _
    have herr : ∀ fd, (conns fd).error = false := deliverAll_error h.noError hwake
    have harrived : bufferedBytes fds conns = bufferedBytes fds s.gather.conns +
        (Wake.arrivals batch).bytes fds := bufferedBytes_deliverAll fds _ batch
    have hcard := Finset.card_le_card hsub
    unfold pass
    dsimp only
    rw [← hconns, ← hready]
    by_cases hempty : ready = ∅
    · rw [if_pos hempty]
      refine ⟨⟨h.sockets, herr, hsub.trans h.readSet⟩, ?_⟩
      unfold GatherState.left
      rw [if_pos hphase]
      simp only [reduceCtorEq, if_false]
      omega
    · obtain ⟨fd, hfd⟩ := Finset.nonempty_iff_ne_empty.mpr hempty
      obtain ⟨w, hw, rfl⟩ := h.exists_worker (hsub hfd)
      have hpos : 0 < s.workers.countP fun w => w.socket ∈ ready :=
        List.countP_pos_iff.mpr ⟨w, hw, decide_eq_true hfd⟩
      have hin : ∀ w ∈ s.workers, w.socket ∈ fds := by
        intro w hw
        rw [hfds, List.mem_toFinset, ← h.sockets]
        exact List.mem_map_of_mem hw
      set g : Gather := { s.gather with conns := conns, readSet := ready } with hg
      obtain ⟨herr', hused⟩ := scan_left decode (h.sockets ▸ hd) hin (g := g) herr
      obtain ⟨hworkers, _, hleft, _⟩ := scan_fullReads decode (h.sockets ▸ hd) g
      rw [if_neg hempty]
      refine ⟨⟨?_, herr', (hleft.trans hsub).trans h.readSet⟩, ?_⟩
      · dsimp only
        rw [hworkers, List.map_map, ← h.sockets]
        apply List.map_congr_left
        intro w _
        exact Worker.socket_after decode _ w
      · unfold GatherState.left
        dsimp only
        rw [hphase, if_pos rfl]
        have hstart : bufferedBytes fds g.conns + g.readSet.card =
            bufferedBytes fds conns + ready.card := rfl
        have hcount : s.workers.countP (fun w => w.socket ∈ g.readSet) =
            s.workers.countP fun w => w.socket ∈ ready := rfl
        omega

/-- So a run is no longer than what there was to use up. -/
theorem run_gatherLoop_length {workers : List Worker} {start s t : GatherState} {wakes : List Wake}
    (hd : (workers.map Worker.socket).Nodup) (h : PassInv workers s)
    (hwakes : ∀ wake ∈ wakes, wake.NoReset)
    (hrun : (gatherLoop decode start).runFrom s wakes = some t) :
    wakes.length + t.left (workers.map Worker.socket).toFinset ≤
      s.left (workers.map Worker.socket).toFinset +
        arrivedBytes (workers.map Worker.socket).toFinset wakes := by
  induction wakes generalizing s with
  | nil =>
    cases hrun
    exact (Nat.zero_add _).le
  | cons wake wakes ih =>
    obtain ⟨u, hstep, hrest⟩ := Machine.runFrom_cons_eq_some.mp hrun
    obtain ⟨hinv, hused⟩ := passInv_step hd h (hwakes wake List.mem_cons_self) hstep
    have hlen := ih hinv (fun w hw => hwakes w (List.mem_cons_of_mem _ hw)) hrest
    have hbytes : arrivedBytes (workers.map Worker.socket).toFinset (wake :: wakes) =
        wake.bytes (workers.map Worker.socket).toFinset +
          arrivedBytes (workers.map Worker.socket).toFinset wakes := by
      unfold arrivedBytes
      rw [List.map_cons, List.sum_cons]
    rw [List.length_cons]
    omega

/-- Every worker is counted at most once, and the loop ends. -/
theorem gather_results_ends {workers : List Worker} {conns : ℕ → Conn} {wakes : ℕ → Wake}
    {B : ℕ} (hn : workers ≠ []) (hd : (workers.map Worker.socket).Nodup)
    (herr : ∀ fd, (conns fd).error = false) (hwakes : ∀ k, (wakes k).NoReset)
    (hB : ∀ k, bufferedBytes (workers.map Worker.socket).toFinset conns +
      arrivedBytes (workers.map Worker.socket).toFinset ((List.range k).map wakes) ≤ B) :
    ∃ start, gatherStart workers conns = some start ∧
      (∀ k s reads, (gatherReads decode start).run ((List.range k).map wakes) = some (s, reads) →
        s.gather.responsesReceived = (reads.map Prod.fst).toFinset.card ∧
        (reads.map Prod.fst).Nodup ∧
        (∀ r ∈ reads, r.1 ∈ workers.map Worker.socket ∧ r.2.length = sizeofDouble ∧
          r.1 ∉ s.gather.readSet) ∧
        ∀ wake t, (gatherLoop decode start).step s wake = some t →
          t.gather.readSet ⊆ s.gather.readSet) ∧
      ∃ k s, k ≤ B + workers.length + 1 ∧
        (gatherLoop decode start).run ((List.range k).map wakes) = some s ∧ ¬ s.Looping := by
  obtain ⟨maxfd, hstart, _⟩ := exists_gatherStart hn conns
  refine ⟨_, hstart, ?_, ?_⟩
  · intro k s reads hrun
    have hinv := readsInv_of_run hd hstart hrun
    refine ⟨?_, hinv.nodup, hinv.mem, fun wake t ht => (readsInv_step hd hinv ht).2⟩
    rw [List.toFinset_card_of_nodup hinv.nodup, List.length_map]
    exact hinv.responses
  · set fds := (workers.map Worker.socket).toFinset with hfds
    set start : GatherState := ⟨workers, maxfd, ⟨conns, fds, 0⟩, .running⟩ with hs
    have hinv : PassInv workers start := ⟨rfl, herr, Finset.Subset.refl _⟩
    have hleft : start.left fds = bufferedBytes fds conns + workers.length + 1 := by
      have hcard : fds.card = workers.length := by
        rw [hfds, List.toFinset_card_of_nodup hd, List.length_map]
      rw [← hcard]
      rfl
    rcases (gatherLoop decode start).run_range_or_stuck wakes (B + workers.length + 2) with
      ⟨t, hrun⟩ | ⟨k, t, hk, hrun, hstuck⟩
    · have hreset : ∀ wake ∈ (List.range (B + workers.length + 2)).map wakes, wake.NoReset := by
        intro wake hwake
        obtain ⟨j, _, rfl⟩ := List.mem_map.mp hwake
        exact hwakes j
      have hlen := run_gatherLoop_length hd hinv hreset hrun
      have hsum := hB (B + workers.length + 2)
      rw [List.length_map, List.length_range, ← hfds, hleft] at hlen
      omega
    · refine ⟨k, t, by omega, hrun, ?_⟩
      intro hloop
      have hsome : (gatherLoop decode start).step t (wakes k) = some _ := if_pos hloop
      rw [hstuck] at hsome
      cases hsome

theorem two_results_end :
    ∃ start, gatherStart [oneCore 4, oneCore 5] quiet = some start ∧
      (∀ k s reads, (gatherReads firstByte start).run
          ((List.range k).map fun i => arrivalsOf eightBytes [[5], [4]] i) = some (s, reads) →
        s.gather.responsesReceived = (reads.map Prod.fst).toFinset.card ∧
        (reads.map Prod.fst).Nodup ∧
        (∀ r ∈ reads, r.1 ∈ [oneCore 4, oneCore 5].map Worker.socket ∧ r.2.length = sizeofDouble ∧
          r.1 ∉ s.gather.readSet) ∧
        ∀ wake t, (gatherLoop firstByte start).step s wake = some t →
          t.gather.readSet ⊆ s.gather.readSet) ∧
      ∃ k s, k ≤ 16 + 2 + 1 ∧ (gatherLoop firstByte start).run
        ((List.range k).map fun i => arrivalsOf eightBytes [[5], [4]] i) = some s ∧
          ¬ s.Looping := by
  have harrived : ∀ k, arrivedBytes ([oneCore 4, oneCore 5].map Worker.socket).toFinset
      ((List.range (k + 2)).map fun i => arrivalsOf eightBytes [[5], [4]] i) = 16 := by
    intro k
    induction k with
    | zero => decide +kernel
    | succ k ih =>
      have hrange : List.range (k + 1 + 2) = List.range (k + 2) ++ [k + 2] := List.range_succ
      unfold arrivedBytes at ih ⊢
      rw [hrange, List.map_append, List.map_append, List.sum_append, ih]
      rfl
  refine gather_results_ends (by decide) (by decide) (fun _ => rfl) ?_ ?_
  · rintro (_ | _ | i) e he
    · cases List.mem_singleton.mp he
      exact fun h => by cases h
    · cases List.mem_singleton.mp he
      exact fun h => by cases h
    · exact absurd he List.not_mem_nil
  · rintro (_ | _ | k)
    · decide +kernel
    · decide +kernel
    · rw [harrived k]
      decide +kernel

end OsTasks.Integral
