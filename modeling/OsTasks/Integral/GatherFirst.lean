import OsTasks.Integral.Gather

/-! What `gather_results` returns: the results of the workers that answer before the first `select`
returns, and what the other workers' fields held. -/
namespace OsTasks.Integral
open OsTasks.Lib

variable {decode : List Byte → ℚ}

theorem halted_gatherLoop {start s : GatherState} (h : ¬ s.Looping) :
    (gatherLoop decode start).Halted s := fun _ => if_neg h

theorem GatherReturns.unique {workers : List Worker} {conns : ℕ → Conn} {wakes : ℕ → Wake}
    {v v' : ℚ} (h : GatherReturns decode workers conns wakes v)
    (h' : GatherReturns decode workers conns wakes v') : v = v' := by
  obtain ⟨start, k, s, hstart, hr, hs, -, rfl⟩ := h
  obtain ⟨start', k', s', hstart', hr', hs', -, rfl⟩ := h'
  cases hstart.symm.trans hstart'
  rw [Machine.eq_of_run_halted hr (halted_gatherLoop hs) hr' (halted_gatherLoop hs')]

private theorem le_foldl_max (ws : List Worker) (m : ℕ) :
    m ≤ ws.foldl (fun m w => if m < w.socket then w.socket else m) m ∧
      ∀ w ∈ ws, w.socket ≤ ws.foldl (fun m w => if m < w.socket then w.socket else m) m := by
  induction ws generalizing m with
  | nil => exact ⟨le_rfl, fun _ h => absurd h List.not_mem_nil⟩
  | cons w ws ih =>
    obtain ⟨h1, h2⟩ := ih (if m < w.socket then w.socket else m)
    have hm : m ≤ (if m < w.socket then w.socket else m) ∧
        w.socket ≤ (if m < w.socket then w.socket else m) := by split_ifs <;> omega
    refine ⟨hm.1.trans h1, ?_⟩
    intro v hv
    rcases List.mem_cons.mp hv with rfl | hv
    · exact hm.2.trans h1
    · exact h2 v hv

theorem exists_maxFd {workers : List Worker} (hn : workers ≠ []) :
    ∃ m, maxFd workers = some m ∧ ∀ w ∈ workers, w.socket ≤ m := by
  refine ⟨_, ?_, (le_foldl_max workers (workers.getLast hn).socket).2⟩
  unfold maxFd
  rw [List.getLast?_eq_some_getLast hn]
  rfl

/-- What a worker whose whole result is buffered becomes. -/
def Worker.received (w : Worker) (decode : List Byte → ℚ) (payload : ℕ → List Byte)
    (fds : Finset ℕ) : Worker :=
  if w.socket ∈ fds then { w with result := decode (payload w.socket) } else w

variable {payload : ℕ → List Byte}

theorem payload_ne_nil (h8 : ∀ fd, (payload fd).length = sizeofDouble) (fd : ℕ) :
    payload fd ≠ [] := by
  apply List.ne_nil_of_length_pos
  rw [h8 fd]
  exact Nat.succ_pos 7

theorem serve_of_mem (decode : List Byte → ℚ) (h8 : ∀ fd, (payload fd).length = sizeofDouble)
    {w : Worker} {g : Gather}
    (hw : w.socket ∈ g.readSet) (hb : (g.conns w.socket).buffered = payload w.socket) :
    ∃ c, serve decode w g = (w.received decode payload g.readSet,
      { conns := Function.update g.conns w.socket c
        readSet := g.readSet.erase w.socket
        responsesReceived := g.responsesReceived + 1 }) := by
  have hl := h8 w.socket
  have hne := payload_ne_nil h8 w.socket
  have htake : (payload w.socket).take sizeofDouble = payload w.socket := by
    rw [← hl, List.take_length]
  refine ⟨⟨(payload w.socket).drop sizeofDouble, (g.conns w.socket).closed,
    (g.conns w.socket).error⟩, ?_⟩
  simp only [serve, if_pos hw, recv, hb, hne, ne_eq, not_false_eq_true, if_true, htake, hl,
    Worker.received]

theorem serve_of_notMem {w : Worker} {g : Gather} (hw : w.socket ∉ g.readSet) :
    serve decode w g = (w, g) := if_neg hw

/-- A scan in which every socket of the set holds one whole result stores them all and leaves
no scanned socket in the set. -/
theorem scan_eq (decode : List Byte → ℚ) (h8 : ∀ fd, (payload fd).length = sizeofDouble)
    {workers : List Worker} (hd : (workers.map Worker.socket).Nodup) {g : Gather}
    (hbuf : ∀ w ∈ workers, w.socket ∈ g.readSet →
      (g.conns w.socket).buffered = payload w.socket) :
    ∃ conns, scan decode workers g =
      (workers.map fun w => w.received decode payload g.readSet,
        { conns := conns
          readSet := g.readSet \ (workers.map Worker.socket).toFinset
          responsesReceived := g.responsesReceived +
            workers.countP fun w => w.socket ∈ g.readSet }) := by
  induction workers generalizing g with
  | nil => exact ⟨g.conns, by simp [scan]⟩
  | cons w ws ih =>
    obtain ⟨hother, hd⟩ := nodup_sockets_cons hd
    have hne : ∀ v ∈ ws, v.socket ≠ w.socket := fun v hv => (hother v hv).symm
    rw [List.map_cons, List.map_cons, List.toFinset_cons, Finset.sdiff_insert]
    by_cases hw : w.socket ∈ g.readSet
    · obtain ⟨c, hserve⟩ := serve_of_mem decode h8 hw (hbuf w (by simp) hw)
      have hmem : ∀ v ∈ ws, (v.socket ∈ g.readSet.erase w.socket ↔ v.socket ∈ g.readSet) :=
        fun v hv => by simp [hne v hv]
      obtain ⟨conns, hrest⟩ := ih hd (g := (serve decode w g).2) (by
        intro v hv hvs
        rw [hserve] at hvs ⊢
        dsimp only at hvs ⊢
        rw [Function.update_of_ne (hne v hv)]
        exact hbuf v (by simp [hv]) ((hmem v hv).mp hvs))
      rw [hserve] at hrest
      dsimp only at hrest
      have hmap : (ws.map fun v => v.received decode payload (g.readSet.erase w.socket)) =
          ws.map fun v => v.received decode payload g.readSet := by
        apply List.map_congr_left
        intro v hv
        simp only [Worker.received, hmem v hv]
      have hcount : (ws.countP fun v => v.socket ∈ g.readSet.erase w.socket) =
          ws.countP fun v => v.socket ∈ g.readSet := by
        apply List.countP_congr
        intro v hv
        simp only [decide_eq_true_eq, hmem v hv]
      have hpos := List.countP_cons_of_pos (p := fun v : Worker => v.socket ∈ g.readSet)
        (l := ws) (decide_eq_true hw)
      refine ⟨conns, ?_⟩
      rw [hpos, ← Nat.add_assoc, Nat.add_right_comm, ← Finset.erase_sdiff_comm]
      simp only [scan, hserve, hrest, hmap, hcount]
    · obtain ⟨conns, hrest⟩ := ih hd (g := g) fun v hv => hbuf v (by simp [hv])
      have hneg := List.countP_cons_of_neg (p := fun v : Worker => v.socket ∈ g.readSet)
        (l := ws) (by simpa using hw)
      have herase : (g.readSet \ (ws.map Worker.socket).toFinset).erase w.socket =
          g.readSet \ (ws.map Worker.socket).toFinset :=
        Finset.erase_eq_of_notMem fun h => hw (Finset.mem_sdiff.mp h).1
      refine ⟨conns, ?_⟩
      rw [hneg, herase, show w.received decode payload g.readSet = w from if_neg hw]
      simp only [scan, serve_of_notMem hw, hrest]

/-- The next results to arrive, each whole. -/
def arrivalsOf (payload : ℕ → List Byte) (groups : List (List ℕ)) (k : ℕ) : Wake :=
  .arrivals ((groups.getD k []).map fun fd => (fd, .segment (payload fd)))

/-- An order and a grouping of the workers' answers, by socket. -/
structure AnswerOrder (workers : List Worker) (groups : List (List ℕ)) : Prop where
  nonempty : ∀ g ∈ groups, g ≠ []
  perm : groups.flatten.Perm (workers.map Worker.socket)

def quiet : ℕ → Conn := fun _ => ⟨[], false, false⟩

theorem deliverAll_group {group : List ℕ} (hd : group.Nodup) (conns : ℕ → Conn)
    (hc : ∀ fd ∈ group, conns fd = ⟨[], false, false⟩) (fd : ℕ) :
    deliverAll conns (group.map fun fd => (fd, .segment (payload fd))) fd =
      if fd ∈ group then ⟨payload fd, false, false⟩ else conns fd := by
  induction group generalizing conns with
  | nil => rfl
  | cons a group ih =>
    rw [List.nodup_cons] at hd
    have hne : ∀ b ∈ group, b ≠ a := fun b hb he => hd.1 (he ▸ hb)
    have hstep := ih hd.2 (Function.update conns a
      ((conns a).deliver (.segment (payload a)))) fun b hb => by
        rw [Function.update_of_ne (hne b hb)]
        exact hc b (by simp [hb])
    have hhead : (conns a).deliver (.segment (payload a)) = ⟨payload a, false, false⟩ := by
      rw [hc a (by simp)]
      rfl
    change deliverAll (Function.update conns a _) _ fd = _
    rw [hstep, hhead]
    by_cases hfd : fd = a
    · subst hfd
      simp [hd.1]
    · simp [hfd]

variable {workers : List Worker} {first : List ℕ} {later : List (List ℕ)}

theorem AnswerOrder.mem_socket (ho : AnswerOrder workers (first :: later)) {fd : ℕ}
    (h : fd ∈ first) : fd ∈ workers.map Worker.socket := by
  apply ho.perm.mem_iff.mp
  rw [List.flatten_cons]
  exact List.mem_append_left _ h

theorem AnswerOrder.nodup_first (ho : AnswerOrder workers (first :: later))
    (hd : (workers.map Worker.socket).Nodup) : first.Nodup := by
  have h := ho.perm.nodup_iff.mpr hd
  rw [List.flatten_cons] at h
  exact h.of_append_left

theorem AnswerOrder.ne_nil (ho : AnswerOrder workers (first :: later)) : workers ≠ [] := by
  obtain ⟨fd, hfd⟩ := List.exists_mem_of_ne_nil _ (ho.nonempty first List.mem_cons_self)
  rintro rfl
  exact List.not_mem_nil (ho.mem_socket hfd)

theorem select_first (ho : AnswerOrder workers (first :: later))
    (hd : (workers.map Worker.socket).Nodup)
    (h8 : ∀ fd, (payload fd).length = sizeofDouble) {maxfd : ℕ}
    (hmax : ∀ w ∈ workers, w.socket ≤ maxfd) :
    select (maxfd + 1) (workers.map Worker.socket).toFinset
      (deliverAll quiet (first.map fun fd => (fd, .segment (payload fd)))) = first.toFinset := by
  ext fd
  have hdel : deliverAll quiet (first.map fun fd => (fd, .segment (payload fd))) fd =
      if fd ∈ first then ⟨payload fd, false, false⟩ else quiet fd :=
    deliverAll_group (ho.nodup_first hd) quiet (fun _ _ => rfl) fd
  have hne := payload_ne_nil h8 fd
  simp only [select, Finset.mem_filter, List.mem_toFinset, hdel]
  constructor
  · rintro ⟨_, _, hread⟩
    by_contra hfd
    rw [if_neg hfd] at hread
    simp [Conn.Readable, quiet] at hread
  · intro hfd
    have hmem := ho.mem_socket hfd
    obtain ⟨w, hw, rfl⟩ := List.mem_map.mp hmem
    refine ⟨hmem, Nat.lt_succ_of_le (hmax w hw), ?_⟩
    rw [if_pos hfd]
    exact Or.inl hne

theorem exists_gatherStart (hn : workers ≠ []) (conns : ℕ → Conn) :
    ∃ maxfd, gatherStart workers conns = some
        ⟨workers, maxfd, ⟨conns, (workers.map Worker.socket).toFinset, 0⟩, .running⟩ ∧
      ∀ w ∈ workers, w.socket ≤ maxfd := by
  obtain ⟨maxfd, hm, hmax⟩ := exists_maxFd hn
  refine ⟨maxfd, ?_, hmax⟩
  unfold gatherStart
  rw [hm]
  rfl

/-- After the first pass the first group's results are stored and the set is empty. -/
theorem pass_first (decode : List Byte → ℚ) (ho : AnswerOrder workers (first :: later))
    (hd : (workers.map Worker.socket).Nodup)
    (h8 : ∀ fd, (payload fd).length = sizeofDouble) {start : GatherState}
    (hstart : gatherStart workers quiet = some start) :
    ∃ s, (gatherLoop decode start).step start (arrivalsOf payload (first :: later) 0) = some s ∧
      s.workers = (workers.map fun w => w.received decode payload first.toFinset) ∧
      s.gather.readSet = ∅ ∧ s.phase = .running ∧
      s.gather.responsesReceived = workers.countP fun w => w.socket ∈ first := by
  obtain ⟨maxfd, hs, hmax⟩ := exists_gatherStart ho.ne_nil quiet
  cases hstart.symm.trans hs
  have hsel := select_first ho hd h8 hmax
  have hbuf : ∀ w ∈ workers, w.socket ∈ first.toFinset →
      (deliverAll quiet (first.map fun fd => (fd, .segment (payload fd))) w.socket).buffered =
        payload w.socket := by
    intro w _ hw
    rw [deliverAll_group (ho.nodup_first hd) quiet (fun _ _ => rfl),
      if_pos (List.mem_toFinset.mp hw)]
  obtain ⟨conns, hscan⟩ := scan_eq decode h8 hd
    (g := ⟨deliverAll quiet (first.map fun fd => (fd, .segment (payload fd))), first.toFinset, 0⟩)
    hbuf
  have hne : first.toFinset ≠ ∅ := by
    intro h
    exact ho.nonempty first List.mem_cons_self (List.toFinset_eq_empty_iff first |>.mp h)
  have hsub : first.toFinset \ (workers.map Worker.socket).toFinset = ∅ := by
    rw [Finset.sdiff_eq_empty_iff_subset]
    intro fd hfd
    exact List.mem_toFinset.mpr (ho.mem_socket (List.mem_toFinset.mp hfd))
  simp only [hsub, List.mem_toFinset, zero_add] at hscan
  refine ⟨⟨workers.map fun w => w.received decode payload first.toFinset, maxfd,
    ⟨conns, ∅, workers.countP fun w => w.socket ∈ first⟩, .running⟩, ?_, rfl, rfl, rfl, rfl⟩
  refine (if_pos ⟨rfl, List.length_pos_of_ne_nil ho.ne_nil⟩).trans (congrArg some ?_)
  simp only [pass, arrivalsOf, List.getD_cons_zero, hsel, hne, if_false, hscan]

theorem pass_of_empty (decode : List Byte → ℚ) {start s : GatherState} (hs : s.Looping)
    (h : s.gather.readSet = ∅) (k : ℕ) :
    ∃ t, (gatherLoop decode start).step s (arrivalsOf payload (first :: later) k) = some t ∧
      t.workers = s.workers ∧ t.phase = .timedOut := by
  have hsel : ∀ nfds conns, select nfds s.gather.readSet conns = ∅ := by
    intro nfds conns
    rw [h]
    rfl
  refine ⟨_, if_pos hs, ?_⟩
  simp only [pass, arrivalsOf, hsel, if_true, and_self]

private theorem map_result_received :
    ((workers.map fun w => w.received decode payload first.toFinset).map Worker.result) =
      workers.map fun w =>
        if w.socket ∈ first then decode (payload w.socket) else w.result := by
  rw [List.map_map]
  apply List.map_congr_left
  intro w _
  simp only [Function.comp_apply, Worker.received, List.mem_toFinset]
  split_ifs <;> rfl

/-- Only the first group's results replace what the workers' `result` fields held. -/
theorem gatherReturns_first (decode : List Byte → ℚ) (ho : AnswerOrder workers (first :: later))
    (hd : (workers.map Worker.socket).Nodup)
    (h8 : ∀ fd, (payload fd).length = sizeofDouble) :
    GatherReturns decode workers quiet (arrivalsOf payload (first :: later))
      (workers.map fun w => if w.socket ∈ first then decode (payload w.socket)
        else w.result).sum := by
  obtain ⟨maxfd, hstart, _⟩ := exists_gatherStart ho.ne_nil quiet
  obtain ⟨s, hstep, hw, hr, hp, hresp⟩ := pass_first decode ho hd h8 hstart
  have hlen : s.workers.length = workers.length := by rw [hw, List.length_map]
  by_cases hall : (workers.countP fun w => w.socket ∈ first) < workers.length
  · have hs : s.Looping := ⟨hp, by rw [hresp, hlen]; exact hall⟩
    obtain ⟨t, hstep', hw', hp'⟩ := pass_of_empty decode hs hr 1
    refine ⟨_, 2, t, hstart, ?_, ?_, ?_, ?_⟩
    · exact Machine.runFrom_cons_eq_some.mpr
        ⟨s, hstep, Machine.runFrom_cons_eq_some.mpr ⟨t, hstep', rfl⟩⟩
    · intro h
      exact absurd (hp'.symm.trans h.1) (by decide)
    · rw [hp']
      decide
    · rw [hw', hw, map_result_received]
  · refine ⟨_, 1, s, hstart, Machine.runFrom_cons_eq_some.mpr ⟨s, hstep, rfl⟩, ?_, ?_, ?_⟩
    · intro h
      exact hall (hresp ▸ hlen ▸ h.2)
    · rw [hp]
      decide
    · rw [hw, map_result_received]

theorem sum_ite_eq_add {α : Type} (p : α → Prop) [DecidablePred p] (a b : α → ℚ) (l : List α) :
    (l.map fun x => if p x then a x else b x).sum =
      ((l.filter fun x => p x).map a).sum + ((l.filter fun x => ¬ p x).map b).sum := by
  induction l with
  | nil => simp
  | cons x l ih =>
    by_cases hx : p x
    · rw [List.filter_cons_of_pos (by simpa using hx), List.filter_cons_of_neg (by simpa using hx)]
      simp only [List.map_cons, List.sum_cons, if_pos hx, ih]
      ring
    · rw [List.filter_cons_of_neg (by simpa using hx), List.filter_cons_of_pos (by simpa using hx)]
      simp only [List.map_cons, List.sum_cons, if_neg hx, ih]
      ring

private theorem sum_ite_eq_iff {α : Type} (p : α → Prop) [DecidablePred p] (a b : α → ℚ)
    (l : List α) : (l.map fun x => if p x then a x else b x).sum = (l.map a).sum ↔
      ((l.filter fun x => ¬ p x).map b).sum = ((l.filter fun x => ¬ p x).map a).sum := by
  have hmixed := sum_ite_eq_add p a b l
  have hall := sum_ite_eq_add p a a l
  simp only [ite_self] at hall
  rw [hmixed, hall]
  exact add_right_inj _

/-- The sum of the results is returned exactly when the `result` fields of the workers outside
the first group already had the sum of their results. -/
theorem gatherReturns_sum_iff (ho : AnswerOrder workers (first :: later))
    (hd : (workers.map Worker.socket).Nodup)
    (h8 : ∀ fd, (payload fd).length = sizeofDouble) :
    GatherReturns decode workers quiet (arrivalsOf payload (first :: later))
        (workers.map fun w => decode (payload w.socket)).sum ↔
      ((workers.filter fun w => w.socket ∉ first).map Worker.result).sum =
        ((workers.filter fun w => w.socket ∉ first).map fun w => decode (payload w.socket)).sum := by
  have hret := gatherReturns_first decode ho hd h8
  rw [← sum_ite_eq_iff (fun w : Worker => w.socket ∈ first) _ Worker.result]
  constructor
  · intro h
    exact hret.unique h
  · intro h
    rw [← h]
    exact hret

/-- The first byte of a result stands for its value. -/
def firstByte (l : List Byte) : ℚ := (l.headD 0).toNat

def eightBytes (fd : ℕ) : List Byte := List.replicate 8 (UInt8.ofNat fd)

theorem one_group_summed :
    GatherReturns firstByte [oneCore 4, oneCore 5] quiet (arrivalsOf eightBytes [[5, 4]]) 9 := by
  have hsum : ([oneCore 4, oneCore 5].map fun w => firstByte (eightBytes w.socket)).sum = 9 := by
    decide +kernel
  rw [← hsum]
  refine (gatherReturns_sum_iff ⟨by decide, by decide⟩ (by decide) fun _ => rfl).mpr ?_
  decide +kernel

/-- The results are 4 and 5. When the second worker answers after the first pass, its result
is lost. -/
theorem second_group_lost :
    AnswerOrder [oneCore 4, oneCore 5] [[4], [5]] ∧
      GatherReturns firstByte [oneCore 4, oneCore 5] quiet (arrivalsOf eightBytes [[4], [5]]) 4 ∧
      ¬ GatherReturns firstByte [oneCore 4, oneCore 5] quiet
        (arrivalsOf eightBytes [[4], [5]]) 9 := by
  have h : GatherReturns firstByte [oneCore 4, oneCore 5] quiet
      (arrivalsOf eightBytes [[4], [5]]) 4 :=
    ⟨_, 2, _, rfl, rfl, by decide, by decide, by decide +kernel⟩
  refine ⟨⟨by decide, by decide⟩, h, fun h' => ?_⟩
  exact absurd (h.unique h') (by decide +kernel)

end OsTasks.Integral
