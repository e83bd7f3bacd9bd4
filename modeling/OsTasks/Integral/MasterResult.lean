import OsTasks.Integral.GatherReads
import OsTasks.Integral.Master

/-! The final result of the master of task_8: what was received, and what the memory of `newWorker`
held for the workers that deliver nothing. -/
namespace OsTasks.Integral
open OsTasks.Lib

variable {decode : List Byte → ℚ}

section Alike

/-- The same but for what the workers' fields hold. -/
structure Alike (s t : GatherState) : Prop where
  sockets : s.workers.map Worker.socket = t.workers.map Worker.socket
  maxfd : s.maxfd = t.maxfd
  gather : s.gather = t.gather
  phase : s.phase = t.phase

variable {s t : GatherState}

theorem Alike.looping_iff (h : Alike s t) : s.Looping ↔ t.Looping := by
  have hlen := congrArg List.length h.sockets
  rw [List.length_map, List.length_map] at hlen
  unfold GatherState.Looping
  rw [h.phase, h.gather, hlen]

theorem Alike.fullReads_eq (h : Alike s t) (wake : Wake) : fullReads s wake = fullReads t wake := by
  cases wake with
  | failure => rfl
  | arrivals batch =>
    unfold fullReads
    rw [h.sockets, h.maxfd, h.gather]

theorem serve_snd (decode : List Byte → ℚ) {w w' : Worker} (h : w.socket = w'.socket) (g : Gather) :
    (serve decode w g).2 = (serve decode w' g).2 := by
  unfold serve
  rw [h]
  split_ifs
  · rcases recv sizeofDouble (g.conns w'.socket) with ⟨l | _ | _, c⟩ <;> dsimp only
    split_ifs <;> rfl
  · rfl

theorem scan_snd {ws ws' : List Worker} (h : ws.map Worker.socket = ws'.map Worker.socket)
    (g : Gather) : (scan decode ws g).2 = (scan decode ws' g).2 := by
  induction ws generalizing ws' g with
  | nil =>
    rw [List.map_eq_nil_iff.mp h.symm]
  | cons w ws ih =>
    cases ws' with
    | nil => cases h
    | cons w' ws' =>
      obtain ⟨hw, hws⟩ := List.cons_eq_cons.mp h
      have hserve := serve_snd decode hw g
      change (scan decode ws (serve decode w g).2).2 = (scan decode ws' (serve decode w' g).2).2
      rw [hserve]
      exact ih hws _

theorem Alike.pass (h : Alike s t) (wake : Wake) :
    Alike (pass decode s wake) (pass decode t wake) := by
  cases wake with
  | failure => exact ⟨h.sockets, h.maxfd, h.gather, rfl⟩
  | arrivals batch =>
    unfold Integral.pass
    rw [← h.maxfd, ← h.gather]
    dsimp only
    split_ifs
    · exact ⟨h.sockets, rfl, rfl, rfl⟩
    · refine ⟨?_, rfl, scan_snd h.sockets _, h.phase⟩
      dsimp only
      rw [scan_sockets, scan_sockets, h.sockets]

theorem maxFd_congr {ws ws' : List Worker} (h : ws.map Worker.socket = ws'.map Worker.socket) :
    maxFd ws = maxFd ws' := by
  have hmap : ∀ ws : List Worker, maxFd ws =
      ((ws.map Worker.socket).getLast?).map fun last =>
        (ws.map Worker.socket).foldl (fun m fd => if m < fd then fd else m) last := by
    intro ws
    unfold maxFd
    rw [List.getLast?_map, Option.map_map]
    cases ws.getLast? with
    | none => rfl
    | some last =>
      rw [Option.map_some, Function.comp_apply, List.foldl_map]
      rfl
  rw [hmap, hmap, h]

end Alike

/-- `gather_results` takes the results `reads` and returns `v`. -/
def GatherTakes (decode : List Byte → ℚ) (workers : List Worker) (conns : ℕ → Conn)
    (wakes : ℕ → Wake) (reads : List (ℕ × List Byte)) (v : ℚ) : Prop :=
  ∃ start k s, gatherStart workers conns = some start ∧
    (gatherReads decode start).run ((List.range k).map wakes) = some (s, reads) ∧
    ¬ s.Looping ∧ s.phase ≠ .exited ∧ (s.workers.map Worker.result).sum = v

section Takes
variable {workers workers' : List Worker} {conns : ℕ → Conn} {wakes : ℕ → Wake}
  {reads reads' : List (ℕ × List Byte)} {v v' : ℚ}

theorem GatherTakes.returns (h : GatherTakes decode workers conns wakes reads v) :
    GatherReturns decode workers conns wakes v := by
  obtain ⟨start, k, s, hstart, hrun, hdone, hphase, hsum⟩ := h
  refine ⟨start, k, s, hstart, ?_, hdone, hphase, hsum⟩
  have hmap : ((gatherReads decode start).run ((List.range k).map wakes)).map Prod.fst =
      (gatherLoop decode start).run ((List.range k).map wakes) := Machine.run_withHistory_map _
  rw [← hmap]
  exact congrArg (Option.map Prod.fst) hrun

/-- What is taken does not depend on what the workers' fields hold. -/
theorem GatherTakes.reads_eq (h : GatherTakes decode workers conns wakes reads v)
    (h' : GatherTakes decode workers' conns wakes reads' v')
    (hsock : workers.map Worker.socket = workers'.map Worker.socket) : reads = reads' := by
  obtain ⟨start, k, s, hstart, hrun, hdone, _⟩ := h
  obtain ⟨start', k', s', hstart', hrun', hdone', _⟩ := h'
  have halike : Alike start start' := by
    obtain ⟨m, hm, hs⟩ := Option.bind_eq_some_iff.mp hstart
    obtain ⟨m', hm', hs'⟩ := Option.bind_eq_some_iff.mp hstart'
    rw [maxFd_congr hsock, hm'] at hm
    cases hm
    cases hs
    cases hs'
    refine ⟨hsock, rfl, ?_, rfl⟩
    dsimp only
    rw [hsock]
  have hrelated : ∃ p, (gatherReads decode start').run ((List.range k).map wakes) = some p ∧
      Alike s p.1 ∧ reads = p.2 := by
    let R (p q : GatherState × List (ℕ × List Byte)) : Prop := Alike p.1 q.1 ∧ p.2 = q.2
    have hinit : R (start, []) (start', []) := ⟨halike, rfl⟩
    refine Machine.runFrom_related (R := R) ?_ hinit hrun
    intro p q wake p' hpq hp'
    obtain ⟨hstep, hrec⟩ := Machine.withHistory_step_eq_some.mp hp'
    obtain ⟨hloop, hpass⟩ := Option.ite_none_right_eq_some.mp hstep
    refine ⟨(pass decode q.1 wake, recordReads q.1 wake (pass decode q.1 wake) q.2), ?_, ?_, ?_⟩
    · apply Machine.withHistory_step_eq_some.mpr
      exact ⟨if_pos (hpq.1.looping_iff.mp hloop), rfl⟩
    · rw [← Option.some.inj hpass]
      exact hpq.1.pass wake
    · rw [hrec]
      unfold recordReads
      rw [hpq.2, hpq.1.fullReads_eq wake]
  obtain ⟨p, hp, halike, hreads⟩ := hrelated
  have hhalted : ∀ {u : GatherState} (e : List (ℕ × List Byte)), ¬ u.Looping →
      (gatherReads decode start').Halted (u, e) :=
    fun e hu => (halted_gatherLoop hu).withHistory e
  have hsame := Machine.eq_of_run_halted hp
    (hhalted p.2 (fun hl => hdone (halike.looping_iff.mpr hl))) hrun' (hhalted reads' hdone')
  rw [hreads, hsame]

theorem find?_of_nodup {r : ℕ × List Byte} (hd : (reads.map Prod.fst).Nodup) (hr : r ∈ reads) :
    reads.find? (fun q => q.1 = r.1) = some r := by
  induction reads with
  | nil => cases hr
  | cons q reads ih =>
    rw [List.map_cons, List.nodup_cons] at hd
    rcases List.mem_cons.mp hr with rfl | hr
    · exact List.find?_cons_of_pos (decide_eq_true rfl)
    · have hne : q.1 ≠ r.1 := fun he => hd.1 (he ▸ List.mem_map_of_mem hr)
      rw [List.find?_cons_of_neg (by simpa using hne)]
      exact ih hd.2 hr

/-- The value of the result taken from a socket. -/
def valueOf (decode : List Byte → ℚ) (reads : List (ℕ × List Byte)) (fd : ℕ) : ℚ :=
  (reads.find? fun r => r.1 = fd).elim 0 fun r => decode r.2

theorem Worker.result_after (reads : List (ℕ × List Byte)) (w : Worker) :
    (w.after decode reads).result =
      if w.socket ∈ reads.map Prod.fst then valueOf decode reads w.socket else w.result := by
  unfold Worker.after valueOf
  cases hfind : reads.find? fun r => r.1 = w.socket with
  | none =>
    have hno : w.socket ∉ reads.map Prod.fst := by
      intro hmem
      obtain ⟨r, hr, hfd⟩ := List.mem_map.mp hmem
      exact List.find?_eq_none.mp hfind r hr (decide_eq_true hfd)
    rw [if_neg hno]
  | some r =>
    have hfound := List.find?_some hfind
    have hfd : r.1 = w.socket := of_decide_eq_true hfound
    rw [if_pos (hfd ▸ List.mem_map_of_mem (List.mem_of_find?_eq_some hfind))]
    rfl

/-- The sum is what was taken and what the other workers' fields held. -/
theorem GatherTakes.sum_eq (h : GatherTakes decode workers conns wakes reads v)
    (hd : (workers.map Worker.socket).Nodup) :
    v = (reads.map fun r => decode r.2).sum +
      ((workers.filter fun w => w.socket ∉ reads.map Prod.fst).map Worker.result).sum := by
  obtain ⟨start, k, s, hstart, hrun, _, _, rfl⟩ := h
  have hinv := readsInv_of_run hd hstart hrun
  have hresults : s.workers.map Worker.result = workers.map fun w =>
      if w.socket ∈ reads.map Prod.fst then valueOf decode reads w.socket else w.result := by
    rw [hinv.workers, List.map_map]
    apply List.map_congr_left
    intro w _
    exact Worker.result_after reads w
  have hperm : ((workers.filter fun w => w.socket ∈ reads.map Prod.fst).map Worker.socket).Perm
      (reads.map Prod.fst) := by
    rw [List.perm_ext_iff_of_nodup ((List.filter_sublist.map _).nodup hd) hinv.nodup]
    intro fd
    rw [List.mem_map]
    constructor
    · rintro ⟨w, hw, rfl⟩
      exact of_decide_eq_true (List.mem_filter.mp hw).2
    · intro hfd
      obtain ⟨r, hr, hrfd⟩ := List.mem_map.mp hfd
      obtain ⟨w, hw, hwfd⟩ := List.mem_map.mp (hinv.mem r hr).1
      have hsock : w.socket = fd := hwfd.trans hrfd
      refine ⟨w, List.mem_filter.mpr ⟨hw, ?_⟩, hsock⟩
      rw [hsock]
      exact decide_eq_true hfd
  have htaken : ((workers.filter fun w => w.socket ∈ reads.map Prod.fst).map fun w =>
      valueOf decode reads w.socket).sum = (reads.map fun r => decode r.2).sum := by
    have hsum := (hperm.map (valueOf decode reads)).sum_eq
    rw [List.map_map, List.map_map] at hsum
    refine hsum.trans (congrArg List.sum (List.map_congr_left ?_))
    intro r hr
    unfold valueOf
    rw [Function.comp_apply, find?_of_nodup hinv.nodup hr]
    rfl
  rw [hresults, sum_ite_eq_add, htaken]

end Takes

/-- What the master meets: the connections it can make, the descriptors in use before, and what the
workers send and when. -/
structure Behaviour where
  connect : ℕ → Ip4 → Bool
  fds : FdTable Unit
  conns : ℕ → Conn
  wakes : ℕ → Wake

/-- The master takes the results `reads`, and `gather_results` returns `v`. -/
def MasterTakes (decode : List Byte → ℚ) (b : Behaviour) (ds : List Datagram) (memory : ℕ → Unset)
    (reads : List (ℕ × List Byte)) (v : ℚ) : Prop :=
  ∃ server, master b.connect b.fds memory ds = some server ∧
    GatherTakes decode server.workers b.conns b.wakes reads v

/-- The sockets of the workers that `ds` registers. -/
def workerSockets (b : Behaviour) (ds : List Datagram) : List ℕ :=
  b.fds.allocs () (ds.take maxWorkers).length

/-- What `newWorker` held in `result` for the workers without a result. -/
def leftover (b : Behaviour) (ds : List Datagram) (memory : ℕ → Unset)
    (reads : List (ℕ × List Byte)) : ℚ :=
  (((workerSockets b ds).zipIdx.filter fun p => p.1 ∉ reads.map Prod.fst).map fun p =>
    (memory p.2).newWorker.result).sum

section Master
variable {b : Behaviour} {ds : List Datagram} {memory : ℕ → Unset} {server : Server}

theorem master_workers (h : master b.connect b.fds memory ds = some server) :
    server.workers.map (fun w => (w.socket, w.result)) =
      (workerSockets b ds).zipIdx.map fun p => (p.1, (memory p.2).newWorker.result) := by
  obtain ⟨split, _, h⟩ := Option.bind_eq_some_iff.mp h
  obtain ⟨connected, hconnected, h⟩ := Option.bind_eq_some_iff.mp h
  obtain ⟨sent, _, h⟩ := Option.bind_eq_some_iff.mp h
  cases h
  have hworkers := connectAll_eq (establishConnections_eq hconnected)
  have hregistered := workers_rcvIpFromWorkers memory ds
  have hlen : (rcvIpFromWorkers memory ds).workers.length = (ds.take maxWorkers).length := by
    rw [hregistered, List.length_mapIdx]
  change (connected.workers.map Registered.toWorker).map (fun w => (w.socket, w.result)) = _
  rw [hworkers, hlen]
  apply List.ext_getElem?
  intro i
  unfold workerSockets
  rw [List.getElem?_map, List.getElem?_map, List.getElem?_zipWith, List.getElem?_map,
    List.getElem?_zipIdx, hregistered, List.getElem?_mapIdx]
  cases hd : (ds.take maxWorkers)[i]? with
  | none =>
    have hno : (b.fds.allocs () (ds.take maxWorkers).length)[i]? = none := by
      rw [List.getElem?_eq_none_iff, FdTable.length_allocs]
      exact List.getElem?_eq_none_iff.mp hd
    rw [hno]
    rfl
  | some d =>
    have hi : i < (b.fds.allocs () (ds.take maxWorkers).length).length := by
      rw [FdTable.length_allocs]
      exact (List.getElem?_eq_some_iff.mp hd).1
    rw [List.getElem?_eq_getElem hi, Nat.zero_add]
    rfl

theorem master_sockets (h : master b.connect b.fds memory ds = some server) :
    server.workers.map Worker.socket = workerSockets b ds := by
  have hfst := congrArg (List.map Prod.fst) (master_workers h)
  rw [List.map_map, List.map_map] at hfst
  exact hfst.trans (List.zipIdx_map_fst 0 _)

/-- The sum of a run: what was taken, and what was there before. -/
theorem MasterTakes.sum_eq {reads : List (ℕ × List Byte)} {v : ℚ}
    (h : MasterTakes decode b ds memory reads v) :
    v = (reads.map fun r => decode r.2).sum + leftover b ds memory reads := by
  obtain ⟨server, hserver, htakes⟩ := h
  have hd : (server.workers.map Worker.socket).Nodup := by
    rw [master_sockets hserver]
    exact FdTable.nodup_allocs _ _ _
  have hpairs := congrArg (fun l : List (ℕ × ℚ) =>
    ((l.filter fun p => p.1 ∉ reads.map Prod.fst).map Prod.snd).sum) (master_workers hserver)
  rw [List.filter_map, List.filter_map, List.map_map, List.map_map] at hpairs
  rw [htakes.sum_eq hd]
  exact congrArg _ hpairs

/-- Two runs with the same datagrams and the same workers take the same results. They return the
same sum, to which only these contribute, when the memory of `newWorker` added nothing. -/
theorem master_result_iff {memory' : ℕ → Unset} {reads reads' : List (ℕ × List Byte)} {v v' : ℚ}
    (h : MasterTakes decode b ds memory reads v)
    (h' : MasterTakes decode b ds memory' reads' v') :
    reads = reads' ∧ (v = v' ∧ v = (reads.map fun r => decode r.2).sum ↔
      leftover b ds memory reads = 0 ∧ leftover b ds memory' reads = 0) := by
  have hreads : reads = reads' := by
    obtain ⟨server, hserver, htakes⟩ := h
    obtain ⟨server', hserver', htakes'⟩ := h'
    apply htakes.reads_eq htakes'
    rw [master_sockets hserver, master_sockets hserver']
  subst hreads
  have hsum := h.sum_eq
  have hsum' := h'.sum_eq
  refine ⟨rfl, ?_⟩
  constructor
  · rintro ⟨hv, htaken⟩
    constructor <;> linarith
  · rintro ⟨hzero, hzero'⟩
    constructor <;> linarith

end Master

/-- A worker that closes its connection without an answer. -/
def silent : Behaviour where
  connect := fun _ _ => true
  fds := .empty
  conns := quiet
  wakes := fun k => if k = 0 then .arrivals [(0, .close)] else .arrivals []

def eightCores : Datagram := ⟨⟨192, 168, 109, 5⟩, ascii "8"⟩

/-- A `newWorker` that holds `q` in `result`. -/
def holding (q : ℚ) : Unset :=
  { zeroed with newWorker := { zeroed.newWorker with result := q } }

/-- The master sums up what `newWorker` held. -/
theorem silent_takes (q : ℚ) :
    MasterTakes firstByte silent [eightCores] (fun _ => holding q) [] q := by
  have hsafe : ∃ numOfCores, IndexSafe
      ((rcvIpFromWorkers (fun _ => holding q) [eightCores]).server []).workers numOfCores := by
    rw [indexSafe_iff_cores, map_numOfCores]
    decide +kernel
  have hconnect : ∀ d ∈ [eightCores], (∃ o ∈ d.source.octets, o.toNat < 100) ∧
      ∀ fd, silent.connect fd d.source = true := by
    intro d hd
    rw [List.mem_singleton.mp hd]
    exact ⟨by decide, fun _ => rfl⟩
  obtain ⟨server, hserver⟩ := exists_master_of_short hsafe hconnect silent.fds
  have hpairs := master_workers (b := silent) hserver
  obtain ⟨w, hw, hpair⟩ := List.map_eq_singleton_iff.mp hpairs
  obtain ⟨hsocket, hresult⟩ := Prod.mk.inj hpair
  refine ⟨server, hserver, ?_⟩
  rw [hw]
  obtain ⟨cores, socket, result⟩ := w
  cases hsocket
  cases hresult
  refine ⟨_, 2, _, rfl, rfl, ?_, ?_, ?_⟩
  · intro h
    have hphase : LoopPhase.timedOut = .running := h.1
    cases hphase
  · change LoopPhase.timedOut ≠ .exited
    decide
  · change [q].sum = q
    exact List.sum_singleton

theorem silent_runs :
    ([] : List (ℕ × List Byte)) = [] ∧ ((1 : ℚ) = 0 ∧ (1 : ℚ) = 0 ↔
      leftover silent [eightCores] (fun _ => holding 1) [] = 0 ∧
        leftover silent [eightCores] (fun _ => holding 0) [] = 0) :=
  master_result_iff (silent_takes 1) (silent_takes 0)

/-- Two runs that received nothing return 1 and 0. -/
theorem silent_runs_differ :
    ∃ v v', MasterTakes firstByte silent [eightCores] (fun _ => holding 1) [] v ∧
      MasterTakes firstByte silent [eightCores] (fun _ => holding 0) [] v' ∧ v ≠ v' :=
  ⟨1, 0, silent_takes 1, silent_takes 0, one_ne_zero⟩

end OsTasks.Integral
