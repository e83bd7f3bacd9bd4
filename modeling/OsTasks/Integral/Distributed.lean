import OsTasks.Integral.Load
import OsTasks.Integral.MasterResult
import OsTasks.Integral.Redraw
import OsTasks.Integral.Shares
import OsTasks.Integral.Streams
import OsTasks.Lib.LittleEndian

/-! The master of task_8 and its workers together: from the datagrams that register the workers to
the sum that `main` prints. -/
namespace OsTasks.Integral
open OsTasks.Lib

/-- The worker that is sent `task` draws `samples`, and its `monte_carlo` returns `v`. -/
def WorkerEstimates (task : Task) (samples : List Sample) (v : ℚ) : Prop :=
  ∃ t as s, workerDecodes task = some t ∧ (monteCarlo t maxCores).run as = some (s, samples) ∧
    s.Returned maxCores ∧ s.shared.resSquare = some v

/-- By the socket that connects to it: what a worker draws, returns and writes. -/
structure Workers where
  samples : ℕ → List Sample
  result : ℕ → ℚ
  written : ℕ → List Byte

/-- A run of the master and of all its workers. A worker writes nothing or the eight bytes of its
result; they arrive in any segments, at any time or not at all. -/
structure DistributedRun (decode : List Byte → ℚ) (b : Behaviour) (ds : List Datagram)
    (memory : ℕ → Unset) (sent : List (ℕ × Task)) (ws : Workers) : Prop where
  sends : (master b.connect b.fds memory ds).bind sendTask = some sent
  quiet : ∀ fd, (b.conns fd).buffered = []
  works : ∀ p ∈ sent, ws.written p.1 = [] ∨
    WorkerEstimates p.2 (ws.samples p.1) (ws.result p.1) ∧
      (ws.written p.1).length = sizeofDouble ∧ decode (ws.written p.1) = ws.result p.1
  arrives : ∀ p ∈ sent, ∀ k,
    ((List.range k).map b.wakes).flatMap (Wake.dataOn p.1) <+: ws.written p.1

section Worker
variable {task : Task} {samples : List Sample} {v : ℚ}

/-- What a worker returns is its area times the share of its points that hit. -/
theorem WorkerEstimates.spec (h : WorkerEstimates task samples v)
    (hx : rounded task.x1 ≤ rounded task.x2) (hy : rounded task.y1 ≤ rounded task.y2)
    (hpoints : 0 ≤ task.numOrPoints.val) :
    (∀ q ∈ samples, (rounded task.x1 ≤ q.x ∧ q.x ≤ rounded task.x2) ∧
        rounded task.y1 ≤ q.y ∧ q.y ≤ rounded task.y2) ∧
      v = (rounded task.x2 - rounded task.x1) * (rounded task.y2 - rounded task.y1) *
        samples.countP (fun q => q.Hit) / samples.length ∧
      0 ≤ v ∧ v ≤ (rounded task.x2 - rounded task.x1) * (rounded task.y2 - rounded task.y1) := by
  obtain ⟨t, as, s, ht, hrun, hret, hv⟩ := h
  obtain rfl : task.decoded = t :=
    Option.some.inj ((sscanfTask_printOneTask task []).symm.trans ht)
  have hshare : 0 ≤ task.numOrPoints.val / (maxCores : ℕ) := Int.ediv_nonneg hpoints (by decide)
  have hp : task.decoded.numOfPoints.val / (maxCores : ℕ) =
      ((task.numOrPoints.val / (maxCores : ℕ)).toNat : ℤ) := (Int.toNat_of_nonneg hshare).symm
  set p := (task.numOrPoints.val / (maxCores : ℕ)).toNat
  have htrunc : truncate (task.decoded.numOfPoints.val / (maxCores : ℕ)) = p := by
    rw [truncate_intCast_div (z := task.decoded.numOfPoints.val) hpoints, hp]
  have h1 : 1 ≤ p := by
    have hnone := (returned_of_run (by decide) hpoints hp hrun hret).2
    by_contra hzero
    have hnan := hnone.mpr (by omega)
    rw [hv] at hnan
    cases hnan
  obtain ⟨hinv, _⟩ := mcInv_of_run htrunc hrun
  obtain ⟨hstored, hdrawn, hthread⟩ := hinv.returned hret
  have hlen : samples.length = maxCores * p := length_of_drawn hdrawn hthread
  have hsum := hinv.sum
  unfold storedSum at hsum
  rw [if_neg (fun h => by omega), hstored, sum_contribution (by decide) h1 hthread, hv] at hsum
  have hvalue : v = (rounded task.x2 - rounded task.x1) * (rounded task.y2 - rounded task.y1) *
      samples.countP (fun q => q.Hit) / samples.length := by
    rw [hlen, Nat.cast_mul]
    exact Option.some.inj hsum
  have harea : 0 ≤ (rounded task.x2 - rounded task.x1) * (rounded task.y2 - rounded task.y1) :=
    mul_nonneg (sub_nonneg.mpr hx) (sub_nonneg.mpr hy)
  have hhits : (samples.countP (fun q => q.Hit) : ℚ) ≤ samples.length := by
    exact_mod_cast List.countP_le_length
  have hpos : (0 : ℚ) < samples.length := by
    have hnat : 0 < maxCores * p := Nat.mul_pos (by decide) h1
    rw [← hlen] at hnat
    exact_mod_cast hnat
  have hx' : task.decoded.x1 ≤ task.decoded.x2 := hx
  have hy' : task.decoded.y1 ≤ task.decoded.y2 := hy
  refine ⟨?_, hvalue, ?_, ?_⟩
  · intro q hq
    obtain ⟨⟨hleft, hright⟩, hvert⟩ := inSlab_of_run hx' hy' hrun q hq
    obtain ⟨hlow, _, hhigh⟩ := threadArgs_mem hx' (hthread q hq)
    exact ⟨⟨hlow.trans hleft, hright.trans hhigh⟩, hvert⟩
  · rw [hvalue]
    exact div_nonneg (mul_nonneg harea (Nat.cast_nonneg _)) hpos.le
  · rw [hvalue, div_le_iff₀ hpos]
    exact mul_le_mul_of_nonneg_left hhits harea

end Worker

section Master
variable {decode : List Byte → ℚ} {b : Behaviour} {ds : List Datagram} {memory : ℕ → Unset}
  {server : Server}

theorem master_cores (h : master b.connect b.fds memory ds = some server) :
    server.workers.map Worker.numOfCores = (ds.take maxWorkers).map fun d => atoi d.buffer := by
  obtain ⟨split, _, h⟩ := Option.bind_eq_some_iff.mp h
  obtain ⟨connected, hconnected, h⟩ := Option.bind_eq_some_iff.mp h
  obtain ⟨_, _, h⟩ := Option.bind_eq_some_iff.mp h
  obtain rfl : connected.server split.tasks = server := Option.some.inj h
  have hmap := map_numOfCores_connectAll (establishConnections_eq hconnected)
  rw [← map_numOfCores memory ds []]
  change (connected.workers.map Registered.toWorker).map Worker.numOfCores =
    ((rcvIpFromWorkers memory ds).workers.map Registered.toWorker).map Worker.numOfCores
  rw [List.map_map, List.map_map]
  exact hmap

theorem master_sends (h : master b.connect b.fds memory ds = some server) :
    ∃ sent, sendTask server = some sent := by
  obtain ⟨_, _, h⟩ := Option.bind_eq_some_iff.mp h
  obtain ⟨_, _, h⟩ := Option.bind_eq_some_iff.mp h
  obtain ⟨sent, hsent, h⟩ := Option.bind_eq_some_iff.mp h
  cases h
  exact ⟨sent, hsent⟩

/-- Split again, the main task falls into the same parts. -/
theorem master_split (h : master b.connect b.fds memory ds = some server) :
    splitTasks server mainTask = some server := by
  have hcores : server.workers.map Worker.numOfCores =
      ((rcvIpFromWorkers memory ds).server []).workers.map Worker.numOfCores :=
    (master_cores h).trans (map_numOfCores memory ds []).symm
  obtain ⟨split, hsplit, h⟩ := Option.bind_eq_some_iff.mp h
  obtain ⟨connected, _, h⟩ := Option.bind_eq_some_iff.mp h
  obtain ⟨_, _, h⟩ := Option.bind_eq_some_iff.mp h
  have htasks : server.tasks = split.tasks := by
    cases h
    rfl
  have hcongr := splitTasks_congr mainTask hcores
  rw [hsplit] at hcongr
  obtain ⟨again, hagain, hsame⟩ := Option.map_eq_some_iff.mp hcongr
  rw [hagain]
  obtain ⟨n, _, hagain⟩ := Option.bind_eq_some_iff.mp hagain
  obtain ⟨tasks, _, hagain⟩ := Option.bind_eq_some_iff.mp hagain
  cases hagain
  have hall : tasks = server.tasks := hsame.trans htasks.symm
  rw [hall]

/-- The tasks that the master sends: they go to its workers' sockets, and each is a slab of the main
task. -/
theorem master_sent {sent : List (ℕ × Task)} (h : master b.connect b.fds memory ds = some server)
    (hsent : sendTask server = some sent) (hn : server.workers ≠ []) :
    (∀ w ∈ server.workers, 1 ≤ w.numOfCores.val) ∧
      List.Forall₂ (fun w p => p.1 = w.socket ∧
        SlabOf mainTask (coreSum server.workers) w.numOfCores.val p.2) server.workers sent := by
  have hc : ∀ w ∈ server.workers, 1 ≤ w.numOfCores.val := by
    intro w hw
    have hmem : ((workerTask server.tasks 0 w).bind fun task => some (w.socket, task)) ∈
        sent.map some := by
      rw [← map_of_mapM hsent]
      exact List.mem_map_of_mem hw
    obtain ⟨p, _, hp⟩ := List.mem_map.mp hmem
    obtain ⟨task, htask, _⟩ := Option.bind_eq_some_iff.mp hp.symm
    have hlast := (taskIndices_of_workerTask htask (0 + w.numOfCores.val - 1)
      (List.mem_cons_of_mem _ List.mem_cons_self)).1
    omega
  have hsplit := master_split h
  have hsum : coreSum server.workers < 2 ^ 31 := by
    by_contra hlarge
    cases (splitTasks_eq_none mainTask hc (not_lt.mp hlarge)).symm.trans hsplit
  obtain ⟨sent', hsent', hslabs⟩ := exists_sendTask mainTask hn hc hsum
  rw [hsplit, Option.bind_some, hsent] at hsent'
  obtain rfl : sent = sent' := Option.some.inj hsent'
  exact ⟨hc, hslabs⟩

/-- The tasks whose results the master takes. -/
def takenFrom (sent : List (ℕ × Task)) (reads : List (ℕ × List Byte)) : List (ℕ × Task) :=
  sent.filter fun p => p.1 ∈ reads.map Prod.fst

theorem SlabOf.main_rounded {total cores : ℤ} {t : Task} (h : SlabOf mainTask total cores t) :
    rounded t.x1 = 0 ∧ rounded t.y1 = 0 ∧ rounded t.y2 = 3 := by
  have hzero : rounded 0 = 0 := @rounded_eq_self 0 0 (by norm_num)
  have hthree : rounded 3 = 3 := @rounded_eq_self 3 3000000 (by norm_num)
  rw [h.x1, h.y1, h.y2]
  exact ⟨hzero, hzero, hthree⟩

theorem SlabOf.main_right {total cores : ℤ} {t : Task} (h : SlabOf mainTask total cores t) :
    t.x2 = 3 * cores / total := by
  rw [h.x2]
  change (3 - 0 : ℚ) / total * cores + 0 = 3 * cores / total
  ring

theorem SlabOf.main_nonneg {total cores : ℤ} {t : Task} (h : SlabOf mainTask total cores t)
    (htotal : 0 < total) (hcores : 1 ≤ cores) : 0 ≤ rounded t.x2 ∧ 0 ≤ t.numOrPoints.val := by
  constructor
  · have hnum : (0 : ℚ) ≤ cores := by exact_mod_cast zero_le_one.trans hcores
    have hden : (0 : ℚ) ≤ total := by exact_mod_cast htotal.le
    apply rounded_nonneg
    rw [h.main_right]
    positivity
  · rw [h.points (by decide)]
    exact mul_nonneg (Int.ediv_nonneg (by decide) htotal.le) (zero_le_one.trans hcores)

/-- What a worker makes of a task of the master. -/
theorem WorkerEstimates.main {total cores : ℤ} {t : Task} {samples : List Sample} {q : ℚ}
    (h : WorkerEstimates t samples q) (hslab : SlabOf mainTask total cores t) (htotal : 0 < total)
    (hcores : 1 ≤ cores) :
    (∀ s ∈ samples, (0 ≤ s.x ∧ s.x ≤ rounded t.x2) ∧ 0 ≤ s.y ∧ s.y ≤ 3) ∧
      q = rounded t.x2 * 3 * samples.countP (fun s => s.Hit) / samples.length ∧
      0 ≤ q ∧ q ≤ rounded t.x2 * 3 := by
  obtain ⟨hx1, hy1, hy2⟩ := hslab.main_rounded
  obtain ⟨hright, hpoints⟩ := hslab.main_nonneg htotal hcores
  have hwidth : rounded t.x1 ≤ rounded t.x2 := by
    rw [hx1]
    exact hright
  have hheight : rounded t.y1 ≤ rounded t.y2 := by
    rw [hy1, hy2]
    norm_num
  have hall := h.spec hwidth hheight hpoints
  rw [hx1, hy1, hy2, sub_zero, sub_zero] at hall
  exact hall

/-- Each worker has the task of its cores. -/
structure Assigned (workers : List Worker) (sent : List (ℕ × Task)) : Prop where
  ne_nil : workers ≠ []
  cores : ∀ w ∈ workers, 1 ≤ w.numOfCores.val
  slabs : List.Forall₂ (fun w p => p.1 = w.socket ∧
    SlabOf mainTask (coreSum workers) w.numOfCores.val p.2) workers sent

section Assigned
variable {workers : List Worker} {sent : List (ℕ × Task)}

theorem Assigned.pos (h : Assigned workers sent) : 0 < coreSum workers :=
  coreSum_pos h.ne_nil h.cores

theorem Assigned.fds (h : Assigned workers sent) :
    sent.map Prod.fst = workers.map Worker.socket :=
  map_of_forall₂ (h.slabs.imp fun _ _ hp => hp.1)

theorem Assigned.slab (h : Assigned workers sent) {p : ℕ × Task} (hp : p ∈ sent) :
    ∃ cores, 1 ≤ cores ∧ SlabOf mainTask (coreSum workers) cores p.2 := by
  obtain ⟨w, hw, _, hslab⟩ := exists_of_forall₂ h.slabs hp
  exact ⟨_, h.cores w hw, hslab⟩

theorem Assigned.sum_areas_le (h : Assigned workers sent) :
    (sent.map fun p => rounded p.2.x2 * 3).sum ≤ 9 + 3 / 2000000 * sent.length := by
  have hright : sent.map (fun p => p.2.x2) =
      workers.map fun w => (3 : ℚ) * w.numOfCores.val / coreSum workers :=
    map_of_forall₂ (h.slabs.imp fun _ _ hp => hp.2.main_right)
  have hwidth : (sent.map fun p => p.2.x2).sum = 3 := by
    rw [hright]
    exact sum_widths h.pos 3
  have hround : ∀ p ∈ sent, rounded p.2.x2 * 3 ≤ 3 * p.2.x2 + 3 / 2000000 := by
    intro p _
    have herr := abs_le.mp (abs_rounded_sub_le p.2.x2)
    linarith
  calc (sent.map fun p => rounded p.2.x2 * 3).sum
      ≤ (sent.map fun p => 3 * p.2.x2 + 3 / 2000000).sum := List.sum_le_sum hround
    _ = 3 * (sent.map fun p => p.2.x2).sum + sent.length * (3 / 2000000) := by
        rw [List.sum_map_add, List.sum_map_mul_left, List.map_const', List.sum_replicate,
          nsmul_eq_mul]
    _ = 9 + 3 / 2000000 * sent.length := by
        rw [hwidth]
        ring

theorem Assigned.sum_taken_le (h : Assigned workers sent) {reads : List (ℕ × List Byte)}
    {result : ℕ → ℚ} (hle : ∀ p ∈ takenFrom sent reads, result p.1 ≤ rounded p.2.x2 * 3) :
    ((takenFrom sent reads).map fun p => result p.1).sum ≤ 9 + 3 / 2000000 * sent.length := by
  have hareas : ∀ a ∈ sent.map fun p => rounded p.2.x2 * 3, 0 ≤ a := by
    intro a ha
    obtain ⟨p, hp, rfl⟩ := List.mem_map.mp ha
    obtain ⟨cores, hcores, hslab⟩ := h.slab hp
    exact mul_nonneg (hslab.main_nonneg h.pos hcores).1 (by norm_num)
  calc ((takenFrom sent reads).map fun p => result p.1).sum
      ≤ ((takenFrom sent reads).map fun p => rounded p.2.x2 * 3).sum := List.sum_le_sum hle
    _ ≤ (sent.map fun p => rounded p.2.x2 * 3).sum :=
        (List.filter_sublist.map _).sum_le_sum hareas
    _ ≤ 9 + 3 / 2000000 * sent.length := h.sum_areas_le

theorem Assigned.perm_taken (h : Assigned workers sent) {reads : List (ℕ × List Byte)}
    (hd : (workers.map Worker.socket).Nodup) (hnodup : (reads.map Prod.fst).Nodup)
    (hmem : ∀ r ∈ reads, ∃ p ∈ sent, r.1 = p.1) :
    (reads.map Prod.fst).Perm ((takenFrom sent reads).map Prod.fst) := by
  have htaken : ((takenFrom sent reads).map Prod.fst).Nodup :=
    (List.filter_sublist.map Prod.fst).nodup (h.fds ▸ hd)
  rw [List.perm_ext_iff_of_nodup hnodup htaken]
  intro fd
  constructor
  · intro hfd
    obtain ⟨r, hr, rfl⟩ := List.mem_map.mp hfd
    obtain ⟨p, hp, hpr⟩ := hmem r hr
    rw [hpr] at hfd ⊢
    exact List.mem_map_of_mem (List.mem_filter.mpr ⟨hp, decide_eq_true hfd⟩)
  · intro hfd
    obtain ⟨p, hp, rfl⟩ := List.mem_map.mp hfd
    exact of_decide_eq_true (List.mem_filter.mp hp).2

end Assigned

section Run
variable {sent : List (ℕ × Task)} {ws : Workers} {v : ℚ} {reads : List (ℕ × List Byte)}

theorem DistributedRun.assigned (h : DistributedRun decode b ds memory sent ws)
    (hserver : master b.connect b.fds memory ds = some server)
    (htakes : GatherTakes decode server.workers b.conns b.wakes reads v) :
    Assigned server.workers sent := by
  have hn : server.workers ≠ [] := by
    obtain ⟨start, _, _, hstart, _⟩ := htakes
    intro hnil
    rw [hnil] at hstart
    cases hstart
  have hsent : sendTask server = some sent := by
    have hsends := h.sends
    rw [hserver] at hsends
    exact hsends
  obtain ⟨hc, hslabs⟩ := master_sent hserver hsent hn
  exact ⟨hn, hc, hslabs⟩

/-- What is taken from a socket is all that its worker wrote. -/
theorem DistributedRun.read_eq (h : DistributedRun decode b ds memory sent ws)
    (hserver : master b.connect b.fds memory ds = some server)
    (htakes : GatherTakes decode server.workers b.conns b.wakes reads v) {p : ℕ × Task}
    (hp : p ∈ sent) {r : ℕ × List Byte} (hr : r ∈ reads) (hfd : r.1 = p.1) :
    WorkerEstimates p.2 (ws.samples p.1) (ws.result p.1) ∧ r.2 = ws.written p.1 ∧
      decode r.2 = ws.result p.1 := by
  have hd : (server.workers.map Worker.socket).Nodup := by
    rw [master_sockets hserver]
    exact FdTable.nodup_allocs _ _ _
  obtain ⟨start, k, s, hstart, hrun, _⟩ := htakes
  have h8 := ((readsInv_of_run hd hstart hrun).mem r hr).2.1
  have hconns : start.gather.conns = b.conns := by
    obtain ⟨maxfd, _, hs⟩ := Option.bind_eq_some_iff.mp hstart
    cases hs
    rfl
  have hbuffered : (start.gather.conns p.1).buffered <:+ [] := by
    rw [hconns, h.quiet]
  have hpiece : r.2 <:+: ws.written p.1 := reads_infix hrun hbuffered (h.arrives p hp k)
    (fun _ hq => absurd hq List.not_mem_nil) r hr hfd
  rcases h.works p hp with hsilent | ⟨hest, hlen, hdecode⟩
  · rw [hsilent, List.infix_nil] at hpiece
    rw [hpiece] at h8
    cases h8
  · have hall : r.2 = ws.written p.1 := hpiece.eq_of_length (h8.trans hlen.symm)
    exact ⟨hest, hall, hall ▸ hdecode⟩

/-- The results are taken from different sockets, each that of a worker with a task. -/
theorem DistributedRun.reads_sent (h : DistributedRun decode b ds memory sent ws)
    (hserver : master b.connect b.fds memory ds = some server)
    (htakes : GatherTakes decode server.workers b.conns b.wakes reads v) :
    (reads.map Prod.fst).Nodup ∧ ∀ r ∈ reads, ∃ p ∈ sent, r.1 = p.1 := by
  have hassigned := h.assigned hserver htakes
  have hd : (server.workers.map Worker.socket).Nodup := by
    rw [master_sockets hserver]
    exact FdTable.nodup_allocs _ _ _
  obtain ⟨start, k, s, hstart, hrun, _⟩ := htakes
  have hreads := readsInv_of_run hd hstart hrun
  refine ⟨hreads.nodup, fun r hr => ?_⟩
  have hfd := (hreads.mem r hr).1
  rw [← hassigned.fds] at hfd
  obtain ⟨p, hp, hpr⟩ := List.mem_map.mp hfd
  exact ⟨p, hp, hpr.symm⟩

theorem DistributedRun.sum_reads (h : DistributedRun decode b ds memory sent ws)
    (hserver : master b.connect b.fds memory ds = some server)
    (htakes : GatherTakes decode server.workers b.conns b.wakes reads v) :
    (reads.map fun r => decode r.2).sum =
      ((takenFrom sent reads).map fun p => ws.result p.1).sum := by
  have hassigned := h.assigned hserver htakes
  have hd : (server.workers.map Worker.socket).Nodup := by
    rw [master_sockets hserver]
    exact FdTable.nodup_allocs _ _ _
  obtain ⟨hnodup, hmem⟩ := h.reads_sent hserver htakes
  have hdecoded : reads.map (fun r => decode r.2) = (reads.map Prod.fst).map ws.result := by
    rw [List.map_map]
    apply List.map_congr_left
    intro r hr
    obtain ⟨p, hp, hpr⟩ := hmem r hr
    have hresult := (h.read_eq hserver htakes hp hr hpr).2.2
    rw [hresult, ← hpr]
    rfl
  have hperm := (hassigned.perm_taken hd hnodup hmem).map ws.result
  rw [hdecoded, hperm.sum_eq, List.map_map]
  rfl

/-- Each result that is taken is all that its worker wrote. The sum that `main` prints: of each of
these workers its own area times the share of its own points that hit, and of the others what
`newWorker` held. -/
theorem final_result (h : DistributedRun decode b ds memory sent ws)
    (htakes : MasterTakes decode b ds memory reads v) :
    (∀ r ∈ reads, ∃ p ∈ sent, r.1 = p.1 ∧ r.2 = ws.written p.1) ∧
      (∀ p ∈ takenFrom sent reads, WorkerEstimates p.2 (ws.samples p.1) (ws.result p.1) ∧
        (∀ q ∈ ws.samples p.1, (0 ≤ q.x ∧ q.x ≤ rounded p.2.x2) ∧ 0 ≤ q.y ∧ q.y ≤ 3) ∧
        ws.result p.1 = rounded p.2.x2 * 3 * (ws.samples p.1).countP (fun q => q.Hit) /
          (ws.samples p.1).length) ∧
      v = ((takenFrom sent reads).map fun p => ws.result p.1).sum + leftover b ds memory reads ∧
      0 ≤ ((takenFrom sent reads).map fun p => ws.result p.1).sum ∧
      ((takenFrom sent reads).map fun p => ws.result p.1).sum ≤ 9 + 3 / 2000000 * sent.length := by
  have hsum := htakes.sum_eq
  obtain ⟨server, hserver, hgather⟩ := htakes
  have hassigned := h.assigned hserver hgather
  have hest : ∀ p ∈ takenFrom sent reads,
      WorkerEstimates p.2 (ws.samples p.1) (ws.result p.1) := by
    intro p hp
    obtain ⟨hp, htaken⟩ := List.mem_filter.mp hp
    obtain ⟨r, hr, hfd⟩ := List.mem_map.mp (of_decide_eq_true htaken)
    exact (h.read_eq hserver hgather hp hr hfd).1
  have hmain : ∀ p ∈ takenFrom sent reads,
      (∀ q ∈ ws.samples p.1, (0 ≤ q.x ∧ q.x ≤ rounded p.2.x2) ∧ 0 ≤ q.y ∧ q.y ≤ 3) ∧
        ws.result p.1 = rounded p.2.x2 * 3 * (ws.samples p.1).countP (fun q => q.Hit) /
          (ws.samples p.1).length ∧
        0 ≤ ws.result p.1 ∧ ws.result p.1 ≤ rounded p.2.x2 * 3 := by
    intro p hp
    obtain ⟨cores, hcores, hslab⟩ := hassigned.slab (List.mem_filter.mp hp).1
    exact (hest p hp).main hslab hassigned.pos hcores
  rw [h.sum_reads hserver hgather] at hsum
  refine ⟨?_, ?_, hsum, ?_, hassigned.sum_taken_le fun p hp => (hmain p hp).2.2.2⟩
  · intro r hr
    obtain ⟨p, hp, hfd⟩ := (h.reads_sent hserver hgather).2 r hr
    exact ⟨p, hp, hfd, (h.read_eq hserver hgather hp hr hfd).2.1⟩
  · intro p hp
    obtain ⟨hpoints, hresult, _⟩ := hmain p hp
    exact ⟨hest p hp, hpoints, hresult⟩
  · apply List.sum_nonneg
    intro q hq
    obtain ⟨p, hp, rfl⟩ := List.mem_map.mp hq
    exact (hmain p hp).2.2.1

end Run

end Master

/-- The value of eight bytes that hold a normal `double`. -/
def doubleOf (l : List Byte) : ℚ :=
  let bits := ofLittleEndian l
  (if bits < 2 ^ 63 then 1 else -1) * (1 + (bits % 2 ^ 52 : ℕ) / 2 ^ 52) *
    2 ^ (((bits / 2 ^ 52 % 2 ^ 11 : ℕ) : ℤ) - 1023)

/-- The bytes of 2.625. -/
def narrowBytes : List Byte := [0, 0, 0, 0, 0, 0, 0x05, 0x40]

/-- The bytes of 5.25. -/
def wideBytes : List Byte := [0, 0, 0, 0, 0, 0, 0x15, 0x40]

theorem doubleOf_narrowBytes : doubleOf narrowBytes = 21 / 8 := by decide +kernel

theorem doubleOf_wideBytes : doubleOf wideBytes = 21 / 4 := by decide +kernel

/-- Where `rand_r` gives nothing but 0, the threads draw the lower left corners of their slabs, and
all but the first hit. -/
theorem exists_corner_run {t : WorkerTask} {right : ℚ} {p : ℕ} (hright : 0 < right) (h1 : 1 ≤ p)
    (h31 : p < 2 ^ 31) (hx1 : t.x1 = 0) (hx2 : t.x2 = right) (hy1 : t.y1 = 0) (hy2 : t.y2 = 3)
    (hpoints : t.numOfPoints.val = (maxCores : ℕ) * p) :
    ∃ as s samples, (monteCarlo t maxCores).run as = some (s, samples) ∧ s.Returned maxCores ∧
      s.shared.resSquare = some (right * 21 / 8) := by
  have hnonneg : 0 ≤ t.numOfPoints.val := by
    rw [hpoints]
    positivity
  have hp : t.numOfPoints.val / (maxCores : ℕ) = p := by
    rw [hpoints]
    exact Int.mul_ediv_cancel_left _ (by decide)
  have htrunc : truncate (t.numOfPoints.val / (maxCores : ℕ)) = p := by
    rw [truncate_intCast_div hnonneg, hp]
  obtain ⟨as, s, samples, hrun, hret⟩ := exists_returned_run hnonneg hp h31
  have hlength : (List.replicate (drawers as).length ((0, 0) : Draw)).length =
      (drawers as).length := List.length_replicate
  obtain ⟨s', samples', hrun', hret', hsamples, hdrawn, hthread, hvalue⟩ :=
    redraw_returned (by decide) htrunc h1 hrun hret hlength
  refine ⟨_, s', samples', hrun', hret', ?_⟩
  have hcorner : ∀ q ∈ samples', q.Hit ↔ ¬ q.thread = 0 := by
    intro q hq
    rw [hsamples, List.mem_reverse, ← List.map_uncurry_zip_eq_zipWith] at hq
    obtain ⟨⟨k, d⟩, hmem, rfl⟩ := List.mem_map.mp hq
    obtain rfl : d = (0, 0) := List.eq_of_mem_replicate (List.of_mem_zip hmem).2
    have hpoint : ∀ lo hi : ℚ, sampled lo hi ((0 : Fin (randMax + 1)) : ℕ) = lo := by
      intro lo hi
      unfold sampled
      rw [Fin.val_zero, Nat.cast_zero, zero_div, zero_mul, add_zero]
    have hx : (threadArgs t maxCores k).x1 = right / 8 * k := by
      unfold threadArgs maxCores
      rw [hx1, hx2]
      push_cast
      ring
    have hy : (threadArgs t maxCores k).y1 = 0 := hy1
    have hwidth : 0 < right / 8 := by linarith
    change sampled (threadArgs t maxCores k).y1 (threadArgs t maxCores k).y2 _ <
      sampled (threadArgs t maxCores k).x1 (threadArgs t maxCores k).x2 _ ↔ ¬ k = 0
    rw [hpoint, hpoint, hx, hy, mul_pos_iff_of_pos_left hwidth, Nat.cast_pos,
      Nat.pos_iff_ne_zero]
  have hlen : samples'.length = maxCores * p := length_of_drawn hdrawn hthread
  have hfirst : samples'.countP (fun q => q.thread = 0) = p := hdrawn 0 (by decide)
  have hhits : samples'.countP (fun q => q.Hit) = 7 * p := by
    have hsplit : samples'.length = _ :=
      List.length_eq_countP_add_countP fun q : Sample => decide (q.thread = 0)
    have hrest : samples'.countP (fun q => q.Hit) =
        samples'.countP fun q => decide (¬ decide (q.thread = 0) = true) := by
      apply List.countP_congr
      intro q hq
      simp only [decide_eq_true_eq]
      exact hcorner q hq
    rw [hlen, hfirst, ← hrest] at hsplit
    change 8 * p = _ at hsplit
    omega
  have hpos : (0 : ℚ) < p := by exact_mod_cast h1
  rw [hvalue, hhits, hx1, hx2, hy1, hy2]
  congr 1
  unfold maxCores
  push_cast
  field_simp
  ring

def sixteenCores : Datagram := ⟨⟨192, 168, 109, 6⟩, ascii "16"⟩

/-- Two workers: the result of the first arrives in two segments, that of the second before it. -/
def twoAnswers : Behaviour where
  connect := fun _ _ => true
  fds := .empty
  conns := quiet
  wakes := fun k =>
    if k = 0 then
      .arrivals [(1, .segment wideBytes), (0, .segment (narrowBytes.take 3)),
        (0, .segment (narrowBytes.drop 3)), (0, .close)]
    else .arrivals []

def twoReads : List (ℕ × List Byte) := [(0, narrowBytes), (1, wideBytes)]

theorem exists_twoAnswers_master :
    ∃ server, master twoAnswers.connect twoAnswers.fds (fun _ => zeroed)
        [eightCores, sixteenCores] = some server ∧
      server.workers = [⟨⟨8, by decide, by decide⟩, 0, 0⟩, ⟨⟨16, by decide, by decide⟩, 1, 0⟩] := by
  have hsafe : ∃ numOfCores, IndexSafe
      ((rcvIpFromWorkers (fun _ => zeroed) [eightCores, sixteenCores]).server []).workers
        numOfCores := by
    rw [indexSafe_iff_cores, map_numOfCores]
    decide +kernel
  have hshort : ∀ d ∈ [eightCores, sixteenCores], ∃ o ∈ d.source.octets, o.toNat < 100 := by
    decide
  have hconnect : ∀ d ∈ [eightCores, sixteenCores], (∃ o ∈ d.source.octets, o.toNat < 100) ∧
      ∀ fd, twoAnswers.connect fd d.source = true := by
    intro d hd
    exact ⟨hshort d hd, fun _ => rfl⟩
  obtain ⟨server, hserver⟩ := exists_master_of_short hsafe hconnect twoAnswers.fds
  refine ⟨server, hserver, ?_⟩
  have hcores := master_cores (b := twoAnswers) hserver
  have hpairs := master_workers (b := twoAnswers) hserver
  obtain ⟨v, vs, hworkers, hv, hvs⟩ := List.map_eq_cons_iff.mp hpairs
  obtain ⟨w, rfl, hw⟩ := List.map_eq_singleton_iff.mp hvs
  rw [hworkers] at hcores ⊢
  obtain ⟨hvcores, hwcores⟩ := List.cons.inj hcores
  have height : atoi eightCores.buffer = ⟨8, by decide, by decide⟩ := by decide +kernel
  have hsixteen : atoi sixteenCores.buffer = ⟨16, by decide, by decide⟩ := by decide +kernel
  obtain ⟨cores, socket, result⟩ := v
  obtain ⟨cores', socket', result'⟩ := w
  cases hv
  cases hw
  cases hvcores.trans height
  cases (List.head_eq_of_cons_eq hwcores).trans hsixteen
  rfl

theorem twoAnswers_takes :
    MasterTakes doubleOf twoAnswers [eightCores, sixteenCores] (fun _ => zeroed) twoReads
      (63 / 8) := by
  obtain ⟨server, hserver, hworkers⟩ := exists_twoAnswers_master
  refine ⟨server, hserver, ?_⟩
  rw [hworkers]
  refine ⟨_, 1, _, rfl, rfl, ?_, ?_, ?_⟩
  · intro h
    exact absurd h.2 (lt_irrefl 2)
  · change LoopPhase.running ≠ .exited
    decide
  · change [doubleOf narrowBytes, doubleOf wideBytes].sum = 63 / 8
    rw [doubleOf_narrowBytes, doubleOf_wideBytes]
    norm_num

theorem dataOn_twoAnswers (fd k : ℕ) :
    ((List.range k).map twoAnswers.wakes).flatMap (Wake.dataOn fd) <+:
      (twoAnswers.wakes 0).dataOn fd := by
  cases k with
  | zero => exact List.nil_prefix
  | succ k =>
    have hlater :
        (((List.range k).map Nat.succ).map twoAnswers.wakes).flatMap (Wake.dataOn fd) = [] := by
      rw [List.flatMap_eq_nil_iff]
      intro wake hwake
      obtain ⟨_, hi, rfl⟩ := List.mem_map.mp hwake
      obtain ⟨i, _, rfl⟩ := List.mem_map.mp hi
      rfl
    rw [List.range_succ_eq_map, List.map_cons, List.flatMap_cons, hlater, List.append_nil]

theorem exists_corner_estimate {t : Task} {cores : ℤ} {right : ℕ} {p : ℕ}
    (h : SlabOf mainTask 24 cores t) (hright : 0 < right) (hcores : cores = 8 * right)
    (hp : 4166 * cores = (maxCores : ℕ) * p) (h1 : 1 ≤ p) (h31 : p < 2 ^ 31) :
    ∃ samples, WorkerEstimates t samples (right * 21 / 8) := by
  obtain ⟨hx1, hy1, hy2⟩ := h.main_rounded
  have hx2 : rounded t.x2 = right := by
    have hself : rounded right = right := @rounded_eq_self right (right * 1000000) (by
      push_cast
      ring)
    have hwidth : t.x2 = right := by
      rw [h.main_right, hcores]
      push_cast
      linarith
    rw [hwidth, hself]
  have hpoints : t.decoded.numOfPoints.val = (maxCores : ℕ) * p := by
    have hload := h.points (by decide)
    rw [← hp]
    exact hload
  obtain ⟨as, s, samples, hrun, hret, hvalue⟩ :=
    @exists_corner_run t.decoded right p (by exact_mod_cast hright) h1 h31 hx1 hx2 hy1 hy2 hpoints
  exact ⟨samples, t.decoded, as, s, sscanfTask_printOneTask t [], hrun, hret, hvalue⟩

theorem two_workers_final :
    ∃ sent ws, DistributedRun doubleOf twoAnswers [eightCores, sixteenCores] (fun _ => zeroed)
        sent ws ∧ sent.length = 2 ∧
      (∀ r ∈ twoReads, ∃ p ∈ sent, r.1 = p.1 ∧ r.2 = ws.written p.1) ∧
      (63 / 8 : ℚ) = ((takenFrom sent twoReads).map fun p => ws.result p.1).sum +
        leftover twoAnswers [eightCores, sixteenCores] (fun _ => zeroed) twoReads := by
  obtain ⟨server, hserver, hworkers⟩ := exists_twoAnswers_master
  obtain ⟨sent, hsent⟩ := master_sends (b := twoAnswers) hserver
  have hn : server.workers ≠ [] := by
    rw [hworkers]
    exact List.cons_ne_nil _ _
  obtain ⟨_, hslabs⟩ := master_sent (b := twoAnswers) hserver hsent hn
  have htotal : coreSum server.workers = 24 := by
    rw [hworkers]
    decide
  rw [htotal, hworkers] at hslabs
  obtain ⟨first, _, ⟨hfd, hslab⟩, hrest, rfl⟩ := List.forall₂_cons_left_iff.mp hslabs
  obtain ⟨second, _, ⟨hfd', hslab'⟩, hnil, rfl⟩ := List.forall₂_cons_left_iff.mp hrest
  cases hnil
  obtain ⟨samples, hest⟩ :=
    @exists_corner_estimate first.2 8 1 4166 hslab (by decide) (by decide) (by decide) (by decide)
      (by decide)
  obtain ⟨samples', hest'⟩ :=
    @exists_corner_estimate second.2 16 2 8332 hslab' (by decide) (by decide) (by decide)
      (by decide) (by decide)
  let ws : Workers :=
    ⟨fun fd => if fd = 0 then samples else samples', fun fd => if fd = 0 then 21 / 8 else 21 / 4,
      fun fd => if fd = 0 then narrowBytes else wideBytes⟩
  have hdistributed : DistributedRun doubleOf twoAnswers [eightCores, sixteenCores]
      (fun _ => zeroed) [first, second] ws := by
    constructor
    · change (master twoAnswers.connect twoAnswers.fds (fun _ => zeroed)
        [eightCores, sixteenCores]).bind sendTask = _
      rw [hserver]
      exact hsent
    · exact fun _ => rfl
    · intro q hq
      rcases List.mem_pair.mp hq with rfl | rfl
      · rw [hfd]
        refine Or.inr ⟨?_, rfl, doubleOf_narrowBytes⟩
        have hvalue : (1 : ℕ) * 21 / 8 = (21 / 8 : ℚ) := by norm_num
        rw [hvalue] at hest
        exact hest
      · rw [hfd']
        refine Or.inr ⟨?_, rfl, doubleOf_wideBytes⟩
        have hvalue : (2 : ℕ) * 21 / 8 = (21 / 4 : ℚ) := by norm_num
        rw [hvalue] at hest'
        exact hest'
    · intro q hq k
      rcases List.mem_pair.mp hq with rfl | rfl
      · rw [hfd]
        exact dataOn_twoAnswers 0 k
      · rw [hfd']
        exact dataOn_twoAnswers 1 k
  obtain ⟨hwhole, -, hsum, -⟩ := final_result hdistributed twoAnswers_takes
  exact ⟨[first, second], ws, hdistributed, rfl, hwhole, hsum⟩

end OsTasks.Integral
