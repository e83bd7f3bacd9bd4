import OsTasks.Integral.Registration

/-! The master of task_8 from the registration of its workers to the sending of their tasks, and the
indices it reads with. -/
namespace OsTasks.Integral
open OsTasks.Lib

/-- The sockets, and their connections in turn: `connect fd x` tells whether the descriptor `fd` can
be connected to `x`. Where it cannot the program exits. -/
def connectAll (connect : ℕ → Ip4 → Bool) :
    FdTable Unit → List Registered → Option (List Registered)
  | _, [] => some []
  | fds, w :: ws => do
    let (fd, fds) := fds.alloc ()
    let x ← w.address
    if connect fd x then
      let ws ← connectAll connect fds ws
      return { w with socket := fd } :: ws
    else none

section Connect
variable {connect : ℕ → Ip4 → Bool}

theorem connectAll_cons {fds : FdTable Unit} {w : Registered} {ws connected : List Registered}
    (h : connectAll connect fds (w :: ws) = some connected) :
    ∃ rest, connectAll connect (fds.alloc ()).2 ws = some rest ∧
      connected = { w with socket := (fds.alloc ()).1 } :: rest := by
  obtain ⟨x, _, h⟩ := Option.bind_eq_some_iff.mp h
  obtain ⟨_, h⟩ := Option.ite_none_right_eq_some.mp h
  obtain ⟨rest, hrest, h⟩ := Option.bind_eq_some_iff.mp h
  exact ⟨rest, hrest, (Option.some.inj h).symm⟩

theorem connectAll_eq {fds : FdTable Unit} {ws connected : List Registered}
    (h : connectAll connect fds ws = some connected) :
    connected = List.zipWith (fun w fd => { w with socket := fd }) ws (fds.allocs () ws.length) := by
  induction ws generalizing fds connected with
  | nil =>
    cases h
    rfl
  | cons w ws ih =>
    obtain ⟨rest, hrest, rfl⟩ := connectAll_cons h
    exact congrArg _ (ih hrest)

theorem length_connectAll {fds : FdTable Unit} {ws connected : List Registered}
    (h : connectAll connect fds ws = some connected) : connected.length = ws.length := by
  rw [connectAll_eq h, List.length_zipWith, FdTable.length_allocs, Nat.min_self]

theorem map_numOfCores_connectAll {fds : FdTable Unit} {ws connected : List Registered}
    (h : connectAll connect fds ws = some connected) :
    connected.map (fun w => w.numOfCores) = ws.map fun w => w.numOfCores := by
  induction ws generalizing fds connected with
  | nil =>
    cases h
    rfl
  | cons w ws ih =>
    obtain ⟨rest, hrest, rfl⟩ := connectAll_cons h
    exact congrArg (w.numOfCores :: ·) (ih hrest)

theorem exists_connectAll {ws : List Registered}
    (h : ∀ w ∈ ws, ∃ x, w.address = some x ∧ ∀ fd, connect fd x = true) (fds : FdTable Unit) :
    ∃ connected, connectAll connect fds ws = some connected := by
  induction ws generalizing fds with
  | nil => exact ⟨[], rfl⟩
  | cons w ws ih =>
    obtain ⟨x, hx, hconnect⟩ := h w List.mem_cons_self
    obtain ⟨rest, hrest⟩ := ih (fun v hv => h v (List.mem_cons_of_mem _ hv)) (fds.alloc ()).2
    refine ⟨{ w with socket := (fds.alloc ()).1 } :: rest, ?_⟩
    unfold connectAll
    simp only [hx, hconnect, hrest, Option.bind_eq_bind, Option.bind_some, if_true]
    rfl

end Connect

def establishConnections (connect : ℕ → Ip4 → Bool) (fds : FdTable Unit) (r : Registry) :
    Option Registry :=
  match h : connectAll connect fds r.workers with
  | none => none
  | some ws => some ⟨ws, (length_connectAll h).trans_le r.workers_le⟩

theorem establishConnections_eq {connect : ℕ → Ip4 → Bool} {fds : FdTable Unit} {r r' : Registry}
    (h : establishConnections connect fds r = some r') :
    connectAll connect fds r.workers = some r'.workers := by
  unfold establishConnections at h
  split at h
  · cases h
  · next ws hws =>
    cases h
    exact hws

theorem exists_establishConnections {connect : ℕ → Ip4 → Bool} {r : Registry}
    (h : ∀ w ∈ r.workers, ∃ x, w.address = some x ∧ ∀ fd, connect fd x = true)
    (fds : FdTable Unit) : ∃ r', establishConnections connect fds r = some r' := by
  obtain ⟨connected, hconnected⟩ := exists_connectAll h fds
  unfold establishConnections
  split
  · next hnone =>
    rw [hconnected] at hnone
    cases hnone
  · exact ⟨_, rfl⟩

/-- The `struct Server` with these workers. -/
def Registry.server (r : Registry) (tasks : List Task) : Server where
  workers := r.workers.map Registered.toWorker
  workers_le := by
    rw [List.length_map]
    exact r.workers_le
  tasks := tasks

/-- `main` from `rcv_ip_from_workers` to `send_task`. -/
def master (connect : ℕ → Ip4 → Bool) (fds : FdTable Unit) (memory : ℕ → Unset)
    (ds : List Datagram) : Option Server := do
  let registry := rcvIpFromWorkers memory ds
  let split ← splitTasks (registry.server []) mainTask
  let connected ← establishConnections connect fds registry
  let server := connected.server split.tasks
  let _ ← sendTask server
  return server

/-- The indices into `tasks` with which `send_task` reads for a worker. -/
def taskIndices (taskNumber : ℤ) (w : Worker) : List ℤ :=
  [taskNumber, taskNumber + w.numOfCores.val - 1]

/-- The indices into `workers` with which `gather_results` reads. -/
def workerIndices (numOfWorkers : ℕ) : List ℤ :=
  ((numOfWorkers : ℤ) - 1) :: (List.range numOfWorkers).map Nat.cast

theorem taskIndices_of_workerTask {tasks : List Task} {n : ℤ} {w : Worker} {t : Task}
    (h : workerTask tasks n w = some t) : ∀ i ∈ taskIndices n w, 0 ≤ i ∧ i < tasks.length := by
  have hat : ∀ {i : ℤ} {t : Task}, taskAt tasks i = some t → 0 ≤ i ∧ i < tasks.length := by
    intro i t hi
    obtain ⟨hnonneg, hget⟩ := Option.ite_none_right_eq_some.mp hi
    have hlt := (List.getElem?_eq_some_iff.mp hget).1
    omega
  obtain ⟨first, hfirst, h⟩ := Option.bind_eq_some_iff.mp h
  obtain ⟨last, hlast, _⟩ := Option.bind_eq_some_iff.mp h
  intro i hi
  rcases List.mem_cons.mp hi with rfl | hi
  · exact hat hfirst
  · rw [List.mem_singleton.mp hi]
    exact hat hlast

/-- The sum of the cores is an `int`, and all reads are within the arrays. -/
structure IndexSafe (workers : List Worker) (numOfCores : CInt) : Prop where
  total : totalCores workers = some numOfCores
  tasks : ∀ w ∈ workers, ∀ i ∈ taskIndices 0 w, 0 ≤ i ∧ i < numOfCores.val
  workers : ∀ i ∈ workerIndices workers.length, 0 ≤ i ∧ i < workers.length

theorem indexSafe_iff {workers : List Worker} :
    (∃ numOfCores, IndexSafe workers numOfCores) ↔
      workers ≠ [] ∧ (∀ w ∈ workers, 1 ≤ w.numOfCores.val) ∧ coreSum workers < 2 ^ 31 := by
  constructor
  · rintro ⟨n, h⟩
    have hc : ∀ w ∈ workers, 1 ≤ w.numOfCores.val := by
      intro w hw
      have hlast := (h.tasks w hw (0 + w.numOfCores.val - 1)
        (List.mem_cons_of_mem _ List.mem_cons_self)).1
      omega
    refine ⟨?_, hc, ?_⟩
    · rintro rfl
      have hlast := (h.workers _ List.mem_cons_self).1
      rw [List.length_nil] at hlast
      omega
    · rw [← (totalCores_eq_some_iff hc n).mp h.total]
      exact n.upper
  · rintro ⟨hn, hc, hsum⟩
    have hlo := coreSum_nonneg hc
    have hpos := List.length_pos_of_ne_nil hn
    refine ⟨⟨coreSum workers, by omega, hsum⟩, (totalCores_eq_some_iff hc _).mpr rfl, ?_, ?_⟩
    · intro w hw i hi
      have hone := hc w hw
      have hle := le_coreSum hc hw
      simp only [taskIndices, List.mem_cons, List.not_mem_nil, or_false] at hi
      dsimp only
      omega
    · intro i hi
      rcases List.mem_cons.mp hi with rfl | hi
      · omega
      · obtain ⟨j, hj, rfl⟩ := List.mem_map.mp hi
        have hlt := List.mem_range.mp hj
        omega

/-- It depends on the cores alone. -/
theorem indexSafe_iff_cores {workers : List Worker} :
    (∃ numOfCores, IndexSafe workers numOfCores) ↔
      workers.map Worker.numOfCores ≠ [] ∧ (∀ n ∈ workers.map Worker.numOfCores, 1 ≤ n.val) ∧
        ((workers.map Worker.numOfCores).map SInt.val).sum < 2 ^ 31 := by
  rw [indexSafe_iff, ne_eq, ne_eq, List.map_eq_nil_iff, List.forall_mem_map, List.map_map]
  rfl

theorem map_numOfCores (memory : ℕ → Unset) (ds : List Datagram) (tasks : List Task) :
    ((rcvIpFromWorkers memory ds).server tasks).workers.map Worker.numOfCores =
      (ds.take maxWorkers).map fun d => atoi d.buffer := by
  change ((rcvIpFromWorkers memory ds).workers.map Registered.toWorker).map Worker.numOfCores = _
  apply List.ext_getElem?
  intro i
  rw [workers_rcvIpFromWorkers, List.getElem?_map, List.getElem?_map, List.getElem?_mapIdx,
    List.getElem?_map, Option.map_map, Option.map_map]
  rfl

/-- The master reads within its arrays when some worker answers and the first ten announce cores,
fewer than 2 ^ 31 together. -/
theorem master_indices_iff (memory : ℕ → Unset) (ds : List Datagram) :
    (∃ numOfCores, IndexSafe ((rcvIpFromWorkers memory ds).server []).workers numOfCores) ↔
      ds ≠ [] ∧ (∀ d ∈ ds.take maxWorkers, 1 ≤ (atoi d.buffer).val) ∧
        ((ds.take maxWorkers).map fun d => (atoi d.buffer).val).sum < 2 ^ 31 := by
  have hnil : ds.take maxWorkers = [] ↔ ds = [] := by
    rw [List.take_eq_nil_iff]
    exact or_iff_right (by decide)
  rw [indexSafe_iff_cores, map_numOfCores, ne_eq, List.map_eq_nil_iff, hnil, List.forall_mem_map,
    List.map_map]
  rfl

theorem splitTasks_congr {server server' : Server} (main : Task)
    (h : server.workers.map Worker.numOfCores = server'.workers.map Worker.numOfCores) :
    (splitTasks server main).map Server.tasks = (splitTasks server' main).map Server.tasks := by
  have htotal : totalCores server.workers = totalCores server'.workers := by
    have hfold : ∀ ws : List Worker, totalCores ws =
        (ws.map Worker.numOfCores).foldlM (fun n c => n.add? c) 0 := by
      intro ws
      rw [List.foldlM_map]
      rfl
    rw [hfold, hfold, h]
  unfold splitTasks
  rw [htotal]
  cases totalCores server'.workers with
  | none => rfl
  | some n =>
    cases hm : (List.range n.val.toNat).mapM (coreTask main n) with
    | none => simp [hm]
    | some tasks => simp [hm]

/-- A master whose reads are within its arrays gets to `gather_results`, when it can connect to its
workers. -/
theorem exists_master {connect : ℕ → Ip4 → Bool} {memory : ℕ → Unset} {ds : List Datagram}
    (hsafe : ∃ numOfCores, IndexSafe ((rcvIpFromWorkers memory ds).server []).workers numOfCores)
    (hconnect : ∀ w ∈ (rcvIpFromWorkers memory ds).workers, ∃ x, w.address = some x ∧
      ∀ fd, connect fd x = true)
    (fds : FdTable Unit) : ∃ server, master connect fds memory ds = some server := by
  obtain ⟨connected, hconnected⟩ := exists_establishConnections hconnect fds
  have hcores : (connected.server []).workers.map Worker.numOfCores =
      ((rcvIpFromWorkers memory ds).server []).workers.map Worker.numOfCores := by
    have hmap := map_numOfCores_connectAll (establishConnections_eq hconnected)
    change (connected.workers.map Registered.toWorker).map Worker.numOfCores =
      ((rcvIpFromWorkers memory ds).workers.map Registered.toWorker).map Worker.numOfCores
    rw [List.map_map, List.map_map]
    exact hmap
  have hsafe' : ∃ numOfCores, IndexSafe (connected.server []).workers numOfCores := by
    rw [indexSafe_iff_cores, hcores, ← indexSafe_iff_cores]
    exact hsafe
  obtain ⟨hn, hc, hsum⟩ := indexSafe_iff.mp hsafe'
  obtain ⟨sent, hsent, _⟩ := exists_sendTask mainTask hn hc hsum
  obtain ⟨server, hserver, hsent⟩ := Option.bind_eq_some_iff.mp hsent
  have htasks := splitTasks_congr mainTask hcores
  rw [hserver] at htasks
  obtain ⟨split, hsplit, hsame⟩ := Option.map_eq_some_iff.mp htasks.symm
  have hserverEq : server = connected.server split.tasks := by
    obtain ⟨n, _, h⟩ := Option.bind_eq_some_iff.mp hserver
    obtain ⟨tasks, _, h⟩ := Option.bind_eq_some_iff.mp h
    cases h
    rw [hsame]
    rfl
  refine ⟨connected.server split.tasks, ?_⟩
  unfold master
  rw [hserverEq] at hsent
  simp only [hsplit, hconnected, hsent, Option.bind_eq_bind, Option.bind_some]
  rfl

/-- It can connect to those whose address is written with less than 15 characters and that accept. -/
theorem exists_master_of_short {connect : ℕ → Ip4 → Bool} {memory : ℕ → Unset}
    {ds : List Datagram}
    (hsafe : ∃ numOfCores, IndexSafe ((rcvIpFromWorkers memory ds).server []).workers numOfCores)
    (hconnect : ∀ d ∈ ds, (∃ o ∈ d.source.octets, o.toNat < 100) ∧
      ∀ fd, connect fd d.source = true)
    (fds : FdTable Unit) : ∃ server, master connect fds memory ds = some server := by
  refine exists_master hsafe ?_ fds
  intro w hw
  obtain ⟨i, hi⟩ := List.mem_iff_getElem?.mp hw
  obtain ⟨-, d, hd, rfl⟩ := getElem?_registered.mp hi
  obtain ⟨hshort, haccepts⟩ := hconnect d (List.mem_of_getElem? hd)
  exact ⟨d.source, (register_short ((length_inetNtoa_le d.source).2.mpr hshort)).2, haccepts⟩

/-- The invitation of another master. -/
def invitation : Datagram := ⟨⟨192, 168, 109, 2⟩, ascii "Hello"⟩

/-- It registers a worker without cores, for which `send_task` reads at -1. -/
theorem invitation_not_safe :
    ¬ ∃ numOfCores,
      IndexSafe ((rcvIpFromWorkers (fun _ => zeroed) [invitation]).server []).workers numOfCores := by
  rintro ⟨n, h⟩
  have hlast := (h.tasks _ List.mem_cons_self (-1) (by decide +kernel)).1
  omega

end OsTasks.Integral
