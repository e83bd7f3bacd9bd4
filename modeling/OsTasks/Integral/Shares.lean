import OsTasks.Integral.Master

/-! The shares of the task of task_8 and the workers that serve them. A worker leaves its loop around
`accept` after one connection. -/
namespace OsTasks.Integral
open OsTasks.Lib

/-- The characters of an address in the field `ip`. -/
def Registered.text (w : Registered) : List Byte := cstr (w.ip.take ip4Len)

/-- Where a worker's `main` stands: at `accept`, or behind the loop. -/
inductive WorkerPc where
  | accepting
  | exited
  deriving DecidableEq

/-- A connection to a worker: whether it is handled, and where the worker stands then. -/
def WorkerPc.connection : WorkerPc → Bool × WorkerPc
  | .accepting => (true, .exited)
  | .exited => (false, .exited)

/-- Which of the connections to these hosts, in their order, are handled. -/
def handledBy : (Ip4 → WorkerPc) → List Ip4 → List Bool
  | _, [] => []
  | worker, x :: xs =>
    (worker x).connection.1 ::
      handledBy (Function.update worker x (worker x).connection.2) xs

/-- The shares that the master writes, each with the host it is connected to. -/
def masterShares (connect : ℕ → Ip4 → Bool) (fds : FdTable Unit) (memory : ℕ → Unset)
    (ds : List Datagram) : Option (List (Ip4 × Task)) := do
  let server ← master connect fds memory ds
  let hosts ← (rcvIpFromWorkers memory ds).workers.mapM Registered.address
  let sent ← sendTask server
  return hosts.zip (sent.map Prod.snd)

/-- No address is in the table twice, and every share goes to a connection that is handled. -/
structure OneShareEach (memory : ℕ → Unset) (ds : List Datagram) : Prop where
  once : ((rcvIpFromWorkers memory ds).workers.map Registered.text).Nodup
  handled : ∀ connect fds shares, masterShares connect fds memory ds = some shares →
    ∀ b ∈ handledBy (fun _ => .accepting) (shares.map Prod.fst), b = true

theorem inetNtoa_injective : Function.Injective inetNtoa := by
  intro x y h
  have hx := inetPton_inetNtoa x []
  rw [h, inetPton_inetNtoa y []] at hx
  exact (Option.some.inj hx).symm

theorem text_register (u : Unset) (d : Datagram) : (register u d).text = inetNtoa d.source := by
  have hself : cstr (inetNtoa d.source) = inetNtoa d.source :=
    (cstr_eq_self_iff _).mpr (zero_notMem_inetNtoa d.source)
  rcases lt_or_eq_of_le (length_inetNtoa_le d.source).1 with hlt | heq
  · obtain ⟨r, hr⟩ := (register_short (u := u) hlt).1
    unfold Registered.text
    rw [← hr, List.append_assoc, List.singleton_append, cstr_append_zero, hself]
  · have hip := register_full (u := u) heq
    have hlen : (inetNtoa d.source).length = ip4Len := heq
    unfold Registered.text
    rw [hip, List.take_append_of_le_length hlen.ge, List.take_of_length_le hlen.le, hself]

theorem map_text_rcvIpFromWorkers (memory : ℕ → Unset) (ds : List Datagram) :
    (rcvIpFromWorkers memory ds).workers.map Registered.text =
      ((ds.take maxWorkers).map Datagram.source).map inetNtoa := by
  apply List.ext_getElem?
  intro i
  rw [workers_rcvIpFromWorkers, List.getElem?_map, List.getElem?_map, List.getElem?_map,
    List.getElem?_mapIdx, Option.map_map, Option.map_map]
  simp only [Function.comp_def, text_register]

theorem map_of_mapM {α β : Type} {f : α → Option β} {l : List α} {bs : List β}
    (h : l.mapM f = some bs) : l.map f = bs.map some := by
  induction l generalizing bs with
  | nil =>
    cases h
    rfl
  | cons a l ih =>
    rw [List.mapM_cons] at h
    obtain ⟨b, hb, h⟩ := Option.bind_eq_some_iff.mp h
    obtain ⟨rest, hrest, h⟩ := Option.bind_eq_some_iff.mp h
    cases h
    rw [List.map_cons, List.map_cons, hb, ih hrest]

theorem hosts_eq {memory : ℕ → Unset} {ds : List Datagram} {hosts : List Ip4}
    (h : (rcvIpFromWorkers memory ds).workers.mapM Registered.address = some hosts) :
    hosts = (ds.take maxWorkers).map Datagram.source := by
  have haddress := map_of_mapM h
  rw [workers_rcvIpFromWorkers] at haddress
  apply List.ext_getElem?
  intro i
  have hi := congrArg (fun l => l[i]?) haddress
  rw [List.getElem?_map, List.getElem?_mapIdx, List.getElem?_map] at hi
  rw [List.getElem?_map]
  cases hd : (ds.take maxWorkers)[i]? with
  | none =>
    rw [hd] at hi
    exact Option.map_eq_none_iff.mp hi.symm
  | some d =>
    rw [hd] at hi
    obtain ⟨x, hx, hread⟩ := Option.map_eq_some_iff.mp hi.symm
    have hsource := eq_of_address_register hread.symm
    rw [hx, hsource]
    rfl

/-- All connections are handled when they go to different hosts. -/
theorem handledBy_of_nodup {worker : Ip4 → WorkerPc} {xs : List Ip4} (hd : xs.Nodup)
    (hw : ∀ x ∈ xs, worker x = .accepting) : ∀ b ∈ handledBy worker xs, b = true := by
  induction xs generalizing worker with
  | nil => exact fun b hb => absurd hb List.not_mem_nil
  | cons x xs ih =>
    obtain ⟨hx, hd⟩ := List.nodup_cons.mp hd
    have hfirst := hw x List.mem_cons_self
    have hrest : ∀ y ∈ xs,
        Function.update worker x (worker x).connection.2 y = .accepting := by
      intro y hy
      have hne : y ≠ x := fun he => hx (he ▸ hy)
      rw [Function.update_of_ne hne]
      exact hw y (List.mem_cons_of_mem _ hy)
    intro b hb
    rcases List.mem_cons.mp hb with rfl | hb
    · rw [hfirst]
      rfl
    · exact ih hd hrest b hb

theorem map_fst_masterShares {connect : ℕ → Ip4 → Bool} {fds : FdTable Unit} {memory : ℕ → Unset}
    {ds : List Datagram} {shares : List (Ip4 × Task)}
    (h : masterShares connect fds memory ds = some shares) :
    (shares.map Prod.fst).Sublist ((ds.take maxWorkers).map Datagram.source) := by
  obtain ⟨server, _, h⟩ := Option.bind_eq_some_iff.mp h
  obtain ⟨hosts, hhosts, h⟩ := Option.bind_eq_some_iff.mp h
  obtain ⟨sent, _, h⟩ := Option.bind_eq_some_iff.mp h
  cases h
  rw [← hosts_eq hhosts, List.zip_eq_zip_take_min, List.map_fst_zip]
  · exact List.take_sublist _ _
  · rw [List.length_take, List.length_take]
    omega

/-- A host gets one share when the first ten datagrams come from different hosts. -/
theorem oneShareEach_iff (memory : ℕ → Unset) (ds : List Datagram) :
    OneShareEach memory ds ↔ ((ds.take maxWorkers).map Datagram.source).Nodup := by
  have hnodup : ((rcvIpFromWorkers memory ds).workers.map Registered.text).Nodup ↔
      ((ds.take maxWorkers).map Datagram.source).Nodup := by
    rw [map_text_rcvIpFromWorkers]
    exact List.nodup_map_iff inetNtoa_injective
  constructor
  · intro h
    exact hnodup.mp h.once
  · intro h
    refine ⟨hnodup.mpr h, ?_⟩
    intro connect fds shares hshares
    have hd := h.sublist (map_fst_masterShares hshares)
    exact handledBy_of_nodup hd fun _ _ => rfl

/-- A reply that the network delivers twice. -/
def twice : List Datagram :=
  [⟨⟨192, 168, 109, 3⟩, ascii "8"⟩, ⟨⟨192, 168, 109, 3⟩, ascii "8"⟩]

/-- The worker is in the table twice, and its second share is not handled. -/
theorem duplicate_reply_not_oneShareEach :
    ¬ OneShareEach (fun _ => zeroed) twice ∧
      (masterShares (fun _ _ => true) .empty (fun _ => zeroed) twice).map
        (fun shares => handledBy (fun _ => .accepting) (shares.map Prod.fst)) =
          some [true, false] := by
  constructor
  · intro h
    have honce := h.once
    rw [map_text_rcvIpFromWorkers] at honce
    exact absurd honce (by decide +kernel)
  · decide +kernel

end OsTasks.Integral
