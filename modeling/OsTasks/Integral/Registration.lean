import OsTasks.Integral.Partition
import OsTasks.Lib.FdTable
import OsTasks.Lib.Inet
import OsTasks.Lib.ScanNumber

/-! The master of task_8: the workers that answer its invitation, and the connections to them. -/
namespace OsTasks.Integral
open OsTasks.Lib

/-- `IP4_LEN` -/
def ip4Len : ℕ := 15

/-- `BUF_SIZE` of the master. -/
def datagramBufSize : ℕ := 4096

/-- The whole `struct Worker`. The bytes of `ip` and the padding behind them are one block. -/
structure Registered extends Worker where
  ip : List Byte
  ip_length : ip.length = ip4Len + 1

/-- What is there when a worker is registered: the contents of the local `newWorker`, and the byte
that the copy of a structure leaves in its padding. -/
structure Unset where
  newWorker : Registered
  padding : Byte

structure Datagram where
  source : Ip4
  bytes : List Byte

/-- What `recvfrom` leaves in `buffer`, and the NUL stored behind it. -/
def Datagram.buffer (d : Datagram) : List Byte := d.bytes.take (datagramBufSize - 1) ++ [0]

/-- The block `ip` after `strcpy` of the address and the copy. -/
def storedIp (u : Unset) (x : Ip4) : List Byte :=
  (overwrite u.newWorker.ip (inetNtoa x ++ [0])).take ip4Len ++ [u.padding]

theorem length_storedIp (u : Unset) (x : Ip4) : (storedIp u x).length = ip4Len + 1 := by
  have hle : ip4Len ≤ (overwrite u.newWorker.ip (inetNtoa x ++ [0])).length := by
    have hip := u.newWorker.ip_length
    simp only [overwrite, List.length_append, List.length_drop]
    omega
  unfold storedIp
  rw [List.length_append, List.length_take_of_le hle, List.length_singleton]

/-- The worker that is copied into `server->workers`. -/
def register (u : Unset) (d : Datagram) : Registered where
  numOfCores := atoi d.buffer
  socket := u.newWorker.socket
  result := u.newWorker.result
  ip := storedIp u d.source
  ip_length := length_storedIp u d.source

/-- `server->workers` and `server->num_of_workers`. -/
structure Registry where
  workers : List Registered
  workers_le : workers.length ≤ maxWorkers

def Registry.empty : Registry := ⟨[], Nat.zero_le _⟩

/-- One datagram. -/
def Registry.receive (r : Registry) (u : Unset) (d : Datagram) : Registry :=
  if h : r.workers.length < maxWorkers then
    ⟨r.workers ++ [register u d], by
      rw [List.length_append, List.length_singleton]
      exact h⟩
  else r

/-- The datagrams of the window, in their order. The worker that is registered `i`-th finds
`memory i`. -/
def rcvIpFromWorkers (memory : ℕ → Unset) (ds : List Datagram) : Registry :=
  ds.foldl (fun r d => r.receive (memory r.workers.length) d) .empty

/-- The address that `inet_pton` leaves in the zeroed `sin_addr`. A text without an end has none. -/
def Registered.address (w : Registered) : Option Ip4 :=
  if 0 ∈ w.ip then some ((inetPton w.ip).getD .any) else none

/-- The text of `x` and its end lie within the field `ip`, and `x` is read back. -/
def Registered.Keeps (w : Registered) (x : Ip4) : Prop :=
  inetNtoa x ++ [0] <+: w.ip.take ip4Len ∧ w.address = some x

theorem workers_foldl_receive (memory : ℕ → Unset) (ds : List Datagram) (r : Registry) :
    (ds.foldl (fun r d => r.receive (memory r.workers.length) d) r).workers =
      r.workers ++ (ds.take (maxWorkers - r.workers.length)).mapIdx
        fun i d => register (memory (r.workers.length + i)) d := by
  induction ds generalizing r with
  | nil => simp
  | cons d ds ih =>
    rw [List.foldl_cons, ih]
    unfold Registry.receive
    by_cases h : r.workers.length < maxWorkers
    · obtain ⟨n, hn⟩ : ∃ n, maxWorkers - r.workers.length = n + 1 :=
        Nat.exists_eq_add_one.mpr (by omega)
      have hrest : maxWorkers - (r.workers.length + 1) = n := by omega
      rw [dif_pos h, hn, List.take_succ_cons, List.mapIdx_cons]
      dsimp only
      rw [List.length_append, List.length_singleton, hrest, List.append_assoc]
      simp only [List.singleton_append, Nat.add_zero, Nat.add_assoc, Nat.add_comm 1]
    · have hzero : maxWorkers - r.workers.length = 0 := by omega
      rw [dif_neg h, hzero, List.take_zero, List.take_zero]

theorem workers_rcvIpFromWorkers (memory : ℕ → Unset) (ds : List Datagram) :
    (rcvIpFromWorkers memory ds).workers =
      (ds.take maxWorkers).mapIdx fun i d => register (memory i) d := by
  have h := workers_foldl_receive memory ds .empty
  simpa [Registry.empty, rcvIpFromWorkers] using h

theorem getElem?_registered {memory : ℕ → Unset} {ds : List Datagram} {i : ℕ} {w : Registered} :
    (rcvIpFromWorkers memory ds).workers[i]? = some w ↔
      i < maxWorkers ∧ ∃ d, ds[i]? = some d ∧ register (memory i) d = w := by
  rw [workers_rcvIpFromWorkers, List.getElem?_mapIdx, Option.map_eq_some_iff, List.getElem?_take]
  constructor
  · rintro ⟨d, hd, rfl⟩
    split_ifs at hd with hi
    exact ⟨hi, d, hd, rfl⟩
  · rintro ⟨hi, d, hd, rfl⟩
    refine ⟨d, ?_, rfl⟩
    rwa [if_pos hi]

section Address
variable {u : Unset} {d : Datagram}

theorem overwrite_ip (u : Unset) (d : Datagram) :
    ∃ r, overwrite u.newWorker.ip (inetNtoa d.source ++ [0]) = inetNtoa d.source ++ 0 :: r := by
  refine ⟨u.newWorker.ip.drop (inetNtoa d.source ++ [0]).length, ?_⟩
  unfold overwrite
  rw [List.append_assoc, List.singleton_append]

/-- A text of less than 15 characters is stored with its end. -/
theorem register_short (h : (inetNtoa d.source).length < ip4Len) : (register u d).Keeps d.source := by
  obtain ⟨r, hr⟩ := overwrite_ip u d
  have htake : (inetNtoa d.source ++ 0 :: r).take ip4Len =
      inetNtoa d.source ++ 0 :: r.take (ip4Len - (inetNtoa d.source).length - 1) := by
    obtain ⟨n, hn⟩ : ∃ n, ip4Len - (inetNtoa d.source).length = n + 1 :=
      Nat.exists_eq_add_one.mpr (by omega)
    rw [List.take_append, List.take_of_length_le h.le, hn, List.take_succ_cons,
      Nat.add_sub_cancel]
  have hip : (register u d).ip = inetNtoa d.source ++
      0 :: (r.take (ip4Len - (inetNtoa d.source).length - 1) ++ [u.padding]) := by
    change storedIp u d.source = _
    unfold storedIp
    rw [hr, htake, List.append_assoc, List.cons_append]
  constructor
  · rw [List.prefix_take_iff, hip, List.length_append, List.length_singleton]
    refine ⟨?_, h⟩
    rw [List.prefix_append_right_inj]
    exact List.prefix_append [0] _
  · have h0 : 0 ∈ (register u d).ip := by
      rw [hip]
      exact List.mem_append_right _ List.mem_cons_self
    unfold Registered.address
    rw [if_pos h0, hip, inetPton_inetNtoa]
    rfl

theorem register_full (h : (inetNtoa d.source).length = ip4Len) :
    (register u d).ip = inetNtoa d.source ++ [u.padding] := by
  obtain ⟨r, hr⟩ := overwrite_ip u d
  change storedIp u d.source = _
  unfold storedIp
  rw [hr, List.take_append_of_le_length h.ge, List.take_of_length_le h.le]

theorem eq_of_address_register {x : Ip4} (h : (register u d).address = some x) : x = d.source := by
  rcases lt_or_eq_of_le (length_inetNtoa_le d.source).1 with hlt | heq
  · rw [(register_short hlt).2] at h
    exact (Option.some.inj h).symm
  · have hip := register_full (u := u) heq
    unfold Registered.address at h
    split_ifs at h with h0
    rw [hip] at h h0
    have hpad : u.padding = 0 := by
      rcases List.mem_append.mp h0 with h0 | h0
      · exact absurd h0 (zero_notMem_inetNtoa d.source)
      · exact (List.mem_singleton.mp h0).symm
    rw [hpad, inetPton_inetNtoa] at h
    exact (Option.some.inj h).symm

/-- An address is stored whole, and read back, when one of its numbers has less than three digits. -/
theorem registered_faithful_iff (memory : ℕ → Unset) (ds : List Datagram) :
    (∀ (i : ℕ) d w, ds[i]? = some d → (rcvIpFromWorkers memory ds).workers[i]? = some w →
      w.Keeps d.source) ↔
      ∀ d ∈ ds.take maxWorkers, ∃ o ∈ d.source.octets, o.toNat < 100 := by
  constructor
  · intro h d hd
    obtain ⟨i, hi⟩ := List.mem_iff_getElem?.mp hd
    rw [List.getElem?_take] at hi
    split_ifs at hi with hlt
    have hstored := (h i d _ hi (getElem?_registered.mpr ⟨hlt, d, hi, rfl⟩)).1
    have hlen := hstored.length_le.trans (List.length_take_le ip4Len _)
    rw [List.length_append, List.length_singleton] at hlen
    exact (length_inetNtoa_le d.source).2.mp hlen
  · intro h i d w hd hw
    obtain ⟨hlt, d', hd', rfl⟩ := getElem?_registered.mp hw
    cases hd.symm.trans hd'
    have hmem : d ∈ ds.take maxWorkers := by
      apply List.mem_iff_getElem?.mpr
      refine ⟨i, ?_⟩
      rwa [List.getElem?_take, if_pos hlt]
    exact register_short ((length_inetNtoa_le d.source).2.mpr (h d hmem))

end Address

/-- A `newWorker` of zero bytes. -/
def zeroed : Unset where
  newWorker := { numOfCores := 0, socket := 0, result := 0, ip := List.replicate 16 0, ip_length := rfl }
  padding := 0

/-- The worker `192.168.109.100`. -/
def fullAddress : Datagram := ⟨⟨192, 168, 109, 100⟩, ascii "8"⟩

/-- Its text and its end take 16 bytes. -/
theorem full_address_overflows :
    ¬ ∀ (i : ℕ) d w, [fullAddress][i]? = some d →
      (rcvIpFromWorkers (fun _ => zeroed) [fullAddress]).workers[i]? = some w →
      w.Keeps d.source := by
  intro h
  have hkeeps := h 0 fullAddress (register zeroed fullAddress) rfl rfl
  exact absurd hkeeps.1.length_le (by decide +kernel)

end OsTasks.Integral
