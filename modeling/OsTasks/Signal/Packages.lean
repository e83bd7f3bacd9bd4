import OsTasks.Lib.Blocks
import OsTasks.Lib.CString

/-! The packages of task_5: three bytes of the file and their count in one `int`. -/
namespace OsTasks.Signal
open OsTasks.Lib

/-- `MAX_BUFF_SIZE`. -/
def maxBuffSize : ℕ := 4096

/-- The four bytes of an `int`. -/
abbrev Package := List Byte

/-- `memcpy` of the piece into `package`, then its length into `package[3]`. -/
def pack (package : Package) (piece : List Byte) : Package :=
  (overwrite package piece).set 3 (UInt8.ofNat piece.length)

/-- The pieces of a buffer are packed into one array, which keeps its bytes. -/
def packPieces (package : Package) : List (List Byte) → List Package
  | [] => []
  | piece :: pieces => pack package piece :: packPieces (pack package piece) pieces

/-- The packages of one buffer: three bytes while more than three are left, then the rest. -/
def packBuffer (buffer : List Byte) : List Package :=
  packPieces [0, 0, 0, 0] (freadBlocks 3 buffer)

/-- All packages `snd_file` sends. -/
def packages (file : List Byte) : List Package :=
  (freadBlocks maxBuffSize file).flatMap packBuffer

/-- What `rcv_file` writes of a package. -/
def payload (val : Package) : List Byte := val.take (val.getD 3 0).toNat

theorem length_pack {package : Package} (h : package.length = 4) {piece : List Byte}
    (hp : piece.length ≤ 3) : (pack package piece).length = 4 := by
  unfold pack
  rw [List.length_set, length_overwrite (by omega), h]

theorem payload_pack {package : Package} (h : package.length = 4) {piece : List Byte}
    (hp : piece.length ≤ 3) : payload (pack package piece) = piece := by
  have hlen : (overwrite package piece).length = 4 := by rw [length_overwrite (by omega), h]
  have hcount : ((pack package piece).getD 3 0).toNat = piece.length := by
    unfold pack
    rw [List.getD_eq_getElem?_getD, List.getElem?_set_self (by omega), Option.getD_some,
      UInt8.toNat_ofNat']
    omega
  unfold payload
  rw [hcount, pack, List.take_set_of_le hp]
  exact take_overwrite package piece

theorem map_payload_packPieces {package : Package} (h : package.length = 4)
    {pieces : List (List Byte)} (hp : ∀ p ∈ pieces, p.length ≤ 3) :
    (packPieces package pieces).map payload = pieces := by
  induction pieces generalizing package with
  | nil => rfl
  | cons piece pieces ih =>
    have hpiece := hp piece (by simp)
    unfold packPieces
    rw [List.map_cons, payload_pack h hpiece,
      ih (length_pack h hpiece) fun p hm => hp p (by simp [hm])]

theorem map_payload_packBuffer (buffer : List Byte) :
    (packBuffer buffer).map payload = freadBlocks 3 buffer :=
  map_payload_packPieces rfl fun _ hp => (length_of_mem_freadBlocks (by decide) hp).2

theorem flatten_payload_packages (file : List Byte) :
    ((packages file).map payload).flatten = file := by
  have h : ∀ bs : List (List Byte), ((bs.flatMap packBuffer).map payload).flatten = bs.flatten := by
    intro bs
    induction bs with
    | nil => rfl
    | cons b bs ih =>
      rw [List.flatMap_cons, List.map_append, List.flatten_append, ih, map_payload_packBuffer,
        flatten_freadBlocks (by decide), List.flatten_cons]
  unfold packages
  rw [h, flatten_freadBlocks (by decide)]

theorem payload_ne_nil {file : List Byte} {p : Package} (hp : p ∈ packages file) :
    payload p ≠ [] := by
  obtain ⟨buffer, -, hm⟩ := List.mem_flatMap.mp hp
  have hpay : payload p ∈ freadBlocks 3 buffer := by
    rw [← map_payload_packBuffer]
    exact List.mem_map_of_mem hm
  exact List.ne_nil_of_length_pos (length_of_mem_freadBlocks (by decide) hpay).1

end OsTasks.Signal
