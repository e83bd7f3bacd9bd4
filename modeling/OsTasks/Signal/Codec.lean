import OsTasks.Signal.Packages
import Mathlib.Data.Nat.Digits.Defs

/-! The two loops of `snd_file` over its buffers, the `int` each package travels in, and what the
receiver makes of it. -/
namespace OsTasks.Signal
open OsTasks.Lib

/-- `*(int*) package`, lowest byte first. -/
def intOf (package : Package) : BitVec 32 :=
  BitVec.ofNat 32 (Nat.ofDigits 256 (package.map UInt8.toNat))

/-- The bytes of `VAL` after `*((int*) VAL) = v`. -/
def valOf (v : BitVec 32) : Package :=
  (List.range 4).map fun k => UInt8.ofNat (v.toNat / 256 ^ k)

/-- The inner loop: the index and the array it ends with, and what it has sent. -/
def sndPieces (buffer : List Byte) (numReaded i : ℕ) (package : Package) :
    ℕ × Package × List (BitVec 32) :=
  if 3 < numReaded - i then
    let package := (overwrite package ((buffer.drop i).take 3)).set 3 3
    let (i, last, sent) := sndPieces buffer numReaded (i + 3) package
    (i, last, intOf package :: sent)
  else (i, package, [])
termination_by numReaded - i

/-- The inner loop from `i` on and the last piece behind it. -/
def sndFrom (buffer : List Byte) (numReaded i : ℕ) (package : Package) : List (BitVec 32) :=
  let (i, package, sent) := sndPieces buffer numReaded i package
  if i < numReaded then
    sent ++ [intOf ((overwrite package ((buffer.drop i).take (numReaded - i))).set 3
      (UInt8.ofNat (numReaded - i)))]
  else sent

/-- The loop over the calls of `fread`, which return `blocks` and store each into `buffer`. -/
def sndFile (buffer : List Byte) : List (List Byte) → List (BitVec 32)
  | [] => []
  | block :: blocks =>
    let buffer := overwrite buffer block
    sndFrom buffer block.length 0 [0, 0, 0, 0] ++ sndFile buffer blocks

/-- What the receiver writes of the values sent. -/
def decode (sent : List (BitVec 32)) : List Byte := (sent.map fun v => payload (valOf v)).flatten

theorem valOf_intOf {package : Package} (h : package.length = 4) :
    valOf (intOf package) = package := by
  obtain ⟨a, b, c, d, rfl⟩ := List.length_eq_four.mp h
  have ha := a.toNat_lt
  have hb := b.toNat_lt
  have hc := c.toNat_lt
  have hd := d.toNat_lt
  have hint : (intOf [a, b, c, d]).toNat =
      a.toNat + 256 * (b.toNat + 256 * (c.toNat + 256 * d.toNat)) := by
    simp only [intOf, List.map_cons, List.map_nil, Nat.ofDigits_cons, Nat.ofDigits_nil,
      BitVec.toNat_ofNat]
    omega
  unfold valOf
  rw [hint]
  simp only [List.range_succ_eq_map, List.range_zero, List.map_cons, List.map_nil,
    List.cons.injEq, and_true, ← UInt8.toNat_inj, UInt8.toNat_ofNat']
  refine ⟨?_, ?_, ?_, ?_⟩ <;> norm_num <;> omega

/-- The two parts of `snd_file` make one package of every three bytes or the rest. -/
theorem sndFrom_eq (buffer : List Byte) (numReaded i : ℕ) (package : Package)
    (hn : numReaded ≤ buffer.length) :
    sndFrom buffer numReaded i package =
      (packPieces package (freadBlocks 3 ((buffer.take numReaded).drop i))).map intOf := by
  induction i, package using sndPieces.induct buffer numReaded with
  | case1 i package hlt package' j last sent hrec ih =>
    have hne : (buffer.take numReaded).drop i ≠ [] := by
      apply List.ne_nil_of_length_pos
      rw [List.length_drop, List.length_take]
      omega
    have hpiece : ((buffer.take numReaded).drop i).take 3 = (buffer.drop i).take 3 := by
      rw [List.drop_take, List.take_take, Nat.min_eq_left (by omega)]
    have hpack : pack package ((buffer.drop i).take 3) = package' := by
      have hlen : ((buffer.drop i).take 3).length = 3 := by
        rw [List.length_take, List.length_drop]
        omega
      rw [pack, hlen]
      rfl
    rw [freadBlocks_of_ne_nil (by decide) hne, hpiece, packPieces, hpack, List.map_cons,
      List.drop_drop, ← ih]
    unfold sndFrom
    rw [sndPieces, if_pos hlt]
    dsimp only
    rw [hrec]
    dsimp only
    split_ifs
    · rfl
    · rfl
  | case2 i package hlt =>
    unfold sndFrom
    rw [sndPieces, if_neg hlt]
    dsimp only
    split_ifs with hi
    · have hlen : ((buffer.take numReaded).drop i).length = numReaded - i := by
        rw [List.length_drop, List.length_take]
        omega
      have hrest : (buffer.take numReaded).drop i = (buffer.drop i).take (numReaded - i) :=
        List.drop_take
      have hne : (buffer.take numReaded).drop i ≠ [] := by
        apply List.ne_nil_of_length_pos
        omega
      have htake : ((buffer.take numReaded).drop i).take 3 = (buffer.take numReaded).drop i :=
        List.take_of_length_le (by omega)
      have hdrop : ((buffer.take numReaded).drop i).drop 3 = [] :=
        List.drop_eq_nil_of_le (by omega)
      rw [freadBlocks_of_ne_nil (by decide) hne, htake, hdrop, freadBlocks_nil (by decide),
        packPieces, packPieces, List.map_singleton, List.nil_append, pack, hlen, hrest]
    · rw [List.drop_eq_nil_of_le (by rw [List.length_take]; omega), freadBlocks_nil (by decide)]
      rfl

theorem mem_packPieces {package : Package} (h : package.length = 4) {pieces : List (List Byte)}
    (hp : ∀ p ∈ pieces, p.length ≤ 3) {q : Package} (hq : q ∈ packPieces package pieces) :
    q.length = 4 ∧ ∃ piece ∈ pieces, q.getD 3 0 = UInt8.ofNat piece.length := by
  induction pieces generalizing package with
  | nil => cases hq
  | cons piece pieces ih =>
    have hpiece := hp piece (by simp)
    rcases List.mem_cons.mp hq with rfl | hq
    · refine ⟨length_pack h hpiece, piece, by simp, ?_⟩
      have hlen : (overwrite package piece).length = 4 := by rw [length_overwrite (by omega), h]
      rw [pack, List.getD_eq_getElem?_getD, List.getElem?_set_self (by omega), Option.getD_some]
    · obtain ⟨hl, p, hm, hc⟩ := ih (length_pack h hpiece) (fun p hm => hp p (by simp [hm])) hq
      exact ⟨hl, p, List.mem_cons_of_mem _ hm, hc⟩

theorem decode_packPieces {package : Package} (h : package.length = 4)
    {pieces : List (List Byte)} (hp : ∀ p ∈ pieces, p.length ≤ 3) :
    decode ((packPieces package pieces).map intOf) = pieces.flatten := by
  have hval : (packPieces package pieces).map (fun q => payload (valOf (intOf q))) =
      (packPieces package pieces).map payload := by
    apply List.map_congr_left
    intro q hq
    rw [valOf_intOf (mem_packPieces h hp hq).1]
  unfold decode
  rw [List.map_map]
  exact congrArg List.flatten (hval.trans (map_payload_packPieces h hp))

/-- One buffer decodes to the bytes `fread` has stored, whatever `package` held before. -/
theorem decode_sndFrom {buffer : List Byte} {numReaded : ℕ} (hn : numReaded ≤ buffer.length)
    {package : Package} (h : package.length = 4) :
    decode (sndFrom buffer numReaded 0 package) = buffer.take numReaded := by
  rw [sndFrom_eq _ _ _ _ hn, List.drop_zero,
    decode_packPieces h fun p hp => (length_of_mem_freadBlocks (by decide) hp).2,
    flatten_freadBlocks (by decide)]

theorem length_byte_sndFrom {buffer : List Byte} {numReaded : ℕ} (hn : numReaded ≤ buffer.length)
    {package : Package} (h : package.length = 4) {v : BitVec 32}
    (hv : v ∈ sndFrom buffer numReaded 0 package) :
    1 ≤ (valOf v).getD 3 0 ∧ (valOf v).getD 3 0 ≤ 3 := by
  rw [sndFrom_eq _ _ _ _ hn] at hv
  obtain ⟨q, hq, rfl⟩ := List.mem_map.mp hv
  obtain ⟨hlen, piece, hpiece, hc⟩ := mem_packPieces h
    (fun p hp => (length_of_mem_freadBlocks (by decide) hp).2) hq
  obtain ⟨hpos, hle⟩ := length_of_mem_freadBlocks (by decide) hpiece
  rw [valOf_intOf hlen, hc]
  constructor <;> rw [UInt8.le_iff_toNat_le, UInt8.toNat_ofNat'] <;> simp <;> omega

theorem decode_append (sent sent' : List (BitVec 32)) :
    decode (sent ++ sent') = decode sent ++ decode sent' := by
  unfold decode
  rw [List.map_append, List.flatten_append]

/-- The receiver gets the bytes that the calls of `fread` returned: every length byte is between 1
and 3, and what a package or the buffer held before never shows. -/
theorem decode_sndFile (buffer : List Byte) (hbuf : buffer.length = maxBuffSize)
    (blocks : List (List Byte)) (hblocks : ∀ b ∈ blocks, b.length ≤ maxBuffSize) :
    decode (sndFile buffer blocks) = blocks.flatten ∧
      (∀ v ∈ sndFile buffer blocks, 1 ≤ (valOf v).getD 3 0 ∧ (valOf v).getD 3 0 ≤ 3) ∧
      ∀ b ∈ blocks, ∀ package, package.length = 4 →
        decode (sndFrom (overwrite buffer b) b.length 0 package) = b := by
  have hlen : ∀ b : List Byte, ∀ buf : List Byte, buf.length = maxBuffSize →
      b.length ≤ maxBuffSize → (overwrite buf b).length = maxBuffSize := by
    intro b buf hb hle
    rw [length_overwrite (by omega), hb]
  refine ⟨?_, ?_, ?_⟩
  · induction blocks generalizing buffer with
    | nil => rfl
    | cons b bs ih =>
      have hle := hblocks b (by simp)
      have hnew := hlen b buffer hbuf hle
      rw [sndFile, decode_append, decode_sndFrom (by omega) rfl, take_overwrite, List.flatten_cons,
        ih _ hnew fun c hc => hblocks c (by simp [hc])]
  · induction blocks generalizing buffer with
    | nil =>
      intro v hv
      cases hv
    | cons b bs ih =>
      have hle := hblocks b (by simp)
      have hnew := hlen b buffer hbuf hle
      intro v hv
      rcases List.mem_append.mp hv with hv | hv
      · exact length_byte_sndFrom (by omega) rfl hv
      · exact ih _ hnew (fun c hc => hblocks c (by simp [hc])) v hv
  · intro b hb package hp
    have hle := hblocks b hb
    have hnew := hlen b buffer hbuf hle
    rw [decode_sndFrom (by omega) hp, take_overwrite]

/-- Two buffers, the second shorter than the first. -/
theorem decode_sndFile_two_buffers :
    decode (sndFile (List.replicate maxBuffSize 0) [[1, 2, 3, 4], [5]]) = [1, 2, 3, 4, 5] :=
  (decode_sndFile (List.replicate maxBuffSize 0) List.length_replicate [[1, 2, 3, 4], [5]]
    (by decide)).1

/-- The blocks of a file give the packages of the file. -/
theorem sndFile_freadBlocks {buffer : List Byte} (hbuf : buffer.length = maxBuffSize)
    (file : List Byte) :
    sndFile buffer (freadBlocks maxBuffSize file) = (packages file).map intOf := by
  have h : ∀ (blocks : List (List Byte)) (buf : List Byte), buf.length = maxBuffSize →
      (∀ b ∈ blocks, b.length ≤ maxBuffSize) →
      sndFile buf blocks = (blocks.flatMap packBuffer).map intOf := by
    intro blocks
    induction blocks with
    | nil => exact fun _ _ _ => rfl
    | cons b bs ih =>
      intro buf hb hle
      have hblock := hle b (by simp)
      have hnew : (overwrite buf b).length = maxBuffSize := by
        rw [length_overwrite (by omega), hb]
      rw [sndFile, sndFrom_eq _ _ _ _ (by omega), List.drop_zero, take_overwrite,
        ih _ hnew fun c hc => hle c (by simp [hc]), List.flatMap_cons, List.map_append]
      rfl
  exact h _ _ hbuf fun b hb => (length_of_mem_freadBlocks (by decide) hb).2

end OsTasks.Signal
