import OsTasks.Lib.Blocks
import OsTasks.Transfer.SharedMemory

/-! What the server writes for the blocks of a file: the client copies C strings, the server writes
whole segments and compares each one with "quit". -/
namespace OsTasks.Transfer.SharedMemory
open OsTasks.Lib

/-- What the server still writes when the segment holds `seg` and the client has yet to copy
`blocks`; none when it takes a data block for the end marker. -/
def served (seg : List Byte) : List (List Byte) → Option (List Byte)
  | [] => some []
  | b :: bs =>
    if quit ++ [0] <+: strncpy seg b b.length then none
    else (served (strncpy seg b b.length) bs).map (strncpy seg b b.length ++ ·)

/-- After its first NUL the block holds only NULs. -/
def NulPadded (b : List Byte) : Prop := ∀ x ∈ b.drop (strlen b), x = 0

/-- The files made of whole blocks that a C string copy keeps and no test takes for "quit". -/
def Carried (file : List Byte) : Prop :=
  size ∣ file.length ∧ ∀ b ∈ freadBlocks size file, NulPadded b ∧ ¬ quit ++ [0] <+: b

/-- What a full block leaves in the segment. -/
def image (b : List Byte) : List Byte := cstr b ++ List.replicate (size - strlen b) 0

private theorem strncpy_full {seg b : List Byte} (hseg : seg.length = size)
    (hb : b.length = size) : strncpy seg b b.length = image b := by
  have hs := strlen_le b
  unfold strncpy
  rw [List.take_length, hb]
  apply overwrite_of_length_le
  rw [hseg, List.length_append, List.length_replicate]
  change size ≤ strlen b + _
  omega

private theorem length_image {b : List Byte} (hb : b.length = size) :
    (image b).length = size := by
  have hs := strlen_le b
  unfold image
  rw [List.length_append, List.length_replicate]
  change strlen b + _ = _
  omega

private theorem image_eq_iff {b : List Byte} (hb : b.length = size) :
    image b = b ↔ NulPadded b := by
  have hl : (b.drop (strlen b)).length = size - strlen b := by rw [List.length_drop, hb]
  conv_lhs => rhs; rw [← cstr_append_drop b]
  unfold image
  rw [List.append_cancel_left_eq, eq_comm, List.eq_replicate_iff]
  exact and_iff_right hl

private theorem length_served {blocks : List (List Byte)} (hle : ∀ b ∈ blocks, b.length ≤ size)
    {seg o : List Byte} (hseg : seg.length = size) (h : served seg blocks = some o) :
    o.length = size * blocks.length := by
  induction blocks generalizing seg o with
  | nil => cases h; rfl
  | cons b bs ih =>
    have hs : (strncpy seg b b.length).length = size := by
      rw [length_strncpy (by rw [hseg]; exact hle b (by simp)), hseg]
    simp only [served] at h
    split_ifs at h
    obtain ⟨r, hr, rfl⟩ := Option.map_eq_some_iff.mp h
    rw [List.length_append, hs, ih (fun c hc => hle c (by simp [hc])) hs hr, List.length_cons,
      Nat.mul_succ, Nat.add_comm]

private theorem served_full {blocks : List (List Byte)} (hfull : ∀ b ∈ blocks, b.length = size)
    {seg : List Byte} (hseg : seg.length = size) (o : List Byte) :
    served seg blocks = some o ↔
      (∀ b ∈ blocks, ¬ quit ++ [0] <+: image b) ∧ (blocks.map image).flatten = o := by
  induction blocks generalizing seg o with
  | nil => simp [served]
  | cons b bs ih =>
    have hb := hfull b (by simp)
    have hrest := ih (fun c hc => hfull c (by simp [hc])) (length_image hb)
    simp only [served, strncpy_full hseg hb]
    split_ifs with hq
    · simp [hq]
    · simp only [Option.map_eq_some_iff, hrest, List.forall_mem_cons, List.map_cons,
        List.flatten_cons]
      constructor
      · rintro ⟨r, ⟨hr, rfl⟩, rfl⟩
        exact ⟨⟨hq, hr⟩, rfl⟩
      · rintro ⟨⟨-, hr⟩, rfl⟩
        exact ⟨_, ⟨hr, rfl⟩, rfl⟩

/-- The server writes the input exactly for the carried files. -/
theorem served_eq_file_iff (file : List Byte) :
    served (List.replicate size 0) (freadBlocks size file) = some file ↔ Carried file := by
  have hsize : 0 < size := by decide
  have hseg : (List.replicate size (0 : Byte)).length = size := List.length_replicate
  constructor
  · intro h
    have hfl := flatten_freadBlocks hsize file
    have hlen := length_served (fun b hb => (length_of_mem_freadBlocks hsize hb).2) hseg h
    have hfull := length_eq_of_length_flatten
      (fun b hb => (length_of_mem_freadBlocks hsize hb).2) (by rw [hfl, hlen])
    obtain ⟨hq, hm⟩ := (served_full hfull hseg file).mp h
    have himage : (freadBlocks size file).map image = freadBlocks size file := by
      refine List.eq_iff_flatten_eq.mpr ⟨hm.trans hfl.symm, ?_⟩
      rw [List.map_map]
      exact List.map_congr_left fun b hb => (length_image (hfull b hb)).trans (hfull b hb).symm
    have heq : ∀ b ∈ freadBlocks size file, image b = b := fun b hb =>
      List.map_inj_left.mp (himage.trans (List.map_id _).symm) b hb
    refine ⟨⟨_, hlen⟩, fun b hb => ⟨(image_eq_iff (hfull b hb)).mp (heq b hb), ?_⟩⟩
    exact fun hp => hq b hb (by rwa [heq b hb])
  · rintro ⟨hd, hb⟩
    have hfull : ∀ b ∈ freadBlocks size file, b.length = size := fun b hb =>
      length_of_mem_freadBlocks_of_dvd hsize hd hb
    have heq : ∀ b ∈ freadBlocks size file, image b = b := fun b hm =>
      (image_eq_iff (hfull b hm)).mpr (hb b hm).1
    refine (served_full hfull hseg file).mpr ⟨fun b hm => ?_, ?_⟩
    · rw [heq b hm]
      exact (hb b hm).2
    · have himage : (freadBlocks size file).map image = freadBlocks size file :=
        (List.map_congr_left heq).trans (List.map_id _)
      rw [himage, flatten_freadBlocks hsize]

end OsTasks.Transfer.SharedMemory
