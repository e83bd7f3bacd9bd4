import Mathlib.Data.List.GetD
import OsTasks.Lib.CString
import OsTasks.Lib.Blocks

/-! The named-FIFO transfer of task_3/fifo: the writer's blocks, the reader's loop over an
arbitrary cut of the byte stream, and the reads on which the reader stops. -/
namespace OsTasks.Transfer.NamedFifo
open OsTasks.Lib

/-- `sizeof(buf)` of both programs. -/
def bufSize : ℕ := 4096

/-- "quit" -/
def quit : List Byte := [0x71, 0x75, 0x69, 0x74]

/-- The blocks the writer's loop passes to `write`. When `fread` returns 0 it stores "quit"
in its own buffer and leaves the loop without writing it. -/
def writerMain (file : List Byte) : List (List Byte) := freadBlocks (bufSize - 1) file

inductive ReaderEnd where
  | eof
  | quit
  deriving DecidableEq

/-- The reader's loop; each element of the list is what one `read` returns, and the end of
the list is the `read` that returns 0. -/
def readerMain (buf output : List Byte) : List (List Byte) → List Byte × ReaderEnd
  | [] => (output, .eof)
  | p :: ps =>
    let buf := overwrite buf p
    if p.length = 4 ∧ strcmp buf (quit ++ [0]) = some 0 then (output, .quit)
    else readerMain buf (output ++ buf.take p.length) ps

/-- The reads cut the stream into pieces of 1 to `bufSize - 1` bytes. -/
structure Cut (stream : List Byte) (pieces : List (List Byte)) : Prop where
  flatten : pieces.flatten = stream
  size : ∀ p ∈ pieces, 0 < p.length ∧ p.length ≤ bufSize - 1

/-- Byte 4 of the buffer after the reads `ps`: a read of five or more bytes replaces it. -/
def byteFour (b : Byte) (ps : List (List Byte)) : Byte := ps.foldl (fun b p => p.getD 4 b) b

@[simp] theorem writerMain_flatten (file : List Byte) : (writerMain file).flatten = file :=
  flatten_freadBlocks (by decide) file

private theorem getD_four_overwrite (buf p : List Byte) :
    (overwrite buf p).getD 4 0 = p.getD 4 (buf.getD 4 0) := by
  simp only [overwrite, List.getD_eq_getElem?_getD]
  by_cases h : 4 < p.length
  · rw [List.getElem?_append_left h, List.getElem?_eq_getElem h, Option.getD_some, Option.getD_some]
  · rw [List.getElem?_append_right (by omega), List.getElem?_drop,
      List.getElem?_eq_none (by omega : p.length ≤ 4), Option.getD_none]
    congr 2
    omega

/-- The reader's test sees the four bytes just read and the byte an earlier read left. -/
theorem strcmp_quit_iff {buf p : List Byte} (hbuf : buf.length = bufSize) (hp : p.length = 4) :
    strcmp (overwrite buf p) (quit ++ [0]) = some 0 ↔ p = quit ∧ buf.getD 4 0 = 0 := by
  have h4 : 4 < buf.length := by rw [hbuf]; decide
  have hs : (overwrite buf p).take 5 = p ++ [buf.getD 4 0] := by
    unfold overwrite
    rw [hp, List.drop_eq_getElem_cons h4, List.take_append, hp,
      List.take_of_length_le (by omega), List.getD_eq_getElem _ _ h4]
    rfl
  rw [strcmp_eq_zero_iff (by decide), List.prefix_iff_eq_take]
  change quit ++ [0] = (overwrite buf p).take 5 ↔ _
  rw [hs]
  constructor
  · intro h
    obtain ⟨hq, hb⟩ := List.append_inj' h rfl
    exact ⟨hq.symm, (List.singleton_inj.mp hb).symm⟩
  · rintro ⟨rfl, hb⟩
    rw [hb]

/-- One read: the loop ends here exactly on "quit" with a NUL left in byte 4. -/
theorem readerMain_cons {buf p : List Byte} (hbuf : buf.length = bufSize)
    (output : List Byte) (ps : List (List Byte)) :
    readerMain buf output (p :: ps) =
      if p = quit ∧ buf.getD 4 0 = 0 then (output, .quit)
      else readerMain (overwrite buf p) (output ++ p) ps := by
  have hc : (p.length = 4 ∧ strcmp (overwrite buf p) (quit ++ [0]) = some 0) ↔
      (p = quit ∧ buf.getD 4 0 = 0) := by
    constructor
    · rintro ⟨hp, hs⟩
      exact (strcmp_quit_iff hbuf hp).mp hs
    · rintro ⟨rfl, hb⟩
      exact ⟨rfl, (strcmp_quit_iff hbuf rfl).mpr ⟨rfl, hb⟩⟩
  simp only [readerMain, hc, take_overwrite]

theorem readerMain_prefix {ps : List (List Byte)} (hps : ∀ p ∈ ps, p.length ≤ bufSize)
    {buf : List Byte} (hbuf : buf.length = bufSize) (output : List Byte) :
    (readerMain buf output ps).1 <+: output ++ ps.flatten := by
  induction ps generalizing buf output with
  | nil => simp [readerMain]
  | cons p ps ih =>
    have hb : (overwrite buf p).length = bufSize := by
      rw [length_overwrite (by rw [hbuf]; exact hps p (by simp)), hbuf]
    rw [readerMain_cons hbuf]
    split_ifs
    · exact List.prefix_append _ _
    · rw [List.flatten_cons, ← List.append_assoc]
      exact ih (fun q hq => hps q (by simp [hq])) hb _

private theorem readerMain_eof_iff {ps : List (List Byte)} (hps : ∀ p ∈ ps, p.length ≤ bufSize)
    {buf : List Byte} (hbuf : buf.length = bufSize) (output : List Byte) :
    readerMain buf output ps = (output ++ ps.flatten, .eof) ↔
      ∀ as bs, ps = as ++ quit :: bs → byteFour (buf.getD 4 0) as ≠ 0 := by
  induction ps generalizing buf output with
  | nil => simp [readerMain]
  | cons p ps ih =>
    have hb : (overwrite buf p).length = bufSize := by
      rw [length_overwrite (by rw [hbuf]; exact hps p (by simp)), hbuf]
    rw [readerMain_cons hbuf]
    split_ifs with hq
    · refine ⟨fun h => by simp at h, fun h => ?_⟩
      exact absurd hq.2 (h [] ps (by rw [hq.1]; rfl))
    · rw [List.flatten_cons, ← List.append_assoc,
        ih (fun q hq => hps q (by simp [hq])) hb, getD_four_overwrite]
      constructor
      · intro h as bs he
        cases as with
        | nil =>
          obtain ⟨rfl, rfl⟩ := List.cons_eq_cons.mp he
          exact fun hz => hq ⟨rfl, hz⟩
        | cons a as =>
          obtain ⟨rfl, rfl⟩ := List.cons_eq_cons.mp he
          exact h as bs rfl
      · intro h as bs he
        exact h (p :: as) bs (by rw [he]; rfl)

/-- The reader copies the whole file and ends at end of file exactly when no read returns
"quit" while byte 4 of the buffer holds a NUL. -/
theorem readerMain_eq_file_iff {file buf : List Byte} {pieces : List (List Byte)}
    (hbuf : buf.length = bufSize) (hcut : Cut (writerMain file).flatten pieces) :
    readerMain buf [] pieces = (file, .eof) ↔
      ∀ before after, pieces = before ++ quit :: after → byteFour (buf.getD 4 0) before ≠ 0 := by
  have hps : ∀ p ∈ pieces, p.length ≤ bufSize := fun p hp =>
    (hcut.size p hp).2.trans (Nat.sub_le _ _)
  have hf : file = [] ++ pieces.flatten := by
    rw [hcut.flatten, writerMain_flatten, List.nil_append]
  rw [← readerMain_eof_iff hps hbuf [], ← hf]

/-- A reader whose buffer was filled with ones copies a file that holds just "quit". -/
theorem readerMain_quit_of_ones :
    readerMain (List.replicate bufSize 1) [] [quit] = (quit, .eof) := by
  have hcut : Cut (writerMain quit).flatten [quit] := ⟨by rw [writerMain_flatten]; rfl, by decide⟩
  refine (readerMain_eq_file_iff List.length_replicate hcut).mpr fun as bs h => ?_
  cases as with
  | nil => rw [List.getD_replicate 1 (by decide : 4 < bufSize)]; decide
  | cons a as => simp at h

/-- A file of the four bytes "quit", read in one piece into a zeroed buffer, is dropped. -/
theorem readerMain_stops_on_data :
    Cut (writerMain quit).flatten [quit] ∧
      readerMain (List.replicate bufSize 0) [] [quit] = ([], .quit) ∧
      readerMain (List.replicate bufSize 0) [] [quit] ≠ (quit, .eof) := by
  have h : readerMain (List.replicate bufSize 0) [] [quit] = ([], .quit) := by
    rw [readerMain_cons List.length_replicate, if_pos]
    exact ⟨rfl, List.getD_replicate 0 (by decide : 4 < bufSize)⟩
  exact ⟨⟨by rw [writerMain_flatten]; rfl, by decide⟩, h, by rw [h]; decide⟩

end OsTasks.Transfer.NamedFifo
