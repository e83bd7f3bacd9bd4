import Mathlib.Data.List.GetD
import OsTasks.FileServer.Messages
import OsTasks.Lib.ScanAppend

/-! What `server_cmd` of task_7 makes of a message, and how much of it comes from what its arrays
held before. -/
namespace OsTasks.FileServer
open OsTasks.Lib

/-- Two calls that read `m` do the same, whatever their arrays held. -/
def OwnBytesOnly (m : List Byte) : Prop :=
  ∀ stack stack', ∃ c, command stack m = some c ∧ command stack' m = some c

/-- The scan stops within `m`, behind a word, and behind two names if that is `REG`. -/
def SelfContained (m : List Byte) : Prop :=
  ∃ words rest, scan 3 m = some (words, rest) ∧ words ≠ [] ∧
    (words.head? = some reg → words.length = 3)

/-- Arrays that hold no NUL, and these names. -/
def filled (cmd txFifo rxFifo : Name) : Stack where
  buf := List.replicate bufSize 0x78
  length_buf := List.length_replicate
  cmd := cmd
  txFifo := txFifo
  rxFifo := rxFifo

section Decode
variable {m : List Byte} {stack : Stack} {words : List (List Byte)} {rest : List Byte}

theorem scan_overwrite (h : scan 3 m = some (words, rest)) (stack : Stack) :
    scan 3 (overwrite stack.buf m) = some (words, rest ++ stack.buf.drop m.length) :=
  scan_append h _

theorem command_eq (h : scan 3 m = some (words, rest)) (stack : Stack) :
    command stack m = some (
      let cmd := words.getD 0 stack.cmd
      if cmd = off then .off
      else if cmd ≠ reg then .unknown
      else .reg (words.getD 1 stack.txFifo) (words.getD 2 stack.rxFifo)) := by
  unfold command
  rw [scan_overwrite h]
  rfl

/-- A scan that leaves the message goes on in what the array held. -/
theorem command_filled (h : scan 3 m = none) (cmd txFifo rxFifo : Name) :
    command (filled cmd txFifo rxFifo) m = none := by
  have hrest : ∀ b ∈ (filled cmd txFifo rxFifo).buf.drop m.length, isToken b = true := by
    intro b hb
    have hx := List.eq_of_mem_replicate (List.mem_of_mem_drop hb)
    rw [hx]
    decide
  have hscan : scan 3 (overwrite (filled cmd txFifo rxFifo).buf m) = none :=
    scan_append_eq_none h hrest
  unfold command
  rw [hscan]
  rfl

theorem command_of_three {a b c : Name} (h : scan 3 m = some ([a, b, c], rest)) (stack : Stack) :
    command stack m =
      some (if a = off then .off else if a ≠ reg then .unknown else .reg b c) :=
  command_eq h stack

theorem command_of_head {a : Name} {words : List (List Byte)}
    (h : scan 3 m = some (a :: words, rest)) (ha : a ≠ reg) (stack : Stack) :
    command stack m = some (if a = off then .off else .unknown) := by
  rw [command_eq h]
  simp only [List.getD_cons_zero, if_pos ha]

end Decode

/-- A message is decoded from its own bytes alone exactly when it ends its words itself and has all
that `server_cmd` goes on to use. -/
theorem ownBytesOnly_iff (m : List Byte) : OwnBytesOnly m ↔ SelfContained m := by
  constructor
  · intro h
    cases hscan : scan 3 m with
    | none =>
      obtain ⟨c, hc, _⟩ := h (filled [] [] []) (filled [] [] [])
      rw [command_filled hscan] at hc
      cases hc
    | some r =>
      obtain ⟨words, rest⟩ := r
      refine ⟨words, rest, hscan, ?_, ?_⟩
      · rintro rfl
        obtain ⟨c, hoff, hnil⟩ := h (filled off [] []) (filled [] [] [])
        rw [command_eq hscan] at hoff hnil
        cases hoff
        cases hnil
      · intro hreg
        have hle := length_le_of_scan hscan
        by_contra hlen
        obtain ⟨c, hshort, hlong⟩ := h (filled [] [] []) (filled [] [] [0x78])
        rw [command_eq hscan] at hshort hlong
        obtain ⟨ws, rfl⟩ := List.head?_eq_some_iff.mp hreg
        have hnone : (reg :: ws).length ≤ 2 := by
          dsimp only at hle
          omega
        have hrx : ∀ d, (reg :: ws).getD 2 d = d := fun d => List.getD_eq_default _ _ hnone
        have hne : reg ≠ off := by decide
        simp only [List.getD_cons_zero, hrx, if_neg hne, ne_eq, not_true_eq_false, if_false] at hshort hlong
        rw [← hlong] at hshort
        cases hshort
  · rintro ⟨words, rest, hscan, hne, hreg⟩ stack stack'
    obtain ⟨a, ws, rfl⟩ := List.exists_cons_of_ne_nil hne
    by_cases ha : a = reg
    · have hlen : ws.length = 2 := Nat.succ.inj (hreg (by rw [ha]; rfl))
      obtain ⟨b, c, rfl⟩ := List.length_eq_two.mp hlen
      exact ⟨_, command_of_three hscan stack, command_of_three hscan stack'⟩
    · exact ⟨_, command_of_head hscan ha stack, command_of_head hscan ha stack'⟩

/-- "REG a b", as `printf` writes it without a newline. -/
def unterminated : List Byte := reg ++ [space, 0x61, space, 0x62]

/-- A buffer of zeros in which an earlier message left `b` as the eighth byte. -/
def leftover (b : Byte) : Stack where
  buf := List.replicate 7 0 ++ b :: List.replicate 1016 0
  length_buf := by
    rw [List.length_append, List.length_cons, List.length_replicate, List.length_replicate]
    rfl
  cmd := []
  txFifo := []
  rxFifo := []

/-- The name goes on in the earlier message. -/
theorem unterminated_not_own :
    ¬ OwnBytesOnly unterminated ∧
      command (leftover 0) unterminated = some (.reg [0x61] [0x62]) ∧
      command (leftover 0x63) unterminated = some (.reg [0x61] [0x62, 0x63]) := by
  have hzero : command (leftover 0) unterminated = some (.reg [0x61] [0x62]) := by decide +kernel
  have hleft : command (leftover 0x63) unterminated = some (.reg [0x61] [0x62, 0x63]) := by
    decide +kernel
  refine ⟨?_, hzero, hleft⟩
  intro h
  obtain ⟨c, hc, hc'⟩ := h (leftover 0) (leftover 0x63)
  have hsame := hc.trans hc'.symm
  rw [hzero, hleft] at hsame
  exact absurd hsame (by decide)

end OsTasks.FileServer
