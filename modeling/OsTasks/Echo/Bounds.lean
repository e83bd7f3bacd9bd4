import OsTasks.Echo.Phases

/-! Which bytes of its data block each process reads and writes, and when they are all in the
block. -/
namespace OsTasks.Echo
open OsTasks.Lib

/-- `strlen` reads up to the NUL, or one byte behind a block that has none. -/
def strlenReads (data : List Byte) : List ℕ := List.range (strlen data + 1)

/-- Reads or writes of `self->len` bytes, in `write` and `fwrite`. -/
def countedReads (p : Pipe) : List ℕ := List.range p.len

/-- The bytes that `read` stores. -/
def rcvWrites (q : List Byte) : List ℕ := List.range (q.take bufSize).length

/-- What `fread` stores, then the terminator, then the scan of a short block. -/
def loadAccesses (p : Pipe) (block : List Byte) : List ℕ :=
  List.range block.length ++ block.length ::
    if block.length = bufSize then [] else strlenReads ((overwrite p.data block).set block.length 0)

/-- The indices in its data block that the step of a process accesses. -/
def accesses (s : State) : Party → List ℕ
  | .parent =>
    match s.parent with
    | .fread =>
      match s.rest.take bufSize with
      | [] => List.range (exit ++ [0]).length
      | b :: bs => loadAccesses s.parentPipe (b :: bs)
    | .snd => countedReads s.parentPipe
    | .rcv => rcvWrites s.back
    | .fwrite => countedReads s.parentPipe
    | .sndExit => countedReads s.parentPipe
    | .done => []
  | .child =>
    match s.child with
    | .rcv => rcvWrites s.direct
    | .test => List.range (strcmpReads s.childPipe.data (exit ++ [0]))
    | .snd => countedReads s.childPipe
    | .done => []

/-- No process gets to a step that accesses a byte outside its data block. -/
def BufferBounds (file : List Byte) : Prop :=
  ∀ s, (echo file).Reachable s → ∀ p t, step s p = some t → ∀ i ∈ accesses s p, i < bufSize

section Step
variable {s t : State}

theorem length_rest_le {p : Party} (ht : step s p = some t) : t.rest.length ≤ s.rest.length := by
  have hdrop : (s.rest.drop bufSize).length ≤ s.rest.length := by
    rw [List.length_drop]
    omega
  cases p with
  | parent =>
    simp only [step, parentStep] at ht
    cases hp : s.parent <;> simp only [hp] at ht
    case fread =>
      split at ht <;> cases ht
      · exact le_rfl
      · exact hdrop
    case fwrite =>
      cases ht
      exact le_rfl
    case done => cases ht
    all_goals
      obtain ⟨r, _, rfl⟩ := Option.map_eq_some_iff.mp ht
      exact le_rfl
  | child =>
    simp only [step, childStep] at ht
    cases hc : s.child <;> simp only [hc] at ht
    case test => split_ifs at ht <;> cases ht <;> exact le_rfl
    case done => cases ht
    all_goals
      obtain ⟨r, _, rfl⟩ := Option.map_eq_some_iff.mp ht
      exact le_rfl

theorem countedReads_lt {p : Pipe} (hp : p.len ≤ bufSize) : ∀ i ∈ countedReads p, i < bufSize :=
  fun _ hi => (List.mem_range.mp hi).trans_le hp

theorem rcvWrites_lt (q : List Byte) : ∀ i ∈ rcvWrites q, i < bufSize :=
  fun _ hi => (List.mem_range.mp hi).trans_le (List.length_take_le _ _)

theorem exitWrites_lt : ∀ i ∈ List.range (exit ++ [0]).length, i < bufSize :=
  fun _ hi => (List.mem_range.mp hi).trans (show 5 < 4096 by omega)

/-- The terminator of a short block is in the data block, and ends the scan there. -/
theorem loadAccesses_lt {p : Pipe} {block : List Byte} (hd : p.data.length = bufSize)
    (hb : block.length < bufSize) : ∀ i ∈ loadAccesses p block, i < bufSize := by
  have hblock : (overwrite p.data block).set block.length 0 =
      block ++ 0 :: p.data.drop (block.length + 1) := by
    unfold overwrite
    rw [List.set_append_right _ _ le_rfl, Nat.sub_self,
      List.drop_eq_getElem_cons (by rw [hd]; omega), List.set_cons_zero]
  have hscan : strlen ((overwrite p.data block).set block.length 0) ≤ block.length := by
    rw [hblock]
    unfold strlen
    rw [cstr_append_zero]
    exact (cstr_isPrefix block).length_le
  intro i hi
  unfold loadAccesses at hi
  rw [if_neg hb.ne] at hi
  rcases List.mem_append.mp hi with hi | hi
  · exact (List.mem_range.mp hi).trans hb
  · rcases List.mem_cons.mp hi with rfl | hi
    · exact hb
    · have hlt := List.mem_range.mp hi
      omega

theorem accesses_lt {e : Option (List Byte)} (h : Inv e s) (hrest : s.rest.length < bufSize)
    (p : Party) : ∀ i ∈ accesses s p, i < bufSize := by
  cases p with
  | parent =>
    unfold accesses
    cases hp : s.parent with
    | fread =>
      dsimp only
      split
      · exact exitWrites_lt
      · rename_i b bs hblock
        apply loadAccesses_lt h.parent_data
        rw [← hblock, List.length_take]
        omega
    | snd => exact countedReads_lt h.parent_len
    | rcv => exact rcvWrites_lt s.back
    | fwrite => exact countedReads_lt h.parent_len
    | sndExit => exact countedReads_lt h.parent_len
    | done => exact fun i hi => absurd hi List.not_mem_nil
  | child =>
    unfold accesses
    cases hc : s.child with
    | rcv => exact rcvWrites_lt s.direct
    | test =>
      have hreads : strcmpReads s.childPipe.data (exit ++ [0]) ≤ 5 := strcmpReads_le _ exit
      intro i hi
      have hlt := List.mem_range.mp hi
      change i < 4096
      omega
    | snd => exact countedReads_lt h.child_len
    | done => exact fun i hi => absurd hi List.not_mem_nil

end Step

theorem length_rest_of_reachable {file : List Byte} {s : State} (hs : (echo file).Reachable s) :
    s.rest.length ≤ file.length :=
  hs.invariant (I := fun s => s.rest.length ≤ file.length) le_rfl
    fun _ _ _ h ht => (length_rest_le ht).trans h

/-- The first block of a file is full when the file has as many bytes. Its terminator is stored
behind the data block. -/
theorem terminator_outside {file : List Byte} (h : bufSize ≤ file.length) :
    (∃ t, step (echo file).init .parent = some t) ∧ bufSize ∈ accesses (echo file).init .parent := by
  have hlen : (file.take bufSize).length = bufSize := by
    rw [List.length_take]
    omega
  obtain ⟨b, bs, hblock⟩ : ∃ b bs, file.take bufSize = b :: bs := by
    apply List.exists_cons_of_length_pos
    rw [hlen]
    exact Nat.zero_lt_succ 4095
  rw [hblock] at hlen
  refine ⟨?_, ?_⟩
  · change ∃ t, parentStep (echo file).init = some t
    simp only [echo, parentStep, hblock]
    exact ⟨_, rfl⟩
  · simp only [echo, accesses, hblock, loadAccesses, hlen]
    exact List.mem_append_right _ List.mem_cons_self

/-- All accesses are in the data block exactly when the file is shorter than the block. -/
theorem bufferBounds_iff (file : List Byte) : BufferBounds file ↔ file.length < bufSize := by
  constructor
  · intro hbounds
    by_contra hlong
    obtain ⟨⟨t, ht⟩, hmem⟩ := terminator_outside (not_lt.mp hlong)
    exact lt_irrefl _ (hbounds _ (echo file).reachable_init .parent t ht bufSize hmem)
  · intro hshort s hs p t _
    have hrest := length_rest_of_reachable hs
    exact accesses_lt (inv_of_reachable hs) (hrest.trans_lt hshort) p

/-- A file of one full block. -/
theorem full_block_out_of_bounds : ¬ BufferBounds (List.replicate 4096 0x61) := by
  intro hbounds
  obtain ⟨⟨t, ht⟩, hmem⟩ := terminator_outside
    List.length_replicate.ge
  exact lt_irrefl _ (hbounds _ Machine.reachable_init .parent t ht bufSize hmem)

end OsTasks.Echo
