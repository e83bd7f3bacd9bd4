import OsTasks.Integral.RoundTrip
import Mathlib.Data.List.GetD

/-! The worker of task_8 from the `read` of its task to the `write` of a result. -/
namespace OsTasks.Integral
open OsTasks.Lib

/-- How the directives `%lf` and `%lld` are read: the value and what follows, or a failure. -/
structure Directives (F : Type) where
  lf : List Byte → Option (F × List Byte)
  lld : List Byte → Option (CLongLong × List Byte)

/-- `n` directives `%lf` and a `%lld`: the coordinates up to the first failure, and the count. -/
def Directives.fields {F : Type} (D : Directives F) : ℕ → List Byte → List F × Option CLongLong
  | 0, m => ([], (D.lld m).map Prod.fst)
  | n + 1, m =>
    match D.lf m with
    | none => ([], none)
    | some (q, m) => (q :: (D.fields n m).1, (D.fields n m).2)

/-- The worker's `struct Task` over the values that a `double` has. -/
structure TaskOf (F : Type) where
  x1 : F
  x2 : F
  y1 : F
  y2 : F
  numOfPoints : CLongLong

/-- What `sscanf` makes of a text: the number of fields it converts, and a task that was zero
before. -/
structure Parsed (F : Type) where
  converted : ℕ
  task : TaskOf F

def Directives.sscanf {F : Type} [Zero F] (D : Directives F) (text : List Byte) : Parsed F :=
  let r := D.fields 4 text
  { converted := r.1.length + if r.2.isSome then 1 else 0
    task := {
      x1 := r.1.getD 0 0
      y1 := r.1.getD 1 0
      x2 := r.1.getD 2 0
      y2 := r.1.getD 3 0
      numOfPoints := r.2.getD 0 } }

/-- What `read` returns: -1, or at most the size of `buff`. No bytes are the end of the stream. -/
inductive ReadOutcome where
  | failure
  | received (bytes : List Byte) (length_le : bytes.length ≤ bufSize)

/-- `len` -/
def ReadOutcome.len : ReadOutcome → ℤ
  | .failure => -1
  | .received bytes _ => bytes.length

/-- What is parsed before `monte_carlo` is run on the task and its result is sent, in any case. A NUL
that is stored outside `buff` has no result. -/
def handleConnection {F : Type} [Zero F] (D : Directives F) (buff : List Byte) :
    ReadOutcome → Option (Parsed F)
  | .failure => none
  | .received bytes _ =>
    if bytes.length < bufSize then some (D.sscanf (cstr (overwrite buff (bytes ++ [0])))) else none

/-- The NUL is stored inside `buff`, and a result is sent for a whole task with points alone. -/
structure InputChecked {F : Type} [Zero F] (D : Directives F) (buff : List Byte)
    (r : ReadOutcome) : Prop where
  terminator : 0 ≤ r.len ∧ r.len < bufSize
  sent : ∀ p, handleConnection D buff r = some p → p.converted = 5 ∧ 0 < p.task.numOfPoints.val

section Fields
variable {F : Type} {D : Directives F}

theorem length_fields {n : ℕ} {m : List Byte} (h : (D.fields n m).2.isSome) :
    (D.fields n m).1.length = n := by
  induction n generalizing m with
  | zero => rfl
  | succ n ih =>
    unfold Directives.fields at h ⊢
    cases hlf : D.lf m with
    | none =>
      rw [hlf] at h
      cases h
    | some r =>
      rw [hlf] at h
      exact congrArg (· + 1) (ih h)

variable [Zero F]

theorem converted_of_points {m : List Byte} (h : 0 < (D.sscanf m).task.numOfPoints.val) :
    (D.sscanf m).converted = 5 := by
  have hcount : (D.fields 4 m).2.isSome := by
    by_contra hnone
    rw [Option.not_isSome_iff_eq_none] at hnone
    unfold Directives.sscanf at h
    simp only [hnone, Option.getD_none, SInt.val_zero, lt_self_iff_false] at h
  have hlen := length_fields hcount
  unfold Directives.sscanf
  simp only [hlen, hcount, if_true]

theorem cstr_received (buff bytes : List Byte) :
    cstr (overwrite buff (bytes ++ [0])) = cstr bytes := by
  unfold overwrite
  rw [List.append_assoc]
  exact cstr_append_zero bytes _

theorem handleConnection_received {bytes : List Byte} {hle : bytes.length ≤ bufSize}
    (h : bytes.length < bufSize) (buff : List Byte) :
    handleConnection D buff (.received bytes hle) = some (D.sscanf (cstr bytes)) := by
  unfold handleConnection
  dsimp only
  rw [if_pos h, cstr_received]

/-- The worker handles what it reads as it should when that leaves room for the NUL and its text
gives a number of points. -/
theorem inputChecked_iff (D : Directives F) (buff : List Byte) (r : ReadOutcome) :
    InputChecked D buff r ↔ ∃ bytes h, r = .received bytes h ∧ bytes.length < bufSize ∧
      0 < (D.sscanf (cstr bytes)).task.numOfPoints.val := by
  constructor
  · intro h
    have hlen := h.terminator
    cases r with
    | failure => exact absurd hlen.1 (by decide)
    | received bytes hle =>
      have hroom : bytes.length < bufSize := Int.ofNat_lt.mp hlen.2
      have hsent := h.sent _ (handleConnection_received hroom buff)
      exact ⟨bytes, hle, rfl, hroom, hsent.2⟩
  · rintro ⟨bytes, hle, rfl, hroom, hpoints⟩
    refine ⟨⟨Int.natCast_nonneg _, Int.ofNat_lt.mpr hroom⟩, ?_⟩
    intro p hp
    rw [handleConnection_received hroom] at hp
    cases hp
    exact ⟨converted_of_points hpoints, hpoints⟩

end Fields

/-- Numbers in decimal. A count outside its type is the nearest in it. -/
def decimalDirectives : Directives ℚ where
  lf := scanLf
  lld := fun m => (scanLld m).map fun r => (.clamp 64 r.1, r.2)

theorem fields_decimal {n : ℕ} {m : List Byte} {r : List ℚ × CLongLong}
    (h : scanFields n m = some r) :
    let f := decimalDirectives.fields n m
    matchedFields n m = f.1.length + (if f.2.isSome then 1 else 0) ∧
      (∃ k, r.1 = f.1 ++ List.replicate k 0) ∧ r.2 = f.2.getD 0 := by
  induction n generalizing m r with
  | zero =>
    obtain ⟨c, hc, rfl⟩ := Option.map_eq_some_iff.mp h
    have hval := SInt.ofInt?_eq_some_iff.mp hc
    have hlld : decimalDirectives.lld m = (scanLld m).map fun r => (.clamp 64 r.1, r.2) := rfl
    unfold valueLld at hval
    unfold matchedFields Directives.fields
    rw [hlld]
    cases hs : scanLld m with
    | none =>
      rw [hs] at hval
      have hzero : c = 0 := SInt.ext_val hval
      exact ⟨by simp, ⟨0, rfl⟩, hzero⟩
    | some p =>
      rw [hs] at hval
      have hp : c.val = p.1 := hval
      have hclamp : SInt.clamp 64 p.1 = c := by
        rw [← hp]
        exact SInt.clamp_val c
      exact ⟨by simp, ⟨0, rfl⟩, hclamp.symm⟩
  | succ n ih =>
    unfold scanFields at h
    unfold matchedFields Directives.fields
    have hlf : decimalDirectives.lf m = scanLf m := rfl
    rw [hlf]
    cases hs : scanLf m with
    | none =>
      rw [hs] at h
      cases h
      exact ⟨rfl, ⟨n + 1, rfl⟩, rfl⟩
    | some p =>
      rw [hs] at h
      obtain ⟨r', hr', rfl⟩ := Option.map_eq_some_iff.mp h
      obtain ⟨hmatched, ⟨k, hk⟩, hcount⟩ := ih hr'
      refine ⟨?_, ⟨k, congrArg (p.1 :: ·) hk⟩, hcount⟩
      dsimp only
      rw [hmatched, List.length_cons]
      omega

/-- On decimal numbers it is the reading of the task's text. -/
theorem sscanf_decimal {buff : List Byte} {t : WorkerTask} (h : sscanfTask buff = some t) :
    let p := decimalDirectives.sscanf (cstr buff)
    p.converted = sscanfReturn buff ∧
      t = ⟨p.task.x1, p.task.x2, p.task.y1, p.task.y2, p.task.numOfPoints⟩ := by
  obtain ⟨r, hr, rfl⟩ := Option.map_eq_some_iff.mp h
  obtain ⟨hmatched, ⟨k, hk⟩, hcount⟩ := fields_decimal hr
  have hget : ∀ i, r.1.getD i 0 = (decimalDirectives.fields 4 (cstr buff)).1.getD i 0 := by
    intro i
    have hzeros : ∀ j, (List.replicate k (0 : ℚ)).getD j 0 = 0 := by
      intro j
      rw [List.getD_eq_getElem?_getD, List.getElem?_replicate]
      split_ifs <;> rfl
    rw [hk]
    rcases lt_or_ge i (decimalDirectives.fields 4 (cstr buff)).1.length with hi | hi
    · exact List.getD_append _ _ _ _ hi
    · rw [List.getD_append_right _ _ _ _ hi, List.getD_eq_default _ _ hi, hzeros]
  refine ⟨hmatched.symm, ?_⟩
  unfold WorkerTask.ofFields Directives.sscanf
  rw [hget, hget, hget, hget, hcount]

/-- A master that closes the connection before it sends a task, and one that fills `buff`. -/
theorem end_of_stream_not_checked :
    ¬ InputChecked decimalDirectives (List.replicate bufSize 0) (.received [] (Nat.zero_le _)) ∧
      ¬ InputChecked decimalDirectives (List.replicate bufSize 0)
        (.received (List.replicate bufSize space) List.length_replicate.le) := by
  constructor
  · intro h
    have hsent := h.sent _ (handleConnection_received (by decide) _)
    exact absurd hsent.2 (by decide +kernel)
  · intro h
    have hroom := Int.ofNat_lt.mp h.terminator.2
    rw [List.length_replicate] at hroom
    exact lt_irrefl _ hroom

end OsTasks.Integral
