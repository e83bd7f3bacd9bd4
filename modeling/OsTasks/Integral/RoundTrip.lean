import OsTasks.Integral.TaskText
import OsTasks.Lib.Rounding

/-! What of a task survives the text: the worker's `sscanf` after the master's `sprintf`. -/
namespace OsTasks.Integral
open OsTasks.Lib

/-- How many directives match. -/
def matchedFields : ℕ → List Byte → ℕ
  | 0, m => if (scanLld m).isSome then 1 else 0
  | n + 1, m =>
    match scanLf m with
    | none => 0
    | some (_, m) => matchedFields n m + 1

/-- What the call of `sscanf` returns: the number of fields it fills. -/
def sscanfReturn (buff : List Byte) : ℕ := matchedFields 4 (cstr buff)

/-- The coordinates by name. The two structures and the text list them in different orders. -/
inductive Coord where
  | x1
  | x2
  | y1
  | y2
  deriving DecidableEq

def Task.coord (task : Task) : Coord → ℚ
  | .x1 => task.x1
  | .x2 => task.x2
  | .y1 => task.y1
  | .y2 => task.y2

def WorkerTask.coord (task : WorkerTask) : Coord → ℚ
  | .x1 => task.x1
  | .x2 => task.x2
  | .y1 => task.y1
  | .y2 => task.y2

/-- The task the worker decodes. -/
def Task.decoded (task : Task) : WorkerTask where
  x1 := rounded task.x1
  x2 := rounded task.x2
  y1 := rounded task.y1
  y2 := rounded task.y2
  numOfPoints := task.numOrPoints

theorem Task.coord_decoded (task : Task) (c : Coord) :
    task.decoded.coord c = rounded (task.coord c) := by
  cases c <;> rfl

theorem cstr_printOneTask (task : Task) (rest : List Byte) :
    cstr (printOneTask task ++ 0 :: rest) = printOneTask task := by
  have hzero : 0 ∉ printOneTask task := zero_notMem_printFields _ _
  rw [cstr_append_zero]
  exact (cstr_eq_self_iff _).mpr hzero

theorem sscanfTask_printOneTask (task : Task) (rest : List Byte) :
    sscanfTask (printOneTask task ++ 0 :: rest) = some task.decoded := by
  have hscan : scanFields 4 (printOneTask task) = some
      ([task.x1, task.y1, task.x2, task.y2].map rounded, task.numOrPoints) :=
    (@scanFields_eq_iff [task.x1, task.y1, task.x2, task.y2] _ (printOneTask task)
      (List.prefix_refl _)).mpr (significantLength_le _ _)
  unfold sscanfTask
  rw [cstr_printOneTask, hscan]
  rfl

theorem matchedFields_space (n : ℕ) (m : List Byte) :
    matchedFields n (space :: m) = matchedFields n m := by
  cases n with
  | zero =>
    unfold matchedFields
    rw [scanLld_space rfl]
  | succ n =>
    unfold matchedFields
    rw [scanLf_space rfl]

theorem matchedFields_printFields (coords : List ℚ) (points : ℤ) :
    matchedFields coords.length (printFields coords points) = coords.length + 1 := by
  induction coords with
  | nil =>
    have hscan := scanLld_signedDecimal points (stops_space [newline])
    rw [List.length_nil]
    unfold printFields matchedFields
    rw [hscan]
    rfl
  | cons q qs ih =>
    have hscan := scanLf_fixed6 q (stops_space (printFields qs points))
    unfold printFields
    rw [List.length_cons]
    unfold matchedFields
    rw [hscan]
    dsimp only
    rw [matchedFields_space, ih]

/-- The text fills every field of the worker's task: the count as it was, and each coordinate in the
field of its name within half a millionth. -/
theorem task_text_round_trip (task task' : Task) (rest rest' : List Byte) :
    ∃ t t' : WorkerTask,
      sscanfTask (printOneTask task ++ 0 :: rest) = some t ∧
      sscanfTask (printOneTask task' ++ 0 :: rest') = some t' ∧
      sscanfReturn (printOneTask task ++ 0 :: rest) = 5 ∧
      t.numOfPoints = task.numOrPoints ∧
      (∀ c, |t.coord c - task.coord c| ≤ 1 / 2000000) ∧
      (∀ c, (∃ k : ℤ, task.coord c = k / 10 ^ 6) → t.coord c = task.coord c) ∧
      ∀ c c', task.coord c = task'.coord c' → t.coord c = t'.coord c' := by
  refine ⟨task.decoded, task'.decoded, sscanfTask_printOneTask task rest,
    sscanfTask_printOneTask task' rest', ?_, rfl, ?_, ?_, ?_⟩
  · unfold sscanfReturn
    rw [cstr_printOneTask]
    exact matchedFields_printFields [task.x1, task.y1, task.x2, task.y2] _
  · intro c
    rw [task.coord_decoded]
    exact abs_rounded_sub_le _
  · intro c hc
    obtain ⟨k, hk⟩ := hc
    rw [task.coord_decoded]
    exact rounded_eq_self hk
  · intro c c' he
    rw [task.coord_decoded, task'.coord_decoded, he]

end OsTasks.Integral
