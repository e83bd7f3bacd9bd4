import OsTasks.Integral.Split
import OsTasks.Lib.CutNumber

/-! The text in which the master of task_8 sends a task to a worker: how it is written, what the
worker reads of it, and how much of it the worker needs. -/
namespace OsTasks.Integral
open OsTasks.Lib

/-- `BUF_SIZE`. -/
def bufSize : ℕ := 4096

def space : Byte := 0x20

def newline : Byte := 0x0a

/-- Coordinates in `%lf`, a count in `%lld` and the end of the line, with a space after each. -/
def printFields : List ℚ → ℤ → List Byte
  | [], points => signedDecimal points ++ [space, newline]
  | q :: qs, points => fixed6 q ++ space :: printFields qs points

/-- What `print_one_task` stores before its NUL. -/
def printOneTask (task : Task) : List Byte :=
  printFields [task.x1, task.y1, task.x2, task.y2] task.numOrPoints.val

/-- What `send_task` writes. A text that leaves `buffer` has no result. -/
def taskMessage (task : Task) : Option (List Byte) :=
  if (printOneTask task).length < bufSize then some (printOneTask task) else none

/-- The worker's `struct Task`. -/
structure WorkerTask where
  x1 : ℚ
  x2 : ℚ
  y1 : ℚ
  y2 : ℚ
  numOfPoints : CLongLong
  deriving DecidableEq

/-- Directives `%lf` and a `%lld` into fields that are zero. A directive that fails ends the call;
a count outside its type has no result. -/
def scanFields : ℕ → List Byte → Option (List ℚ × CLongLong)
  | 0, m => (SInt.ofInt? 64 (valueLld m)).map fun points => ([], points)
  | n + 1, m =>
    match scanLf m with
    | none => some (List.replicate (n + 1) 0, 0)
    | some (q, m) => (scanFields n m).map fun r => (q :: r.1, r.2)

/-- The fields in the order of the directives. -/
def WorkerTask.ofFields (r : List ℚ × CLongLong) : WorkerTask where
  x1 := r.1.getD 0 0
  y1 := r.1.getD 1 0
  x2 := r.1.getD 2 0
  y2 := r.1.getD 3 0
  numOfPoints := r.2

def sscanfTask (buff : List Byte) : Option WorkerTask :=
  (scanFields 4 (cstr buff)).map WorkerTask.ofFields

/-- The worker takes the task from the first segment alone. Of a segment that fills `buff`, the NUL
would be stored past its end. -/
def receiveTask (buff : List Byte) : List (List Byte) → Option WorkerTask
  | [] => none
  | segment :: _ =>
    if segment.length < bufSize then sscanfTask (overwrite buff (segment ++ [0])) else none

/-- How many characters of the text are needed to read all fields back. -/
def significantLength : List ℚ → ℤ → ℕ
  | [], points => significantLld points
  | q :: qs, points =>
    if significantLength qs points = 0 then significantLf q
    else (fixed6 q).length + 1 + significantLength qs points

theorem stops_space (m : List Byte) : Stops (space :: m) := by
  intro b hb
  cases hb
  rfl

theorem valueLld_space (m : List Byte) : valueLld (space :: m) = valueLld m := by
  unfold valueLld
  rw [scanLld_space rfl]

theorem scanFields_space (n : ℕ) (m : List Byte) : scanFields n (space :: m) = scanFields n m := by
  cases n with
  | zero =>
    unfold scanFields
    rw [valueLld_space]
  | succ n =>
    unfold scanFields
    rw [scanLf_space rfl]

theorem scanFields_nil (n : ℕ) : scanFields n [] = some (List.replicate n 0, 0) := by
  cases n with
  | zero => rfl
  | succ n => rfl

theorem scanFields_cut {q : ℚ} {p : List Byte} (h : p <+: fixed6 q) (n : ℕ) :
    scanFields (n + 1) p = some (valueLf p :: List.replicate n 0, 0) := by
  unfold scanFields valueLf
  rcases scanLf_cut_rest h with hs | ⟨v, hs⟩
  · rw [hs]
    rfl
  · rw [hs]
    dsimp only
    rw [scanFields_nil]
    rfl

theorem significantLf_le (q : ℚ) : significantLf q ≤ (fixed6 q).length := by
  have hscan := scanLf_fixed6 q stops_nil
  rw [List.append_nil] at hscan
  apply (valueLf_cut_iff (List.prefix_refl _)).mp
  unfold valueLf
  rw [hscan]
  rfl

theorem scanFields_zero_iff {points : CLongLong} {p : List Byte}
    (h : p <+: signedDecimal points.val ++ [space, newline]) :
    scanFields 0 p = some ([], points) ↔ significantLld points.val ≤ p.length := by
  have hread : ∀ c, SInt.ofInt? 64 (valueLld p) = some c →
      (scanFields 0 p = some ([], points) ↔ valueLld p = points.val) := by
    intro c hc
    unfold scanFields
    rw [hc, ← SInt.ofInt?_eq_some_iff.mp hc]
    change some ([], c) = some ([], points) ↔ _
    rw [Option.some.injEq, Prod.mk.injEq, and_iff_right rfl]
    constructor
    · intro he
      rw [he]
    · exact SInt.ext_val
  rcases isPrefix_append_cases h with hp | ⟨c, hc, hcp, rfl⟩
  · obtain ⟨⟨hlo, hhi⟩, hiff⟩ := valueLld_cut hp
    obtain ⟨c, hc⟩ := SInt.exists_ofInt?_of_between points hlo hhi
    exact (hread c hc).trans hiff
  · have hstop : Stops c := by
      rcases List.prefix_cons_iff.mp hcp with rfl | ⟨t, rfl, _⟩
      · exact absurd rfl hc
      · exact stops_space t
    have hvalue : valueLld (signedDecimal points.val ++ c) = points.val := by
      unfold valueLld
      rw [scanLld_signedDecimal _ hstop]
      rfl
    have hlen : significantLld points.val ≤ (signedDecimal points.val ++ c).length := by
      unfold significantLld
      rw [List.length_append]
      split_ifs <;> omega
    exact iff_of_true ((hread points (SInt.ofInt?_eq_some_iff.mpr hvalue.symm)).mpr hvalue) hlen

/-- The beginning of the text is read as all fields exactly when the rest is not needed. -/
theorem scanFields_eq_iff {coords : List ℚ} {points : CLongLong} {p : List Byte}
    (h : p <+: printFields coords points.val) :
    scanFields coords.length p = some (coords.map rounded, points) ↔
      significantLength coords points.val ≤ p.length := by
  induction coords generalizing p with
  | nil => exact scanFields_zero_iff h
  | cons q qs ih =>
    have hzero : (List.replicate qs.length 0 = qs.map rounded ∧ (0 : CLongLong) = points) ↔
        significantLength qs points.val = 0 := by
      have hnil := ih (p := []) List.nil_prefix
      rw [scanFields_nil, Option.some.injEq, Prod.mk.injEq] at hnil
      exact hnil.trans Nat.le_zero
    unfold significantLength
    rcases isPrefix_append_cases h with hp | ⟨c, hc, hcp, rfl⟩
    · rw [List.length_cons, scanFields_cut hp, Option.some.injEq, Prod.mk.injEq, List.map_cons,
        List.cons.injEq, and_assoc, hzero, valueLf_cut_iff hp]
      have hle := hp.length_le
      split_ifs with h0
      · exact and_iff_left h0
      · exact iff_of_false (fun hboth => h0 hboth.2) (by omega)
    · rcases List.prefix_cons_iff.mp hcp with rfl | ⟨t, rfl, ht⟩
      · exact absurd rfl hc
      have hread : scanFields (q :: qs).length (fixed6 q ++ space :: t) =
          (scanFields qs.length t).map fun r => (rounded q :: r.1, r.2) := by
        rw [List.length_cons]
        conv_lhs => unfold scanFields
        rw [scanLf_fixed6 q (stops_space t)]
        dsimp only
        rw [scanFields_space]
      have hcons : scanFields (q :: qs).length (fixed6 q ++ space :: t) =
          some ((q :: qs).map rounded, points) ↔
            scanFields qs.length t = some (qs.map rounded, points) := by
        rw [hread, Option.map_eq_some_iff]
        constructor
        · rintro ⟨⟨vs, k⟩, hr, he⟩
          obtain ⟨hvs, rfl⟩ := Prod.mk.inj he
          rw [hr]
          exact congrArg (fun l => some (l, k)) (List.cons.inj hvs).2
        · intro hr
          exact ⟨_, hr, rfl⟩
      have hsig := significantLf_le q
      rw [hcons, ih ht, List.length_append, List.length_cons]
      split_ifs with h0
      · exact iff_of_true (by omega) (by omega)
      · omega

theorem significantLength_le (coords : List ℚ) (points : ℤ) :
    significantLength coords points ≤ (printFields coords points).length := by
  induction coords with
  | nil =>
    unfold significantLength significantLld printFields
    rw [List.length_append]
    split_ifs <;> omega
  | cons q qs ih =>
    have hq := significantLf_le q
    unfold significantLength printFields
    rw [List.length_append, List.length_cons]
    split_ifs <;> omega

theorem ne_zero_of_isDigit {b : Byte} (h : isDigit b = true) : b ≠ 0 := by
  rintro rfl
  cases h

theorem zero_notMem_sign (negative : Bool) : 0 ∉ sign negative := by
  cases negative <;> decide

theorem printFields_ne_nil (coords : List ℚ) (points : ℤ) : printFields coords points ≠ [] := by
  cases coords with
  | nil => exact List.append_ne_nil_of_right_ne_nil _ (List.cons_ne_nil _ _)
  | cons q qs => exact List.append_ne_nil_of_right_ne_nil _ (List.cons_ne_nil _ _)

theorem zero_notMem_printFields (coords : List ℚ) (points : ℤ) :
    0 ∉ printFields coords points := by
  induction coords with
  | nil =>
    unfold printFields signedDecimal
    intro h
    rcases List.mem_append.mp h with h | h
    · rcases List.mem_append.mp h with h | h
      · exact zero_notMem_sign _ h
      · exact ne_zero_of_isDigit (isDigit_of_mem_decimal h) rfl
    · exact absurd h (by decide)
  | cons q qs ih =>
    unfold printFields fixed6
    intro h
    rcases List.mem_append.mp h with h | h
    · rcases List.mem_append.mp h with h | h
      · rcases List.mem_append.mp h with h | h
        · exact zero_notMem_sign _ h
        · exact ne_zero_of_isDigit (isDigit_of_mem_decimal h) rfl
      · rcases List.mem_cons.mp h with h | h
        · exact absurd h (by decide)
        · exact ne_zero_of_isDigit (isDigit_of_mem_padded h) rfl
    · rcases List.mem_cons.mp h with h | h
      · exact absurd h (by decide)
      · exact ih h

end OsTasks.Integral
