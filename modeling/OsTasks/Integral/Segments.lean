import OsTasks.Integral.GatherFirst
import OsTasks.Integral.GatherPieces
import OsTasks.Integral.TaskText
import Mathlib.Data.List.GetD

/-! The exchange between master and workers of task_8 over connections that deliver a message in any
segments. -/
namespace OsTasks.Integral
open OsTasks.Lib

theorem cstr_segment {buff segment : List Byte} (h : 0 ∉ segment) :
    cstr (overwrite buff (segment ++ [0])) = segment := by
  unfold overwrite
  rw [List.append_assoc]
  exact (cstr_append_zero segment _).trans ((cstr_eq_self_iff segment).mpr h)

theorem length_scanFields {n : ℕ} {m : List Byte} {r : List ℚ × CLongLong}
    (h : scanFields n m = some r) : r.1.length = n := by
  induction n generalizing m r with
  | zero =>
    obtain ⟨_, _, rfl⟩ := Option.map_eq_some_iff.mp h
    rfl
  | succ n ih =>
    unfold scanFields at h
    rcases hs : scanLf m with _ | ⟨q, rest⟩ <;> rw [hs] at h
    · cases h
      exact List.length_replicate
    · obtain ⟨r', hr', rfl⟩ := Option.map_eq_some_iff.mp h
      exact congrArg (· + 1) (ih hr')

theorem WorkerTask.ofFields_inj {r r' : List ℚ × CLongLong} (h : r.1.length = 4)
    (h' : r'.1.length = 4) (he : ofFields r = ofFields r') : r = r' := by
  obtain ⟨hx1, hx2, hy1, hy2, hpoints⟩ := WorkerTask.mk.inj he
  apply Prod.ext _ hpoints
  apply List.ext_getElem (h.trans h'.symm)
  intro i hi hi'
  have hlt : i < 4 := h ▸ hi
  have hget : r.1.getD i 0 = r'.1.getD i 0 := by
    interval_cases i
    · exact hx1
    · exact hy1
    · exact hx2
    · exact hy2
  rwa [List.getD_eq_getElem _ _ hi, List.getD_eq_getElem _ _ hi'] at hget

theorem receiveTask_cons {buff segment : List Byte} {rest : List (List Byte)}
    (hlen : segment.length < bufSize) (h0 : 0 ∉ segment) :
    receiveTask buff (segment :: rest) = (scanFields 4 segment).map WorkerTask.ofFields := by
  unfold receiveTask sscanfTask
  dsimp only
  rw [if_pos hlen, cstr_segment h0]

/-- The characters of a task's text that the worker needs. -/
def neededLength (task : Task) : ℕ :=
  significantLength [task.x1, task.y1, task.x2, task.y2] task.numOrPoints.val

/-- A task arrives as from one segment exactly when the first segment reaches the last character
that is needed. -/
theorem receiveTask_eq_iff {task : Task} {message : List Byte}
    (hm : taskMessage task = some message) (buff : List Byte) {segments : List (List Byte)}
    (hs : segments.flatten = message) :
    receiveTask buff segments = receiveTask buff [message] ↔
      neededLength task ≤ (segments.headD []).length := by
  obtain ⟨hlen, hmessage⟩ := Option.ite_none_right_eq_some.mp hm
  obtain rfl : printOneTask task = message := Option.some.inj hmessage
  have h0 : 0 ∉ printOneTask task := zero_notMem_printFields _ _
  have hiff : ∀ p, p <+: printOneTask task → (scanFields 4 p = some
      ([task.x1, task.y1, task.x2, task.y2].map rounded, task.numOrPoints) ↔
        neededLength task ≤ p.length) := fun p hp => scanFields_eq_iff hp
  have hread : ∀ p rest, p <+: printOneTask task →
      receiveTask buff (p :: rest) = (scanFields 4 p).map WorkerTask.ofFields := by
    intro p rest hp
    apply receiveTask_cons (hp.length_le.trans_lt hlen)
    exact fun h => h0 (hp.subset h)
  have hwhole := (hiff _ (List.prefix_refl _)).mpr (significantLength_le _ _)
  cases segments with
  | nil => exact absurd hs.symm (printFields_ne_nil _ _)
  | cons segment rest =>
    have hp : segment <+: printOneTask task := ⟨rest.flatten, hs⟩
    rw [hread segment rest hp, hread _ [] (List.prefix_refl _), hwhole, List.headD_cons,
      ← hiff _ hp]
    constructor
    · intro he
      obtain ⟨r, hr, hfields⟩ := Option.map_eq_some_iff.mp he
      rw [hr, WorkerTask.ofFields_inj (length_scanFields hr) rfl hfields]
    · intro he
      rw [he]

/-- A task arrives whole exactly when the first segment has all that is needed of it, and a result
exactly when one `recv` returns it, or when its value was there before. -/
theorem exchange_independent_iff {task : Task} {message : List Byte}
    (hm : taskMessage task = some message) (buff : List Byte) {segments : List (List Byte)}
    (hs : segments.flatten = message) (decode : List Byte → ℚ) {start s : GatherState}
    {w w' : Worker} {pieces : List (List Byte)} {wakes : List Wake}
    (hd : (start.workers.map Worker.socket).Nodup) (hw : w ∈ start.workers)
    (hrun : (gatherPieces decode w.socket start).run wakes = some (s, pieces))
    (h8 : pieces.flatten.length = sizeofDouble) (hw' : w' ∈ s.workers)
    (hsocket : w'.socket = w.socket) :
    (receiveTask buff segments = receiveTask buff [message] ↔
        neededLength task ≤ (segments.headD []).length) ∧
      (w'.result = decode pieces.flatten ↔
        pieces = [pieces.flatten] ∨ w.result = decode pieces.flatten) :=
  ⟨receiveTask_eq_iff hm buff hs, stored_iff decode hd hw hrun h8 hw' hsocket⟩

/-- The two halves of a result, one before each pass. -/
def halves (fd : ℕ) : List Wake :=
  [.arrivals [(fd, .segment ((eightBytes fd).take 4))],
    .arrivals [(fd, .segment ((eightBytes fd).drop 4))]]

/-- One worker of one core, at the socket 4. -/
def startOne : GatherState := ⟨[oneCore 4], 4, ⟨quiet, {4}, 0⟩, .running⟩

theorem exchange_undivided :
    receiveTask [] [(printOneTask mainTask).take 43, (printOneTask mainTask).drop 43] =
        receiveTask [] [printOneTask mainTask] ∧
      ∃ s, (gatherPieces firstByte 4 startOne).run [arrivalsOf eightBytes [[4]] 0] =
          some (s, [eightBytes 4]) ∧
        ∃ w' ∈ s.workers, w'.socket = 4 ∧ w'.result = firstByte (eightBytes 4) := by
  have hm : taskMessage mainTask = some (printOneTask mainTask) := by decide +kernel
  have hs : [(printOneTask mainTask).take 43, (printOneTask mainTask).drop 43].flatten =
      printOneTask mainTask := by decide +kernel
  have hd : (startOne.workers.map Worker.socket).Nodup := by decide
  have hrun : (gatherPieces firstByte (oneCore 4).socket startOne).run
      [arrivalsOf eightBytes [[4]] 0] = some (_, [eightBytes 4]) := rfl
  obtain ⟨htask, hresult⟩ := exchange_independent_iff hm [] hs firstByte hd List.mem_cons_self hrun
    rfl List.mem_cons_self rfl
  refine ⟨htask.mpr (by decide +kernel), _, hrun, _, List.mem_cons_self, rfl, ?_⟩
  exact hresult.mpr (Or.inl rfl)

/-- The first segment ends within the count of points; the result comes in two halves. -/
theorem exchange_divided :
    (taskMessage mainTask = some (printOneTask mainTask) ∧
      receiveTask [] [(printOneTask mainTask).take 40, (printOneTask mainTask).drop 40] ≠
        receiveTask [] [printOneTask mainTask]) ∧
    gatherStart [oneCore 4] quiet = some startOne ∧
    ∃ s, (gatherPieces firstByte 4 startOne).run (halves 4) =
        some (s, [(eightBytes 4).take 4, (eightBytes 4).drop 4]) ∧
      s.workers.map Worker.result ≠ [firstByte (eightBytes 4)] := by
  refine ⟨⟨by decide +kernel, by decide +kernel⟩, rfl, _, rfl, by decide +kernel⟩

end OsTasks.Integral
