import OsTasks.Integral.TaskText
import OsTasks.Lib.Machine

/-! The worker of task_8: `monte_carlo`, its threads and the mutex around `res_square`, in exact
rational arithmetic. A `double` that a thread computes is a rational or, without one, not a number. -/
namespace OsTasks.Integral
open OsTasks.Lib

/-- `RAND_MAX` -/
def randMax : ℕ := 2147483647

/-- `args[i]` -/
structure Args where
  x1 : ℚ
  y1 : ℚ
  x2 : ℚ
  y2 : ℚ
  points : ℚ

def threadArgs (task : WorkerTask) (nThreads i : ℕ) : Args where
  x1 := (task.x2 - task.x1) / nThreads * i + task.x1
  y1 := task.y1
  x2 := (task.x2 - task.x1) / nThreads * (i + 1) + task.x1
  y2 := task.y2
  points := task.numOfPoints.val / nThreads

def func (x : ℚ) : ℚ := x

/-- A `double` converted to an integer type. -/
def truncate (q : ℚ) : ℤ := if 0 ≤ q then ⌊q⌋ else ⌈q⌉

def Args.pointsNum (a : Args) : ℤ := truncate a.points

/-- The coordinate for a value of `rand_r`. -/
def sampled (lo hi : ℚ) (r : ℕ) : ℚ := lo + r / randMax * (hi - lo)

/-- Where a thread stands in `square_of_one_square`. -/
inductive ThreadPc where
  /-- before the test of the loop -/
  | loop (i : ℕ) (square : ℚ)
  | lock (square : Option ℚ)
  | load (square : Option ℚ)
  | store (square old : Option ℚ)
  | unlock
  | finished
  deriving DecidableEq

/-- `square` after the loop. -/
def scaled (a : Args) (square : ℚ) : Option ℚ :=
  if a.pointsNum = 0 then none
  else some (square / a.pointsNum * (a.x2 - a.x1) * (a.y2 - a.y1))

/-- The body of the loop. A counter that would leave its type has no result. -/
def sampleStep (a : Args) (pc : ThreadPc) (rx ry : ℕ) : Option ThreadPc :=
  match pc with
  | .loop i square =>
    if i < a.pointsNum ∧ i + 1 < 2 ^ 31 then
      let x := sampled a.x1 a.x2 rx
      let y := sampled a.y1 a.y2 ry
      some (.loop (i + 1) (if y < func x then square + 1 else square))
    else none
  | _ => none

/-- The mutex and `res_square`. -/
structure Shared where
  holder : Option ℕ
  resSquare : Option ℚ

/-- Every other statement of thread `k`. -/
def threadStep (a : Args) (k : ℕ) (pc : ThreadPc) (sh : Shared) : Option (ThreadPc × Shared) :=
  match pc with
  | .loop i square => if a.pointsNum ≤ i then some (.lock (scaled a square), sh) else none
  | .lock square => if sh.holder = none then some (.load square, { sh with holder := some k }) else none
  | .load square => some (.store square sh.resSquare, sh)
  | .store square old => some (.unlock, { sh with resSquare := Option.map₂ (· + ·) old square })
  | .unlock => some (.finished, { sh with holder := none })
  | .finished => none

/-- `created` and `joined` count the passes of the two loops of `monte_carlo`. -/
structure McState where
  created : ℕ
  joined : ℕ
  thread : ℕ → ThreadPc
  shared : Shared

inductive McAction where
  | main
  | sample (k : ℕ) (rx ry : Fin (randMax + 1))
  | run (k : ℕ)

section Step
variable (task : WorkerTask) (nThreads : ℕ)

def mcStep (s : McState) : McAction → Option McState
  | .main =>
    if s.created < nThreads then
      some { s with
        created := s.created + 1
        thread := Function.update s.thread s.created (.loop 0 0) }
    else if s.joined < nThreads ∧ s.thread s.joined = .finished then
      some { s with joined := s.joined + 1 }
    else none
  | .sample k rx ry =>
    if k < s.created then
      (sampleStep (threadArgs task nThreads k) (s.thread k) rx ry).map fun pc =>
        { s with thread := Function.update s.thread k pc }
    else none
  | .run k =>
    if k < s.created then
      (threadStep (threadArgs task nThreads k) k (s.thread k) s.shared).map fun r =>
        { s with thread := Function.update s.thread k r.1, shared := r.2 }
    else none

def mcStart : McState := ⟨0, 0, fun _ => .loop 0 0, ⟨none, some 0⟩⟩

/-- `monte_carlo` returns `res_square`. -/
def McState.Returned (s : McState) : Prop := s.joined = nThreads

/-- A point that a thread draws. -/
structure Sample where
  thread : ℕ
  x : ℚ
  y : ℚ
  deriving DecidableEq

def recordSample (_ : McState) (a : McAction) (_ : McState) (samples : List Sample) : List Sample :=
  match a with
  | .sample k rx ry =>
    let args := threadArgs task nThreads k
    ⟨k, sampled args.x1 args.x2 rx, sampled args.y1 args.y2 ry⟩ :: samples
  | .main => samples
  | .run _ => samples

/-- A run of `monte_carlo` with the points drawn. -/
def monteCarlo : Machine (McState × List Sample) McAction :=
  (Machine.mk mcStart (mcStep task nThreads)).withHistory [] (recordSample task nThreads)

end Step

end OsTasks.Integral
