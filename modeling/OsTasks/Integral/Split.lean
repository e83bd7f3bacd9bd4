import OsTasks.Lib.SignedInt

/-! The master of task_8: the split of the main task by cores and its regrouping by workers,
in exact rational coordinates. Signed overflow and reads outside `tasks` have no result. -/
namespace OsTasks.Integral
open OsTasks.Lib

abbrev CInt := SInt 32

abbrev CLongLong := SInt 64

/-- `MAX_WORKERS`. -/
def maxWorkers : ℕ := 10

structure Worker where
  numOfCores : CInt
  socket : ℕ
  result : ℚ

def oneCore (socket : ℕ) : Worker := ⟨⟨1, by decide, by decide⟩, socket, 0⟩

structure Task where
  x1 : ℚ
  x2 : ℚ
  y1 : ℚ
  y2 : ℚ
  numOrPoints : CLongLong

/-- The task of `main`. -/
def mainTask : Task := ⟨0, 3, 0, 3, ⟨100000, by decide, by decide⟩⟩

structure Server where
  workers : List Worker
  workers_le : workers.length ≤ maxWorkers
  tasks : List Task

/-- The sum at the head of `split_tasks`. -/
def totalCores (workers : List Worker) : Option CInt :=
  workers.foldlM (fun n w => n.add? w.numOfCores) 0

/-- `tasks[i]` for `numOfCores` tasks. -/
def coreTask (main : Task) (numOfCores : CInt) (i : ℕ) : Option Task := do
  let points ← main.numOrPoints.div? numOfCores
  return {
    x1 := (main.x2 - main.x1) / numOfCores.val * i + main.x1
    y1 := main.y1
    x2 := (main.x2 - main.x1) / numOfCores.val * (i + 1) + main.x1
    y2 := main.y2
    numOrPoints := points }

def splitTasks (server : Server) (main : Task) : Option Server := do
  let numOfCores ← totalCores server.workers
  let tasks ← (List.range numOfCores.val.toNat).mapM (coreTask main numOfCores)
  return { server with tasks := tasks }

def taskAt (tasks : List Task) (i : ℤ) : Option Task :=
  if 0 ≤ i then tasks[i.toNat]? else none

def workerTask (tasks : List Task) (taskNumber : ℤ) (w : Worker) : Option Task := do
  let first ← taskAt tasks taskNumber
  let last ← taskAt tasks (taskNumber + w.numOfCores.val - 1)
  let points ← first.numOrPoints.mul? w.numOfCores
  return {
    x1 := first.x1
    x2 := last.x2
    y1 := first.y1
    y2 := last.y2
    numOrPoints := points }

/-- The tasks written to the workers' sockets. `task_number` keeps its initial value 0
through the loop. -/
def sendTask (server : Server) : Option (List (ℕ × Task)) :=
  server.workers.mapM fun w => do
    let task ← workerTask server.tasks 0 w
    return (w.socket, task)

end OsTasks.Integral
