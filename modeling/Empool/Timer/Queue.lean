/-
  `TimerTask` and `TimerTaskQueue`.

  The queue is a `std::priority_queue` of pointers to tasks; its comparison
  reads the deadlines of the tasks when it is called.  The deadlines are part
  of the tasks, not of the queue, and change while a task is queued.

  A heap operation is one step, so it reads all deadlines at one moment.
-/
import Empool.Task.Base
import Empool.Lib.Heap

namespace Empool

open Heap

/-- `TimeValue`, milliseconds in a `uint64_t`. -/
abbrev TimeValue := UInt64

/-- A `TimerTask`. -/
structure TimerTask where
  deadline : TimeValue
  interval : TimeValue
  base : TaskBase
deriving DecidableEq, Repr

/-- `TimerTask()` -/
def TimerTask.create : TimerTask where
  deadline := 0
  interval := 0
  base := .create

/-- `IsIntervalTask` -/
def TimerTask.isIntervalTask (task : TimerTask) : Bool := decide (0 < task.interval)

/-- The tasks by their addresses. -/
abbrev Tasks := ℕ → TimerTask

/-- A pointer in a queue: to a task of the user, or to the `EndTimerTask` that the shutdown of the
    handler has created, which nobody else knows. -/
inductive TimerPtr where
  | task (id : ℕ)
  | endTask
deriving DecidableEq, Repr

/-- The task a pointer points to.  The deadline of the `EndTimerTask` in the queue is never set:
    `ShutDownHelper` sets that of another one, which it drops. -/
def Tasks.get (ts : Tasks) : TimerPtr → TimerTask
  | .task id => ts id
  | .endTask => .create

/-- `CompareTimerTask` -/
def compareTimerTask (ts : Tasks) (a b : TimerPtr) : Bool :=
  decide ((ts.get a).deadline > (ts.get b).deadline)

end Empool
