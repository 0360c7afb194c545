/-
  A `SingleThreadPool` with its worker thread and the callers of `AddTask`,
  `ShutDown` and `ShutDownNow`.

  A thread is a program counter that names its next statement and carries the
  locals the code keeps.  A mutex critical section with nothing blocking inside
  is one step, and so is an atomic operation.

  * `workerStep` follows `CloseableThread::ThreadFunction` with
    `SingleThreadPool::ThreadFunction` as work function and
    `NotifyWhenThreadStop` as finish action;
  * `callerStep` follows `DoAddTask`, `ShutDown` and `ShutDownNow`, and
    `closerStep` the body of the one `ShutDown` whose `compare_exchange_weak`
    succeeds.

  Fields called history variables are read by no step of the code.
-/
import Empool.Single.Queue
import Empool.Lib.Update

namespace Empool

namespace SingleThreadPool

/-- `SingleThreadPool::State` -/
inductive State where
  | init | running | stop | shutDown
deriving DecidableEq, Repr

/-- The next statement of the worker thread. -/
inductive WorkerPc where
  /-- `CheckIsRequestClose()` before the work function -/
  | start
  /-- `checkFunc()` at the top of the loop -/
  | check
  /-- `GetTask`: lock `m_mutexCond` and look -/
  | getTask
  /-- in `pthread_cond_wait` of `GetTask`; `notified`: `m_mutexCond` has been signalled -/
  | wait (notified : Bool)
  /-- is the task an `EndPriorityTask`? -/
  | dispatch (runTask : PriorityTask)
  /-- inside `runTask->Run()` -/
  | running (runTask : PriorityTask)
  /-- `NotifyWhenThreadStop`: `SetState(SHUTDOWN)` -/
  | setShutDown
  /-- the `ConditionNotifyLocker` on `m_stateCond` -/
  | notify
  /-- `NotifyFinished()` -/
  | notifyFinished
  | ended
  /-- an exception has left `Run()`, and with it the thread: there is no finish action -/
  | escaped
deriving DecidableEq, Repr

/-- The next statement of a thread that calls methods of the pool. -/
inductive CallerPc where
  | idle
  /-- `DoAddTask`: `m_isRequestShutDown.load()` -/
  | load (task : PriorityTask)
  /-- `PushTask(task)` -/
  | push (task : PriorityTask)
  /-- `ShutDown`: `compare_exchange_weak`; `now`: called by `ShutDownNow` -/
  | cas (now : Bool)
  /-- in the body of `ShutDown` (see `CloserPc`) -/
  | closing (now : Bool)
  /-- `ShutDownNow`: lock `m_stateGuard` and test `DoIsShutDown` -/
  | testState
  /-- in `pthread_cond_wait` on `m_stateCond` -/
  | waiting
deriving DecidableEq, Repr

/-- The next statement of the body of `ShutDown`. -/
inductive CloserPc where
  /-- no call has set the request flag -/
  | idle
  /-- `SetState(STOP)` -/
  | setStop
  /-- `m_thread->AsyncClose()` -/
  | asyncClose
  /-- `PushTask(endTask)` -/
  | pushEnd
  /-- the body is done -/
  | returned
deriving DecidableEq, Repr

end SingleThreadPool

/-- A `SingleThreadPool` with its threads. -/
structure SingleThreadPool where
  /-- `m_state` -/
  state : SingleThreadPool.State
  isRequestShutDown : Bool
  /-- `m_isRequestClose` of `m_thread` -/
  isRequestClose : Bool
  queues : TaskQueues
  worker : SingleThreadPool.WorkerPc
  closer : SingleThreadPool.CloserPc
  callers : ℕ → SingleThreadPool.CallerPc
  /-- the callers blocked on `m_stateCond` that have not been notified -/
  stateCond : List ℕ
  /-- history: the number of tasks whose `Run` the worker has started -/
  started : ℕ

namespace SingleThreadPool

/-- The pool when its constructor has created the worker thread. -/
def create (mode : RunMode) : SingleThreadPool where
  state := .init
  isRequestShutDown := false
  isRequestClose := false
  queues := .create mode
  worker := .start
  closer := .idle
  callers := fun _ => .idle
  stateCond := []
  started := 0

inductive Act where
  /-- the last statement of the constructor, `SetState(RUNNING)` -/
  | construct
  /-- the worker's next statement, or the end of its wait, after a signal or spuriously -/
  | worker
  /-- the worker's `Notify()` on `m_stateCond`, which wakes the caller `c` if any caller waits there -/
  | signal (c : ℕ)
  /-- an exception leaves `Run()` -/
  | throw
  /-- the caller `c` calls `AddTask(f, priority)`, or `AddTask(f)` at the reading `priority` of the
      clock; the new task has the address `id` -/
  | addTask (c id : ℕ) (priority : ℤ)
  /-- the caller `c` calls `ShutDown()`, or `ShutDownNow()` if `now` -/
  | shutDown (c : ℕ) (now : Bool)
  /-- the next statement of the caller `c`, or the end of its wait, after a signal or spuriously;
      `spurious`: its `compare_exchange_weak` fails spuriously -/
  | caller (c : ℕ) (spurious : Bool)
  /-- the next statement of the body of `ShutDown` -/
  | closer (spurious : Bool)
deriving DecidableEq, Repr

variable (s : SingleThreadPool)

/-- The worker goes to `pc`. -/
def workerAt (pc : WorkerPc) : SingleThreadPool := { s with worker := pc }

/-- The caller `c` goes to `pc`. -/
def callerAt (c : ℕ) (pc : CallerPc) : SingleThreadPool :=
  { s with callers := Function.update s.callers c pc }

/-- `checkFunc()`: continue at `pc`, or leave by `CloseableThreadExitException` and call the finish
    action. -/
def checkFunc (pc : WorkerPc) : SingleThreadPool :=
  if s.isRequestClose then s.workerAt .setShutDown else s.workerAt pc

/-- `PushTask`: signal the worker if `Empty()`, and push. -/
def pushTask (task : PriorityTask) : SingleThreadPool :=
  { s with
    worker := if s.queues.empty ∧ s.worker = .wait false then .wait true else s.worker
    queues := s.queues.pushTask task }

/-- `GetTask` with `m_mutexCond` locked: take the front, or wait. -/
def getTask : SingleThreadPool :=
  match s.queues.getTask with
  | some (task, queues) => { s with worker := .dispatch task, queues := queues }
  | none => s.workerAt (.wait false)

/-- The worker's next statement. -/
def workerStep : Option SingleThreadPool :=
  match s.worker with
  | .start => some (s.checkFunc .check)
  | .check => some (s.checkFunc .getTask)
  | .getTask | .wait _ => some s.getTask
  | .dispatch .endTask => some (s.workerAt .setShutDown)
  | .dispatch task => some { s.workerAt (.running task) with started := s.started + 1 }
  | .running _ => some (s.workerAt .check)
  | .setShutDown => some { s.workerAt .notify with state := .shutDown }
  | .notifyFinished => some (s.workerAt .ended)
  | .notify | .ended | .escaped => none

/-- `ConditionNotifyLocker(m_stateCond, CheckIsRequestShutDown)` -/
def signalStep (c : ℕ) : Option SingleThreadPool :=
  if s.worker = .notify ∧ (s.stateCond = [] ∨ c ∈ s.stateCond) then
    some { s.workerAt .notifyFinished with
      stateCond := if s.isRequestShutDown then s.stateCond.erase c else s.stateCond }
  else none

/-- `ShutDown()` returns: to the user, or into `ShutDownNow()`. -/
def afterShutDown (c : ℕ) (now : Bool) : SingleThreadPool :=
  s.callerAt c (if now then .testState else .idle)

/-- `while (!DoIsShutDown()) wait` of `ShutDownNow()`. -/
def waitState (c : ℕ) : SingleThreadPool :=
  if s.state = .shutDown then { s.callerAt c .idle with stateCond := s.stateCond.erase c }
  else { s.callerAt c .waiting with stateCond := c :: s.stateCond.erase c }

/-- The next statement of the caller `c`. -/
def callerStep (c : ℕ) (spurious : Bool) : Option SingleThreadPool :=
  match s.callers c with
  | .idle => none
  | .load task =>
    if s.isRequestShutDown then some (s.callerAt c .idle) else some (s.callerAt c (.push task))
  | .push task => some ((s.pushTask task).callerAt c .idle)
  | .cas now =>
    if s.isRequestShutDown || spurious then some (s.afterShutDown c now)
    else some { s.callerAt c (.closing now) with isRequestShutDown := true, closer := .setStop }
  | .closing now => if s.closer = .returned then some (s.afterShutDown c now) else none
  | .testState | .waiting => some (s.waitState c)

/-- The next statement of the body of `ShutDown`. -/
def closerStep (spurious : Bool) : Option SingleThreadPool :=
  match s.closer with
  | .setStop => some { s with state := .stop, closer := .asyncClose }
  | .asyncClose => some { s with isRequestClose := s.isRequestClose || !spurious, closer := .pushEnd }
  | .pushEnd => some { s.pushTask .endTask with closer := .returned }
  | .idle | .returned => none

/-- A call begins: the caller `c` has the pool, so the constructor has returned. -/
def call (c : ℕ) (pc : CallerPc) : Option SingleThreadPool :=
  if s.callers c = .idle ∧ s.state ≠ .init then some (s.callerAt c pc) else none

/-- One step. -/
def step : Act → Option SingleThreadPool
  | .construct => if s.state = .init then some { s with state := .running } else none
  | .worker => s.workerStep
  | .signal c => s.signalStep c
  | .throw =>
    match s.worker with
    | .running _ => some (s.workerAt .escaped)
    | _ => none
  | .addTask c id priority => s.call c (.load (.functor id priority))
  | .shutDown c now => s.call c (.cas now)
  | .caller c spurious => s.callerStep c spurious
  | .closer spurious => s.closerStep spurious

/-- Tasks do not throw, and `compare_exchange_weak` does not fail spuriously. -/
def Regular (_ : SingleThreadPool) : Act → Prop
  | .throw | .caller _ true | .closer true => False
  | _ => True

instance (s : SingleThreadPool) : ∀ a, Decidable (Regular s a)
  | .throw | .caller _ true | .closer true => isFalse id
  | .construct | .worker | .signal _ | .addTask .. | .shutDown .. | .caller _ false | .closer false =>
    isTrue trivial

end SingleThreadPool

end Empool
