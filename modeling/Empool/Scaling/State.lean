/-
  The state of a `ScalingThreadPool` with all threads that act on it: the
  workers it has created, its monitor thread, and the callers of its methods.

  A thread is a program counter with the locals the code keeps across a step;
  a program counter names the next statement the thread executes.  A mutex
  critical section with nothing blocking inside is one step, and so is an
  atomic operation.  `m_addOrSubThreadNumGuard` is held across other
  synchronisation (the closing pass of `ShutDown`, an iteration of the
  monitor), so its owner is part of the state (`guard`).

  Fields called history variables are read by no step of the code: they
  record what happened, for the statements.
-/
import Empool.Lib.Update
import Mathlib.Data.List.Basic

namespace Empool

/-- `ThreadId`: the kernel's id of a thread, positive. -/
abbrev ThreadId := ℕ

/-- A task object: an `EndTask`, or any other `TaskBase`, known by its address. -/
inductive Task where
  | user (id : ℕ)
  | endTask
deriving DecidableEq, Repr

/-- `TASK_QUEUE_SIZE_THRESHOLD` -/
def taskQueueSizeThreshold : ℕ := 1024

/-- The two sizes a `ScalingThreadPool` is constructed with. -/
structure Config where
  corePoolSize : ℕ
  maxThreadSize : ℕ

/-- `ScalingThreadPool::State` -/
inductive PoolState where
  | init | running | stop | shutDown
deriving DecidableEq, Repr

/-! ## Worker threads -/

/-- The next statement of a worker thread: `CloseableThread::ThreadFunction`
    with `WorkerThread::WorkFunction` and, as finish action,
    `ScalingThreadPool::NotifyWhenThreadsStop`. -/
inductive WorkerPc where
  /-- `CheckIsRequestClose()` before the work function -/
  | start
  /-- `checkFunc()` at the top of the loop -/
  | check
  /-- `PopTimeWait`: lock the queue and look -/
  | pop
  /-- in `pthread_cond_timedwait` of `PopTimeWait` -/
  | popWait
  /-- the pop timed out: `m_judge()`, that is `IfMoreThan` -/
  | judge
  /-- `AsyncClose()` on itself -/
  | asyncClose
  /-- `checkFunc()` after `AsyncClose()` -/
  | recheck
  /-- a task is popped: is it an `EndTask`? -/
  | dispatch
  /-- inside `m_runningTask->Run()` -/
  | running
  /-- `NotifyWhenThreadsStop`: `m_isRequestShutDown.load()` -/
  | finish
  /-- `AddWorkerThreadIdToSubVector` -/
  | subPush
  /-- the `ConditionNotifyLocker` after it -/
  | subNotify
  /-- `++m_stoppedThreadNum` -/
  | count
  /-- `stoppedThreadNum >= m_threads.size()` -/
  | compare
  /-- `SetState(SHUTDOWN)` -/
  | setShutDown
  /-- the `ConditionNotifyAllLocker` on `m_stateGuard` -/
  | notifyAll
  /-- `NotifyFinished()` -/
  | notifyFinished
  /-- the thread has returned from `Thread::ThreadFunction` -/
  | ended
deriving DecidableEq, Repr

/-- A worker thread. -/
structure Worker where
  threadId : ThreadId
  pc : WorkerPc
  /-- `m_isRequestClose` of its `CloseableThread` -/
  isRequestClose : Bool
  /-- `m_runningTask`: keeps its value across timed-out pops -/
  runningTask : Option Task
  /-- the local `stoppedThreadNum` of `NotifyWhenThreadsStop` -/
  stoppedThreadNum : ℕ
  /-- history: the calls of the finish action -/
  finishCalls : ℕ
  /-- history: the finish action took the branch "not request shutdown" -/
  retired : Bool
  /-- history: the finish action has incremented `m_stoppedThreadNum` -/
  counted : Bool
  /-- history: the tasks whose `Run` it has started -/
  started : ℕ
deriving DecidableEq, Repr

/-- A worker thread as `new WorkerThread(..)` starts it. -/
def Worker.create (threadId : ThreadId) : Worker where
  threadId := threadId
  pc := .start
  isRequestClose := false
  runningTask := none
  stoppedThreadNum := 0
  finishCalls := 0
  retired := false
  counted := false
  started := 0

/-! ## The monitor thread -/

/-- The next statement of the monitor thread (`HandleWorkerThread`). -/
inductive MonitorPc where
  /-- `CheckIsRequestClose()` before the work function -/
  | start
  /-- the first `checkFunc()` of an iteration -/
  | check
  /-- `cond.TimeWait`: lock `m_addOrSubThreadNumGuard` and test -/
  | lock
  /-- in `pthread_cond_timedwait` of `cond.TimeWait` -/
  | wait
  /-- the second `checkFunc()`, with the guard held -/
  | recheck
  /-- the test for `AddWorkerThread()` -/
  | grow
  /-- `AddWorkerThread`: `new WorkerThread(..)` -/
  | create
  /-- `AddWorkerThread`: `m_threads.insert(..)` -/
  | insert
  /-- the id was taken: `~WorkerThread` of the new worker joins it -/
  | joinNew
  /-- the loop over `m_subWorkerThreadId`: `m_threads.find(..)` -/
  | sub
  /-- `m_threads.erase(iter)`: `~WorkerThread` joins the worker -/
  | join
  /-- finish action and `NotifyFinished()` -/
  | finish
  | ended
deriving DecidableEq, Repr

/-- The monitor thread. -/
structure Monitor where
  pc : MonitorPc
  isRequestClose : Bool
  /-- in `wait`: `m_addOrSubThreadCond` has been signalled -/
  notified : Bool
  /-- `newWorkerThread` of `AddWorkerThread` -/
  newWorker : ℕ
  /-- the ids still to be visited by the loop over `m_subWorkerThreadId` -/
  iter : List ThreadId
  /-- in `join`: the entry of `m_threads` that is erased -/
  victim : ThreadId × ℕ
deriving DecidableEq, Repr

/-! ## Callers -/

/-- The next statement of a thread that calls methods of the pool. -/
inductive CallerPc where
  | idle
  /-- `DoAddTask`: `m_isRequestShutDown.load()` -/
  | load
  /-- `m_taskQueue->Push(task)` -/
  | push
  /-- the `ConditionNotifyLocker` after it -/
  | notify
  /-- `ShutDown`: `compare_exchange_weak` -/
  | cas
  /-- inside the closing sequence of `ShutDown` (see `Closer`) -/
  | closing
  /-- `ShutDownNow`: lock `m_mutex` and test `DoIsShutDown` -/
  | testState
  /-- in `pthread_cond_wait` on `m_stateGuard` -/
  | waiting
deriving DecidableEq, Repr

/-- A caller thread; it makes any number of calls, one after the other. -/
structure Caller where
  pc : CallerPc
  /-- the argument of `AddTask` -/
  task : Option Task
  /-- `ShutDown` was called by `ShutDownNow` -/
  now : Bool
  /-- in `waiting`: `m_stateGuard` has been broadcast -/
  notified : Bool
deriving DecidableEq, Repr

/-- A thread that is in no call. -/
def Caller.idle : Caller where
  pc := .idle
  task := none
  now := false
  notified := false

/-- The next statement of the closing sequence of `ShutDown`, which is executed by
    the one call whose `compare_exchange_weak` succeeds. -/
inductive CloserPc where
  /-- no call has set the request flag -/
  | idle
  /-- `SetState(STOP)` -/
  | setStop
  /-- `MutexLocker lock(m_addOrSubThreadNumGuard)` -/
  | lock
  /-- the loop of `AsyncClose()` over `m_threads` -/
  | asyncClose
  /-- the loop of `m_taskQueue->Push(EndTask)` -/
  | pushEnd
  /-- `NotifyMonitorThread`: `m_monitorThread->AsyncClose()` -/
  | closeMonitor
  /-- `AddWorkerThreadIdToSubVector(0)` -/
  | subPush
  /-- the `ConditionNotifyLocker` after it -/
  | notify
  /-- the body of `ShutDown` is done -/
  | returned
deriving DecidableEq, Repr

/-- The closing sequence. -/
structure Closer where
  pc : CloserPc
  /-- the workers the closing pass has still to close -/
  rest : List ℕ
  /-- the `EndTask`s still to be pushed -/
  endTasks : ℕ
deriving DecidableEq, Repr

/-! ## The pool -/

/-- The threads that hold `m_addOrSubThreadNumGuard` across several steps. -/
inductive Owner where
  | monitor | closer
deriving DecidableEq, Repr

/-- A `ScalingThreadPool` with its threads. -/
structure Pool where
  /-- `m_state` -/
  state : PoolState
  stoppedThreadNum : ℕ
  isRequestShutDown : Bool
  /-- the owner of `m_addOrSubThreadNumGuard` -/
  guard : Option Owner
  taskQueue : List Task
  /-- `m_threads`: thread ids with the numbers of their workers -/
  threads : List (ThreadId × ℕ)
  subWorkerThreadId : List ThreadId
  /-- the workers created so far are `0, …, workerNum - 1` -/
  workerNum : ℕ
  workers : ℕ → Worker
  monitor : Monitor
  callers : ℕ → Caller
  closer : Closer
  /-- history: what was pushed into the queue, in order -/
  pushed : List Task
  /-- history: what was popped from the queue, in order -/
  popped : List Task
  /-- history: the tasks whose `Run` has returned -/
  completed : List Task

/-- The ids the kernel gives to `n` threads that live at the same time. -/
structure LiveIds (n : ℕ) where
  id : ℕ → ThreadId
  pos : ∀ w < n, id w ≠ 0
  inj : ∀ w < n, ∀ v < n, id w = id v → w = v

/-- The ids `1, …, n`. -/
def LiveIds.first (n : ℕ) : LiveIds n where
  id w := w + 1
  pos w _ := Nat.succ_ne_zero w
  inj _ _ _ _ h := Nat.succ.inj h

/-- The pool when its constructor returns: `m_corePoolSize` workers and the monitor
    have been started, and no worker can have found a task yet. -/
def initPool (cfg : Config) (ids : LiveIds cfg.corePoolSize) : Pool where
  state := .running
  stoppedThreadNum := 0
  isRequestShutDown := false
  guard := none
  taskQueue := []
  threads := (List.range cfg.corePoolSize).map fun w => (ids.id w, w)
  subWorkerThreadId := []
  workerNum := cfg.corePoolSize
  workers := fun w => Worker.create (ids.id w)
  monitor := ⟨.start, false, false, 0, [], (0, 0)⟩
  callers := fun _ => Caller.idle
  closer := ⟨.idle, [], 0⟩
  pushed := []
  popped := []
  completed := []

namespace Pool
variable (cfg : Config) (s : Pool)

/-- `ScalingThreadPool::JudgeFunc` -/
def judgeFunc : Bool :=
  (taskQueueSizeThreshold < s.taskQueue.length && s.threads.length < cfg.maxThreadSize) ||
    !s.subWorkerThreadId.isEmpty

/-- `ScalingThreadPool::IfMoreThan` -/
def ifMoreThan : Bool := cfg.corePoolSize < s.threads.length

/-- `ConditionNotifyLocker(m_addOrSubThreadCond, JudgeFunc)`: signal if `JudgeFunc()` holds;
    the monitor is the only thread that waits there. -/
def notifyMonitor : Pool :=
  { s with monitor := { s.monitor with
      notified := s.monitor.notified || (s.judgeFunc cfg && s.monitor.pc = .wait) } }

/-- `NotifyAll()` on `m_stateGuard`: every caller that waits there is notified. -/
def notifyAllState : Pool :=
  { s with callers := fun c =>
      if (s.callers c).pc = .waiting then { s.callers c with notified := true } else s.callers c }

/-- `m_taskQueue->Push(task)` -/
def pushTask (t : Task) : Pool :=
  { s with taskQueue := s.taskQueue ++ [t], pushed := s.pushed ++ [t] }

end Pool

end Empool
