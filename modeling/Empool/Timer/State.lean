/-
  The state of a `ScheduledThreadPool` with its `TimerTaskHandler`s and all
  threads that act on them: the handlers' own threads, and the callers.

  A thread is a program counter that names its next statement and carries the
  locals the code keeps.  A mutex critical section with nothing blocking inside
  is one step, and so is an atomic operation.  A handler's thread holds
  `m_queue_guard` across other synchronisation (it reads the close flag, the
  clock and the task's fields): that it holds it is part of its program counter
  (`HandlerPc.holds`).

  The methods of the handlers are called through the pool, or directly: a
  `TimerTaskHandler` of its own is a pool with one handler of which only the
  handler is used.

  Fields called history variables are read by no step of the code.
-/
import Empool.Timer.Queue
import Empool.Lib.Update

namespace Empool

/-- The next statement of a handler's thread: `CloseableThread::ThreadFunction`
    with `TimerTaskHandler::ThreadFunction`, and no finish action. -/
inductive HandlerPc where
  /-- `CheckIsRequestClose()` before the work function -/
  | start
  /-- `MutexLocker lock(m_queue_guard)` and `IsEmpty()` -/
  | lock
  /-- the queue is empty: `checkFunc()`, and `m_task_queue.Wait()` -/
  | checkEmpty
  /-- in `pthread_cond_wait`; `notified`: the queue has been signalled -/
  | wait (notified : Bool)
  /-- the queue is not empty: `checkFunc()` -/
  | check
  | getMin
  | getCurrentTime (task : TimerPtr)
  | getDeadline (task : TimerPtr) (now : TimeValue)
  | isCancelled (task : TimerPtr) (now deadline : TimeValue)
  /-- `IsRequestCancel()`, and `deadline <= now` -/
  | isRequestCancel (task : TimerPtr) (now deadline : TimeValue)
  | isIntervalTask (task : TimerPtr) (now : TimeValue)
  | getInterval (task : TimerPtr) (now : TimeValue)
  | setDeadline (task : TimerPtr) (now interval : TimeValue)
  | popMinAndPush (task : TimerPtr)
  /-- `PopMin()`; `fired`: `is_fired` -/
  | popMin (task : TimerPtr) (fired : Bool)
  /-- in `pthread_cond_timedwait` with the delay `deadline - now` -/
  | timedWait (now deadline : TimeValue) (notified : Bool)
  /-- unlocked, and `is_fired`: is the task an `EndTimerTask`? -/
  | fire (task : TimerPtr)
  /-- inside `task->Run()` -/
  | running (id : ℕ) (pc : RunPc)
  /-- `NotifyFinished`: `SetState(FINISHED)` -/
  | finish
  /-- the `ConditionNotifyAllLocker` on `m_stateGuard` -/
  | notifyFinished
  | ended
  /-- an exception has left `Run()`, and with it the thread -/
  | escaped
deriving DecidableEq, Repr

/-- The thread holds `m_queue_guard`. -/
def HandlerPc.holds : HandlerPc → Bool
  | .checkEmpty | .check | .getMin | .getCurrentTime _ | .getDeadline _ _ | .isCancelled _ _ _
  | .isRequestCancel _ _ _ | .isIntervalTask _ _ | .getInterval _ _ | .setDeadline _ _ _
  | .popMinAndPush _ | .popMin _ _ => true
  | _ => false

/-- `m_cond.Notify()`, for a thread that may wait. -/
def HandlerPc.notify : HandlerPc → HandlerPc
  | .wait _ => .wait true
  | .timedWait now deadline _ => .timedWait now deadline true
  | pc => pc

/-- The next statement of the body of `TimerTaskHandler::ShutDownHelper`, which is executed by the
    one call whose `compare_exchange_weak` succeeds. -/
inductive HandlerCloserPc where
  /-- no call has set the request flag -/
  | idle
  /-- push an `EndTimerTask` -/
  | pushEnd (now : Bool)
  /-- `Close()` if `now`, else `AsyncClose()` -/
  | close (now : Bool)
  /-- `Close`: lock `m_mutex` of the thread and test `IsFinished()` -/
  | waitFinished
  /-- in `pthread_cond_wait` of `Close` -/
  | waiting (notified : Bool)
  | returned
deriving DecidableEq, Repr

/-- A `TimerTaskHandler` with its thread. -/
structure Handler where
  pc : HandlerPc
  /-- the array of `m_task_queue` -/
  queue : List TimerPtr
  isRequestShutDown : Bool
  /-- `m_isRequestClose` of `m_thread` -/
  isRequestClose : Bool
  /-- `m_thread` is in the state `FINISHED` -/
  finished : Bool
  closer : HandlerCloserPc
  /-- history: what was pushed into the queue, and what was popped from it -/
  pushed : List TimerPtr
  popped : List TimerPtr
  /-- history: the tasks of the add calls that have returned success -/
  accepted : List ℕ
  /-- history: those of them that were pushed before `m_isRequestShutDown` was set -/
  acceptedBefore : List ℕ
  /-- history: the close flag was set when `GetMin` returned the present task -/
  late : Bool
  /-- history: the number of tasks whose `Run` the thread has started, and of those of them for which
      `late` held -/
  started : ℕ
  lateStarted : ℕ
deriving DecidableEq, Repr

/-- `TimerTaskHandler()`, with its thread about to start. -/
def Handler.create : Handler where
  pc := .start
  queue := []
  isRequestShutDown := false
  isRequestClose := false
  finished := false
  closer := .idle
  pushed := []
  popped := []
  accepted := []
  acceptedBefore := []
  late := false
  started := 0
  lateStarted := 0

/-- What an add call is asked for. -/
inductive AddKind where
  /-- `AddCronTimerTask(task, delay_in_ms)` -/
  | cron (delay : TimeValue)
  /-- `AddCycleTimerTask(task, interval_in_ms, is_run_now)` -/
  | cycle (interval : TimeValue) (isRunNow : Bool)
deriving DecidableEq, Repr

/-- The deadline an add call sets, if it has read the clock as `now`. -/
def AddKind.deadline (now : TimeValue) : AddKind → TimeValue
  | .cron delay => now + delay
  | .cycle interval isRunNow => if isRunNow then now else now + interval

namespace ScheduledThreadPool

/-- The next statement of a thread that calls methods of the pool, of a handler or of a task. -/
inductive CallerPc where
  | idle
  /-- `DoAdd..TimerTask` of the pool: `m_isRequestShutDown`, and the test for a null pointer -/
  | addLoad (task : Option ℕ) (kind : AddKind)
  /-- `m_index.fetch_add(1) % GetThreadNum()` -/
  | addIndex (id : ℕ) (kind : AddKind)
  /-- `DoAdd..TimerTask` of the handler `i`: `GetCurrentTime()` -/
  | addNow (i id : ℕ) (kind : AddKind)
  /-- `m_thread->IsRequestClose()` -/
  | addClose (i id : ℕ) (kind : AddKind) (now : TimeValue)
  /-- `task->GetDeadline() != 0` -/
  | addTest (i id : ℕ) (kind : AddKind) (now : TimeValue)
  | addDeadline (i id : ℕ) (kind : AddKind) (now : TimeValue)
  /-- `SetInterval`, of a cycle task -/
  | addInterval (i id : ℕ) (interval : TimeValue)
  /-- lock `m_queue_guard` and push -/
  | addPush (i id : ℕ)
  /-- `ShutDownHelper` of the pool: `compare_exchange_weak`; `now`: called by `ShutDownNow` -/
  | cas (now : Bool)
  /-- in the body of it (see `CloserPc`) -/
  | closing (now : Bool)
  /-- `ShutDownHelper` of the handler `i`: `compare_exchange_weak` -/
  | handlerCas (i : ℕ) (now : Bool)
  /-- in the body of it (see `HandlerCloserPc`) -/
  | handlerClosing (i : ℕ)
  /-- `Cancel`: `m_isRequestCancel.store(true)` -/
  | cancelStore (id : ℕ)
  /-- lock `m_stateGuard` of the task and test `IsStopState()` -/
  | cancelTest (id : ℕ)
  /-- in `pthread_cond_wait` on `m_cancelCondition` -/
  | cancelWaiting (id : ℕ)
deriving DecidableEq, Repr

/-- The next statement of the body of `ScheduledThreadPool::ShutDownHelper`, which is executed by
    the one call whose `compare_exchange_weak` succeeds. -/
inductive CloserPc where
  /-- no call has set the request flag -/
  | idle
  /-- `SetState(STOP)` -/
  | setStop (now : Bool)
  /-- `ShutDownHelper` of the handler `i`: `compare_exchange_weak` -/
  | cas (i : ℕ) (now : Bool)
  /-- in the body of it -/
  | helper (i : ℕ) (now : Bool)
  /-- `SetState(SHUTDOWN)` -/
  | setShutDown (now : Bool)
  | returned
deriving DecidableEq, Repr

/-- `ScheduledThreadPool::State` -/
inductive State where
  | init | running | stop | shutDown
deriving DecidableEq, Repr

end ScheduledThreadPool

/-- A `ScheduledThreadPool` with its handlers `0, …, threadNum - 1`, the tasks, and the threads. -/
structure ScheduledThreadPool where
  state : ScheduledThreadPool.State
  /-- `m_index`, as an unsigned number -/
  index : UInt64
  isRequestShutDown : Bool
  handlers : ℕ → Handler
  tasks : Tasks
  closer : ScheduledThreadPool.CloserPc
  callers : ℕ → ScheduledThreadPool.CallerPc
  /-- history: the tasks of the add calls that have begun -/
  called : List ℕ
  /-- history: a call of `ShutDownNow` has returned -/
  nowReturned : Bool
  /-- history: the tasks of the calls of `Cancel` that have returned -/
  cancelled : List ℕ

/-- The pool when its constructor returns; no handler can have found a task yet. -/
def ScheduledThreadPool.create : ScheduledThreadPool where
  state := .running
  index := 0
  isRequestShutDown := false
  handlers := fun _ => .create
  tasks := fun _ => .create
  closer := .idle
  callers := fun _ => .idle
  called := []
  nowReturned := false
  cancelled := []

/-- `IsShutDown()` -/
def ScheduledThreadPool.isShutDown (s : ScheduledThreadPool) : Bool := decide (s.state = .shutDown)

end Empool
