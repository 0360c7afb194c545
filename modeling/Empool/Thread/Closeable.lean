/-
  `CloseableThread`: its own thread, the thread that constructs it, and the
  callers of `Close` and `AsyncClose`.

  `m_state` is written without `m_mutex`, so the statements of the lockers are
  steps of their own and the owner of the mutex is part of the state.  The work
  function returns, or is left by the check it is given; an exception of its own
  is not modelled.

  Fields called history variables are read by no step of the code.
-/
import Empool.Lib.Run
import Empool.Lib.Update
import Mathlib.Data.List.Basic

namespace Empool

namespace CloseableThread

/-- `CloseableThread::State` -/
inductive State where
  | init | running | finished
deriving DecidableEq, Repr

/-- The next statement of `Init`. -/
inductive InitPc where
  /-- `new Thread(..)` -/
  | create
  /-- `m_thread.reset(..)` -/
  | store
  | returned
deriving DecidableEq, Repr

/-- The next statement of `ThreadFunction`. -/
inductive ThreadPc where
  /-- the thread has not been created -/
  | unborn
  /-- `SetState(RUNNING)` -/
  | setRunning
  /-- `CheckIsRequestClose()` before the work function -/
  | check
  /-- inside `m_workFunction` -/
  | work
  /-- `CloseableThreadExitException` caught: `m_thread->GetThreadId()` for the message -/
  | caught
  /-- `m_finishAction(GetThreadId())`, if there is one -/
  | finishAction
  /-- `NotifyFinished`: `SetState(FINISHED)` -/
  | setFinished
  /-- the `ConditionNotifyAllLocker` on `m_stateGuard`: `Lock()` -/
  | lock
  /-- `NotifyAll()`, if `IsRequestClose()` -/
  | notifyAll
  /-- `Unlock()` -/
  | unlock
  | ended
deriving DecidableEq, Repr

/-- The next statement of a thread that calls `Close` or `AsyncClose`. -/
inductive CallerPc where
  | idle
  /-- `AsyncClose`: `compare_exchange_weak` -/
  | asyncCas
  /-- `Close`: `compare_exchange_weak` -/
  | cas
  /-- the `ConditionWaitLocker` on `m_stateGuard`: `Lock()` -/
  | lock
  /-- the test of its loop -/
  | test
  /-- `pthread_cond_wait` is about to give the mutex back -/
  | wait
  /-- in `pthread_cond_wait`; `notified`: it has been broadcast to -/
  | waiting (notified : Bool)
  /-- `Unlock()`, and the return from `Close` -/
  | unlock
deriving DecidableEq, Repr

/-- A caller that has been broadcast to, if it waits. -/
def CallerPc.notify : CallerPc → CallerPc
  | .waiting _ => .waiting true
  | pc => pc

/-- Inside `Close`. -/
def CallerPc.closing : CallerPc → Prop
  | .idle | .asyncCas => False
  | .cas | .lock | .test | .wait | .waiting _ | .unlock => True

/-- Who holds `m_mutex`. -/
inductive Owner where
  | thread
  | caller (c : ℕ)
deriving DecidableEq, Repr

end CloseableThread

/-- A `CloseableThread` with the threads that use it. -/
structure CloseableThread where
  /-- `m_state` -/
  state : CloseableThread.State
  /-- the owner of `m_mutex` -/
  mutex : Option CloseableThread.Owner
  isRequestClose : Bool
  /-- `m_finishAction` is not empty -/
  hasFinishAction : Bool
  /-- `m_thread` is set -/
  handle : Bool
  initPc : CloseableThread.InitPc
  thread : CloseableThread.ThreadPc
  callers : ℕ → CloseableThread.CallerPc
  /-- history: the calls of the finish action -/
  finishCalls : ℕ
  /-- history: `m_thread` has been dereferenced before it was set -/
  nullHandle : Bool

namespace CloseableThread

/-- The constructor has been called, and is about to call `Init`. -/
def create (hasFinishAction : Bool) : CloseableThread where
  state := .init
  mutex := none
  isRequestClose := false
  hasFinishAction := hasFinishAction
  handle := false
  initPc := .create
  thread := .unborn
  callers := fun _ => .idle
  finishCalls := 0
  nullHandle := false

variable (s : CloseableThread)

/-- The caller `c` goes to `pc`. -/
def callerAt (c : ℕ) (pc : CallerPc) : CloseableThread :=
  { s with callers := Function.update s.callers c pc }

/-- The next statement of `Init`. -/
def initNext : Option CloseableThread :=
  match s.initPc with
  | .create => some { s with initPc := .store, thread := .setRunning }
  | .store => some { s with initPc := .returned, handle := true }
  | .returned => none

/-- `CheckIsRequestClose()`: continue in the work function, or leave it. -/
def checkIsRequestClose : CloseableThread :=
  { s with thread := if s.isRequestClose then .caught else .work }

/-- The next statement of `ThreadFunction`, outside the work function. -/
def threadNext : Option CloseableThread :=
  match s.thread with
  | .unborn | .work | .ended => none
  | .setRunning => some { s with state := .running, thread := .check }
  | .check => some s.checkIsRequestClose
  | .caught => some { s with thread := .finishAction, nullHandle := s.nullHandle || !s.handle }
  | .finishAction =>
    if s.hasFinishAction then
      some { s with
        thread := .setFinished
        finishCalls := s.finishCalls + 1
        nullHandle := s.nullHandle || !s.handle }
    else some { s with thread := .setFinished }
  | .setFinished => some { s with state := .finished, thread := .lock }
  | .lock => if s.mutex = none then some { s with mutex := some .thread, thread := .notifyAll } else none
  | .notifyAll =>
    some { s with
      thread := .unlock
      callers := if s.isRequestClose then fun c => (s.callers c).notify else s.callers }
  | .unlock => some { s with mutex := none, thread := .ended }

/-- The thread `c` gets the mutex, if it is free. -/
def callerLock (c : ℕ) : Option CloseableThread :=
  if s.mutex = none then some { s.callerAt c .test with mutex := some (.caller c) } else none

/-- The next statement of `Close` or `AsyncClose`; `spurious`: a `compare_exchange_weak` fails although the
    flag is not set. -/
def callerNext (c : ℕ) (spurious : Bool) : Option CloseableThread :=
  match s.callers c with
  | .idle => none
  | .asyncCas =>
    some { s.callerAt c .idle with isRequestClose := s.isRequestClose || !spurious }
  | .cas =>
    if s.isRequestClose || spurious then some (s.callerAt c .idle)
    else some { s.callerAt c .lock with isRequestClose := true }
  | .lock => s.callerLock c
  | .test => some (s.callerAt c (if s.state = .finished then .unlock else .wait))
  | .wait => some { s.callerAt c (.waiting false) with mutex := none }
  | .waiting _ => s.callerLock c
  | .unlock => some { s.callerAt c .idle with mutex := none }

inductive Act where
  /-- the next statement of `Init` -/
  | init
  /-- the next statement of `ThreadFunction` -/
  | thread
  /-- the work function calls the check it is given -/
  | checkFunc
  /-- the work function returns -/
  | workReturn
  /-- the thread `c` calls `Close` -/
  | close (c : ℕ)
  /-- the thread `c` calls `AsyncClose` -/
  | asyncClose (c : ℕ)
  /-- the next statement of the call in which `c` is; in a wait: it ends, after a broadcast or spuriously -/
  | caller (c : ℕ) (spurious : Bool)
deriving DecidableEq, Repr

/-- The thread `c` calls a method, at `pc`: it is in no call, and the constructor has returned. -/
def call (c : ℕ) (pc : CallerPc) : Option CloseableThread :=
  if s.callers c = .idle ∧ s.initPc = .returned then some (s.callerAt c pc) else none

/-- One step. -/
def step : Act → Option CloseableThread
  | .init => s.initNext
  | .thread => s.threadNext
  | .checkFunc => if s.thread = .work then some s.checkIsRequestClose else none
  | .workReturn => if s.thread = .work then some { s with thread := .finishAction } else none
  | .close c => s.call c .cas
  | .asyncClose c => s.call c .asyncCas
  | .caller c spurious => s.callerNext c spurious

end CloseableThread

end Empool
