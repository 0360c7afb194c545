/-
  The steps of a `ScalingThreadPool`: what each statement of `WorkerThread.cpp`,
  `CloseableThread.cpp` and `ScalingThreadPool.cpp` does to the pool.

  An action is a thread's next statement, with the outcome where the statement
  has several: a wait may end by a wake-up or by its time limit, a task may
  return or throw, and `compare_exchange_weak` may fail spuriously.

  * `workerAct`, `monitorAct`, `callerAct`, `closerAct`: the effect;
  * `Enabled`: when a thread can take the action;
  * `step`: the state after an enabled action.
-/
import Empool.Scaling.State
import Empool.Lib.Run

namespace Empool

/-! ## Worker threads -/

inductive WorkerAct where
  | start | check | pop
  /-- woken in `PopTimeWait`: test the queue again -/
  | wake
  /-- `pthread_cond_timedwait` returns its timeout code -/
  | timeout
  | judge
  | asyncClose (spurious : Bool)
  | recheck | dispatch
  /-- `Run()` returns (`DoRun` returned, or left by `TaskCancelException`) -/
  | runReturn
  /-- `Run()` is left by any other exception -/
  | runThrow
  | finish | subPush | subNotify | count | compare | setShutDown | notifyAll | notifyFinished
deriving DecidableEq, Repr

/-- The statement at which a worker takes the action. -/
def WorkerAct.at : WorkerAct → WorkerPc
  | .start => .start
  | .check => .check
  | .pop => .pop
  | .wake => .popWait
  | .timeout => .popWait
  | .judge => .judge
  | .asyncClose _ => .asyncClose
  | .recheck => .recheck
  | .dispatch => .dispatch
  | .runReturn => .running
  | .runThrow => .running
  | .finish => .finish
  | .subPush => .subPush
  | .subNotify => .subNotify
  | .count => .count
  | .compare => .compare
  | .setShutDown => .setShutDown
  | .notifyAll => .notifyAll
  | .notifyFinished => .notifyFinished

/-- Does the action lock `m_addOrSubThreadNumGuard`? -/
def WorkerAct.locks : WorkerAct → Bool
  | .judge | .subPush | .subNotify => true
  | _ => false

namespace Worker
variable (wk : Worker)

/-- `checkFunc()`: continue at `pc`, or leave by `CloseableThreadExitException`
    and call the finish action. -/
def checkFunc (pc : WorkerPc) : Worker :=
  if wk.isRequestClose then { wk with pc := .finish, finishCalls := wk.finishCalls + 1 }
  else { wk with pc := pc }

/-- `BlockingQueue::PopTimeWait` with the queue locked: take the front, or wait. -/
def popTimeWait (s : Pool) : Worker × Pool :=
  match s.taskQueue with
  | [] => ({ wk with pc := .popWait }, s)
  | t :: q => ({ wk with pc := .dispatch, runningTask := some t },
      { s with taskQueue := q, popped := s.popped ++ [t] })

end Worker

/-- What a worker in the state `wk` does: its own new state, and the pool's. -/
def workerAct (cfg : Config) (s : Pool) (wk : Worker) : WorkerAct → Worker × Pool
  | .start => (wk.checkFunc .check, s)
  | .check => (wk.checkFunc .pop, s)
  | .pop => wk.popTimeWait s
  | .wake => wk.popTimeWait s
  -- `TimeWait` returns false without another look at the queue
  | .timeout => ({ wk with pc := .judge }, s)
  | .judge => ({ wk with pc := if s.ifMoreThan cfg then .asyncClose else .check }, s)
  | .asyncClose spurious =>
    ({ wk with pc := .recheck, isRequestClose := wk.isRequestClose || !spurious }, s)
  | .recheck => (wk.checkFunc .check, s)
  | .dispatch =>
    match wk.runningTask with
    | some .endTask => ({ wk with pc := .finish, finishCalls := wk.finishCalls + 1 }, s)
    | some (.user _) => ({ wk with pc := .running, started := wk.started + 1 }, s)
    | none => ({ wk with pc := .check }, s)
  | .runReturn => ({ wk with pc := .check },
      { s with completed := s.completed ++ wk.runningTask.toList })
  -- only `Thread::ThreadFunction` catches it: the finish action is skipped
  | .runThrow => ({ wk with pc := .ended }, s)
  | .finish =>
    if s.isRequestShutDown then ({ wk with pc := .count }, s)
    else ({ wk with pc := .subPush, retired := true }, s)
  | .subPush => ({ wk with pc := .subNotify },
      { s with subWorkerThreadId := s.subWorkerThreadId ++ [wk.threadId] })
  | .subNotify => ({ wk with pc := .notifyFinished }, s.notifyMonitor cfg)
  | .count => ({ wk with pc := .compare, stoppedThreadNum := s.stoppedThreadNum + 1, counted := true },
      { s with stoppedThreadNum := s.stoppedThreadNum + 1 })
  | .compare => ({ wk with pc :=
      if s.threads.length ≤ wk.stoppedThreadNum then .setShutDown else .notifyFinished }, s)
  | .setShutDown => ({ wk with pc := .notifyAll }, { s with state := .shutDown })
  | .notifyAll => ({ wk with pc := .notifyFinished },
      if s.isRequestShutDown then s.notifyAllState else s)
  | .notifyFinished => ({ wk with pc := .ended }, s)

/-- The pool after the worker `w` has taken the action. -/
def workerNext (cfg : Config) (s : Pool) (w : ℕ) (a : WorkerAct) : Pool :=
  let r := workerAct cfg s (s.workers w) a
  { r.2 with workers := Function.update s.workers w r.1 }

/-! ## The monitor thread -/

inductive MonitorAct where
  | start | check | lock
  /-- woken in `cond.TimeWait`: lock the guard and test again -/
  | wake
  /-- `pthread_cond_timedwait` returns its timeout code, with the guard locked -/
  | timeout
  | recheck | grow
  /-- `new WorkerThread(..)`, to which the kernel gives the id -/
  | create (threadId : ThreadId)
  | insert | joinNew
  /-- `SubWorkerThread` of the next id: `find` -/
  | find
  /-- the worker found has ended: `erase` -/
  | join
  /-- the loop is done: `clear()`, and the guard is unlocked -/
  | clear
  | finish
deriving DecidableEq, Repr

def MonitorAct.at : MonitorAct → MonitorPc
  | .start => .start
  | .check => .check
  | .lock => .lock
  | .wake => .wait
  | .timeout => .wait
  | .recheck => .recheck
  | .grow => .grow
  | .create _ => .create
  | .insert => .insert
  | .joinNew => .joinNew
  | .find => .sub
  | .join => .join
  | .clear => .sub
  | .finish => .finish

/-- Does the action lock `m_addOrSubThreadNumGuard`? -/
def MonitorAct.locks : MonitorAct → Bool
  | .lock | .wake | .timeout => true
  | _ => false

namespace Pool
variable (cfg : Config) (s : Pool)

/-- The monitor goes to `pc`. -/
def monitorAt (pc : MonitorPc) : Pool := { s with monitor := { s.monitor with pc := pc } }

/-- The entry of `m_threads` with the id. -/
def findThread (id : ThreadId) : Option (ThreadId × ℕ) := s.threads.find? fun e => e.1 = id

/-- `while (!JudgeFunc()) wait`: keep the guard, or release it and wait. -/
def timeWait : Pool :=
  if s.judgeFunc cfg then { s.monitorAt .recheck with guard := some .monitor }
  else { s with monitor := { s.monitor with pc := .wait, notified := false } }

/-- The loop over `m_subWorkerThreadId` begins. -/
def monitorSub : Pool :=
  { s with monitor := { s.monitor with pc := .sub, iter := s.subWorkerThreadId } }

end Pool

/-- What the monitor does. -/
def monitorAct (cfg : Config) (s : Pool) : MonitorAct → Pool
  | .start => s.monitorAt (if s.monitor.isRequestClose then .finish else .check)
  | .check => s.monitorAt (if s.monitor.isRequestClose then .finish else .lock)
  | .lock => s.timeWait cfg
  | .wake => s.timeWait cfg
  | .timeout => { s.monitorAt .recheck with guard := some .monitor }
  | .recheck =>
    if s.monitor.isRequestClose then { s.monitorAt .finish with guard := none }
    else s.monitorAt .grow
  | .grow =>
    if taskQueueSizeThreshold < s.taskQueue.length ∧ s.threads.length < cfg.maxThreadSize then
      s.monitorAt .create
    else s.monitorSub
  | .create id =>
    { s with
      workers := Function.update s.workers s.workerNum (Worker.create id)
      workerNum := s.workerNum + 1
      monitor := { s.monitor with pc := .insert, newWorker := s.workerNum } }
  | .insert =>
    let id := (s.workers s.monitor.newWorker).threadId
    -- `unordered_map::insert` keeps an entry that is there
    if (s.findThread id).isSome then s.monitorAt .joinNew
    else { s.monitorSub with threads := s.threads ++ [(id, s.monitor.newWorker)] }
  | .joinNew => s.monitorSub
  | .find =>
    match s.monitor.iter.head?.bind s.findThread with
    | some e => { s with monitor := { s.monitor with pc := .join, victim := e } }
    | none => { s with monitor := { s.monitor with iter := s.monitor.iter.tail } }
  | .join =>
    { s with
      threads := s.threads.erase s.monitor.victim
      monitor := { s.monitor with pc := .sub, iter := s.monitor.iter.tail } }
  | .clear => { s.monitorAt .check with subWorkerThreadId := [], guard := none }
  | .finish => s.monitorAt .ended

/-! ## Callers and the closing sequence -/

inductive CallerAct where
  /-- call `AddTask(task)`; `none` is the null pointer -/
  | addTask (task : Option Task)
  /-- call `ShutDown()`, or `ShutDownNow()` if `now` -/
  | shutDown (now : Bool)
  | load | push | notify
  | cas (spurious : Bool)
  /-- the closing sequence is done: return from `ShutDown()` -/
  | resume
  | testState
  /-- woken in `ShutDownNow`: test the state again -/
  | wake
deriving DecidableEq, Repr

def CallerAct.at : CallerAct → CallerPc
  | .addTask _ => .idle
  | .shutDown _ => .idle
  | .load => .load
  | .push => .push
  | .notify => .notify
  | .cas _ => .cas
  | .resume => .closing
  | .testState => .testState
  | .wake => .waiting

def CallerAct.locks : CallerAct → Bool
  | .notify => true
  | _ => false

namespace Caller
variable (cl : Caller)

/-- `ShutDown()` returns: to the user, or into `ShutDownNow()`. -/
def afterShutDown : Caller := if cl.now then { cl with pc := .testState } else Caller.idle

/-- `while (!DoIsShutDown()) wait` of `ShutDownNow()`. -/
def waitState (s : Pool) : Caller :=
  if s.state = .shutDown then Caller.idle else { cl with pc := .waiting, notified := false }

end Caller

/-- What a caller in the state `cl` does: its own new state, and the pool's. -/
def callerAct (cfg : Config) (s : Pool) (cl : Caller) : CallerAct → Caller × Pool
  | .addTask task => ({ Caller.idle with pc := .load, task := task }, s)
  | .shutDown now => ({ Caller.idle with pc := .cas, now := now }, s)
  | .load =>
    -- a null pointer is returned as it is
    if s.isRequestShutDown || cl.task.isNone then (Caller.idle, s) else ({ cl with pc := .push }, s)
  | .push => ({ cl with pc := .notify }, cl.task.elim s s.pushTask)
  | .notify => (Caller.idle, s.notifyMonitor cfg)
  | .cas spurious =>
    if s.isRequestShutDown || spurious then (cl.afterShutDown, s)
    else ({ cl with pc := .closing },
      { s with isRequestShutDown := true, closer := { s.closer with pc := .setStop } })
  | .resume => (cl.afterShutDown, s)
  | .testState => (cl.waitState s, s)
  | .wake => (cl.waitState s, s)

/-- The pool after the caller `c` has taken the action. -/
def callerNext (cfg : Config) (s : Pool) (c : ℕ) (a : CallerAct) : Pool :=
  let r := callerAct cfg s (s.callers c) a
  { r.2 with callers := Function.update s.callers c r.1 }

inductive CloserAct where
  | setStop | lock
  /-- `AsyncClose()` of a worker that the pass has still to visit -/
  | asyncClose (w : ℕ) (spurious : Bool)
  /-- the pass is over: `threadNum = m_threads.size()` -/
  | threadNum
  | pushEnd
  /-- the guard is unlocked -/
  | unlock
  | closeMonitor (spurious : Bool)
  | subPush | notify
deriving DecidableEq, Repr

def CloserAct.at : CloserAct → CloserPc
  | .setStop => .setStop
  | .lock => .lock
  | .asyncClose _ _ => .asyncClose
  | .threadNum => .asyncClose
  | .pushEnd => .pushEnd
  | .unlock => .pushEnd
  | .closeMonitor _ => .closeMonitor
  | .subPush => .subPush
  | .notify => .notify

def CloserAct.locks : CloserAct → Bool
  | .lock | .subPush | .notify => true
  | _ => false

/-- The closing sequence goes to `pc`. -/
def Pool.closerAt (s : Pool) (pc : CloserPc) : Pool := { s with closer := { s.closer with pc := pc } }

/-- What the closing sequence does. -/
def closerAct (cfg : Config) (s : Pool) : CloserAct → Pool
  | .setStop => { s.closerAt .lock with state := .stop }
  | .lock =>
    { s with
      guard := some .closer
      closer := { s.closer with pc := .asyncClose, rest := s.threads.map Prod.snd } }
  | .asyncClose w spurious =>
    { s with
      workers := Function.update s.workers w
        { s.workers w with isRequestClose := (s.workers w).isRequestClose || !spurious }
      closer := { s.closer with rest := s.closer.rest.erase w } }
  | .threadNum => { s with closer := { s.closer with pc := .pushEnd, endTasks := s.threads.length } }
  | .pushEnd =>
    { s.pushTask .endTask with closer := { s.closer with endTasks := s.closer.endTasks - 1 } }
  | .unlock => { s.closerAt .closeMonitor with guard := none }
  | .closeMonitor spurious =>
    { s.closerAt .subPush with
      monitor := { s.monitor with isRequestClose := s.monitor.isRequestClose || !spurious } }
  | .subPush => { s.closerAt .notify with subWorkerThreadId := s.subWorkerThreadId ++ [0] }
  | .notify => (s.closerAt .returned).notifyMonitor cfg

/-! ## Steps of the pool -/

inductive Act where
  | worker (w : ℕ) (a : WorkerAct)
  | monitor (a : MonitorAct)
  | caller (c : ℕ) (a : CallerAct)
  | closer (a : CloserAct)
deriving DecidableEq, Repr

/-- What an action needs besides its thread being there and the guard being free. -/
def MonitorAct.ready (s : Pool) : MonitorAct → Prop
  -- only threads that live at the same time have different ids
  | .create id => id ≠ 0 ∧ ∀ w < s.workerNum, (s.workers w).pc ≠ .ended → (s.workers w).threadId ≠ id
  | .joinNew => (s.workers s.monitor.newWorker).pc = .ended
  | .find => s.monitor.iter ≠ []
  | .join => (s.workers s.monitor.victim.2).pc = .ended
  | .clear => s.monitor.iter = []
  | _ => True

def CloserAct.ready (s : Pool) : CloserAct → Prop
  | .asyncClose w _ => w ∈ s.closer.rest
  | .threadNum => s.closer.rest = []
  | .pushEnd => s.closer.endTasks ≠ 0
  | .unlock => s.closer.endTasks = 0
  | _ => True

def CallerAct.ready (s : Pool) : CallerAct → Prop
  | .resume => s.closer.pc = .returned
  | _ => True

/-- Can the action be taken? -/
def Enabled (s : Pool) : Act → Prop
  | .worker w a => w < s.workerNum ∧ (s.workers w).pc = a.at ∧ (a.locks → s.guard = none)
  | .monitor a => s.monitor.pc = a.at ∧ (a.locks → s.guard = none) ∧ a.ready s
  | .caller c a => (s.callers c).pc = a.at ∧ (a.locks → s.guard = none) ∧ a.ready s
  | .closer a => s.closer.pc = a.at ∧ (a.locks → s.guard = none) ∧ a.ready s

instance (s : Pool) : (a : MonitorAct) → Decidable (a.ready s)
  | .create _ => inferInstanceAs (Decidable (_ ∧ ∀ w < _, _ → _))
  | .find => inferInstanceAs (Decidable (_ ≠ _))
  | .joinNew | .join | .clear => inferInstanceAs (Decidable (_ = _))
  | .start | .check | .lock | .wake | .timeout | .recheck | .grow | .insert | .finish =>
    inferInstanceAs (Decidable True)

instance (s : Pool) : (a : CloserAct) → Decidable (a.ready s)
  | .asyncClose _ _ => inferInstanceAs (Decidable (_ ∈ _))
  | .pushEnd => inferInstanceAs (Decidable (_ ≠ _))
  | .threadNum | .unlock => inferInstanceAs (Decidable (_ = _))
  | .setStop | .lock | .closeMonitor _ | .subPush | .notify => inferInstanceAs (Decidable True)

instance (s : Pool) : (a : CallerAct) → Decidable (a.ready s)
  | .resume => inferInstanceAs (Decidable (_ = _))
  | .addTask _ | .shutDown _ | .load | .push | .notify | .cas _ | .testState | .wake =>
    inferInstanceAs (Decidable True)

instance (s : Pool) : (a : Act) → Decidable (Enabled s a)
  | .worker _ _ | .monitor _ | .caller _ _ | .closer _ => inferInstanceAs (Decidable (_ ∧ _ ∧ _))

/-- The effect of an action. -/
def next (cfg : Config) (s : Pool) : Act → Pool
  | .worker w a => workerNext cfg s w a
  | .monitor a => monitorAct cfg s a
  | .caller c a => callerNext cfg s c a
  | .closer a => closerAct cfg s a

/-- One step of the pool. -/
def step (cfg : Config) (s : Pool) (a : Act) : Option Pool :=
  if Enabled s a then some (next cfg s a) else none

theorem step_eq_some {cfg : Config} {s t : Pool} {a : Act} :
    step cfg s a = some t ↔ Enabled s a ∧ t = next cfg s a := by
  unfold step
  split_ifs with h
  · simp [h, eq_comm]
  · simp [h]

end Empool
