/-
  The steps of a `ScheduledThreadPool`: what each statement of
  `TimerTaskHandler.cpp`, `TimerTaskQueue.cpp`, `ScheduledThreadPool.cpp` and
  `TaskBase.cpp` does.

  * `Handler.next`: the statement of a handler's thread; it reads and writes its
    handler and the tasks, nothing else;
  * `Handler.closerNext`: the body of `TimerTaskHandler::ShutDownHelper`;
  * `closerNext`: the body of `ScheduledThreadPool::ShutDownHelper`;
  * `callerNext`: the statement of a caller;
  * `step`: one step of the pool.

  `spurious` says that the `compare_exchange_weak` of the statement, if it has
  one, fails spuriously.
-/
import Empool.Timer.State
import Empool.Lib.Run

namespace Empool

open Heap

/-! ## Handlers -/

namespace Handler

variable (h : Handler) (ts : Tasks)

/-- The thread goes to `pc`. -/
def goto (pc : HandlerPc) : Handler := { h with pc := pc }

/-- `checkFunc()`: continue at `pc`, or leave by `CloseableThreadExitException`. -/
def checkFunc (pc : HandlerPc) : Handler := if h.isRequestClose then h.goto .finish else h.goto pc

/-- `while (m_task_queue.IsEmpty())` -/
def isEmpty : Handler := if h.queue.isEmpty then h.goto .checkEmpty else h.goto .check

/-- `PushTask`: push, and signal the thread. -/
def pushTask (ptr : TimerPtr) : Handler :=
  { h with
    pc := h.pc.notify
    queue := push (compareTimerTask ts) h.queue ptr
    pushed := ptr :: h.pushed }

/-- `PopMin` -/
def popMin : Handler :=
  match top h.queue with
  | some minTask => { h with queue := pop (compareTimerTask ts) h.queue, popped := minTask :: h.popped }
  | none => h

/-- `PopMinAndPush` -/
def popMinAndPush : Handler :=
  match top h.queue with
  | some minTask =>
    { h with
      queue := push (compareTimerTask ts) (pop (compareTimerTask ts) h.queue) minTask
      popped := minTask :: h.popped
      pushed := minTask :: h.pushed }
  | none => h

/-- `task->Run()` begins. -/
def startRun (id : ℕ) : Handler :=
  { h with
    pc := .running id .checkCancellation
    started := h.started + 1
    lateStarted := if h.late then h.lateStarted + 1 else h.lateStarted }

/-- One statement of `task->Run()`. -/
def runNext (id : ℕ) (pc : RunPc) (e : DoRunEnd) : Option (Handler × Tasks) :=
  ((ts id).base.run e pc).map fun r =>
    (h.goto (match r.2 with
      | .goto pc => .running id pc
      | .returned => .lock
      | .thrown => .escaped),
    Function.update ts id { ts id with base := r.1 })

/-- The thread's next statement.  `now` is what the clock says, if the statement reads it; `e` says
    how `DoRun` ends, if it is the statement. -/
def next (now : TimeValue) (e : DoRunEnd) : Option (Handler × Tasks) :=
  match h.pc with
  | .start => some (h.checkFunc .lock, ts)
  | .lock | .wait _ => some (h.isEmpty, ts)
  | .checkEmpty => some (h.checkFunc (.wait false), ts)
  | .check => some (h.checkFunc .getMin, ts)
  | .getMin =>
    (top h.queue).map fun task => ({ h.goto (.getCurrentTime task) with late := h.isRequestClose }, ts)
  | .getCurrentTime task => some (h.goto (.getDeadline task now), ts)
  | .getDeadline task now => some (h.goto (.isCancelled task now (ts.get task).deadline), ts)
  | .isCancelled task now deadline =>
    some (h.goto (if (ts.get task).base.state = .cancelled then .popMin task false
      else .isRequestCancel task now deadline), ts)
  | .isRequestCancel task now deadline =>
    some (h.goto (if (ts.get task).base.isRequestCancel then .popMin task true
      else if deadline ≤ now then .isIntervalTask task now
      else .timedWait now deadline false), ts)
  | .isIntervalTask task now =>
    some (h.goto (if (ts.get task).isIntervalTask then .getInterval task now else .popMin task true), ts)
  | .getInterval task now => some (h.goto (.setDeadline task now (ts.get task).interval), ts)
  | .setDeadline task now interval =>
    match task with
    | .task id => some (h.goto (.popMinAndPush task),
        Function.update ts id { ts id with deadline := now + interval })
    -- the interval of an `EndTimerTask` is 0
    | .endTask => none
  | .popMinAndPush task => some ((h.popMinAndPush ts).goto (.fire task), ts)
  | .popMin task fired => some ((h.popMin ts).goto (if fired then .fire task else .lock), ts)
  -- woken, or the time is over: the queue is unlocked, and nothing is fired
  | .timedWait _ _ _ => some (h.goto .lock, ts)
  | .fire (.task id) => some (h.startRun id, ts)
  | .fire .endTask => some (h.goto .finish, ts)
  | .running id pc => h.runNext ts id pc e
  | .finish => some ({ h.goto .notifyFinished with finished := true }, ts)
  | .notifyFinished =>
    some ({ h.goto .ended with
      closer := match h.closer with
        | .waiting notified => .waiting (notified || h.isRequestClose)
        | c => c }, ts)
  | .ended | .escaped => none

/-- `while (!IsFinished()) wait` of `Close` -/
def waitFinished : Handler := { h with closer := if h.finished then .returned else .waiting false }

/-- The next statement of the body of `ShutDownHelper`. -/
def closerNext (spurious : Bool) : Option Handler :=
  match h.closer with
  | .pushEnd now =>
    if h.pc.holds then none else some { h.pushTask ts .endTask with closer := .close now }
  | .close now =>
    if h.isRequestClose || spurious then some { h with closer := .returned }
    else some { h with isRequestClose := true, closer := if now then .waitFinished else .returned }
  | .waitFinished | .waiting _ => some h.waitFinished
  | .idle | .returned => none

/-- `compare_exchange_weak` of `ShutDownHelper`: the handler with the flag set, if it succeeds. -/
def requestShutDown (now spurious : Bool) : Option Handler :=
  if h.isRequestShutDown || spurious then none
  else some { h with isRequestShutDown := true, closer := .pushEnd now }

/-- An add call pushes its task and returns success. -/
def accept (id : ℕ) : Handler :=
  { h.pushTask ts (.task id) with
    accepted := id :: h.accepted
    acceptedBefore := if h.isRequestShutDown then h.acceptedBefore else id :: h.acceptedBefore }

end Handler

namespace ScheduledThreadPool

variable (threadNum : ℕ) (s : ScheduledThreadPool)

/-- The caller `c` goes to `pc`. -/
def callerAt (c : ℕ) (pc : CallerPc) : ScheduledThreadPool :=
  { s with callers := Function.update s.callers c pc }

/-- The handler `i` is now `h`. -/
def setHandler (i : ℕ) (h : Handler) : ScheduledThreadPool :=
  { s with handlers := Function.update s.handlers i h }

/-- The task `id` is now `task`. -/
def setTask (id : ℕ) (task : TimerTask) : ScheduledThreadPool :=
  { s with tasks := Function.update s.tasks id task }

/-! ## Closing the pool -/

/-- The loop over the handlers, at the handler `i`. -/
def loop (i : ℕ) (now : Bool) : CloserPc := if i < threadNum then .cas i now else .setShutDown now

/-- The next statement of the body of `ShutDownHelper`. -/
def closerNext (spurious : Bool) : Option ScheduledThreadPool :=
  match s.closer with
  | .setStop now => some { s with state := .stop, closer := loop threadNum 0 now }
  | .cas i now =>
    match (s.handlers i).requestShutDown now spurious with
    | some h => some { s.setHandler i h with closer := .helper i now }
    | none => some { s with closer := loop threadNum (i + 1) now }
  | .helper i now =>
    if (s.handlers i).closer = .returned then some { s with closer := loop threadNum (i + 1) now }
    else none
  | .setShutDown _ => some { s with state := .shutDown, closer := .returned }
  | .idle | .returned => none

/-! ## Callers -/

/-- `while (!IsStopState()) wait` of `Cancel` -/
def cancelWait (c id : ℕ) : ScheduledThreadPool :=
  let task := { s.tasks id with base := (s.tasks id).base.cancelTest c }
  if (s.tasks id).base.state.stopped then
    { (s.setTask id task).callerAt c .idle with cancelled := id :: s.cancelled }
  else (s.setTask id task).callerAt c (.cancelWaiting id)

/-- `ShutDownHelper` of the pool returns. -/
def shutDownReturns (c : ℕ) (now : Bool) : ScheduledThreadPool :=
  { s.callerAt c .idle with nowReturned := s.nowReturned || now }

/-- The next statement of the caller `c`; `now` is what the clock says, if it reads it. -/
def callerNext (c : ℕ) (now : TimeValue) (spurious : Bool) : Option ScheduledThreadPool :=
  match s.callers c with
  | .idle => none
  | .addLoad task kind =>
    match s.isRequestShutDown, task with
    | false, some id => some (s.callerAt c (.addIndex id kind))
    -- refused, or the null pointer is returned as it is
    | _, _ => some (s.callerAt c .idle)
  | .addIndex id kind =>
    some { s.callerAt c (.addNow (s.index.toNat % threadNum) id kind) with index := s.index + 1 }
  | .addNow i id kind => some (s.callerAt c (.addClose i id kind now))
  | .addClose i id kind now =>
    some (s.callerAt c (if (s.handlers i).isRequestClose then .idle else .addTest i id kind now))
  | .addTest i id kind now =>
    some (s.callerAt c (if (s.tasks id).deadline ≠ 0 then .idle else .addDeadline i id kind now))
  | .addDeadline i id kind now =>
    some ((s.setTask id { s.tasks id with deadline := kind.deadline now }).callerAt c
      (match kind with
        | .cron _ => .addPush i id
        | .cycle interval _ => .addInterval i id interval))
  | .addInterval i id interval =>
    some ((s.setTask id { s.tasks id with interval := interval }).callerAt c (.addPush i id))
  | .addPush i id =>
    if (s.handlers i).pc.holds then none
    else some ((s.setHandler i ((s.handlers i).accept s.tasks id)).callerAt c .idle)
  | .cas now =>
    if s.isRequestShutDown || spurious then some (s.shutDownReturns c now)
    else some { s.callerAt c (.closing now) with isRequestShutDown := true, closer := .setStop now }
  | .closing now => if s.closer = .returned then some (s.shutDownReturns c now) else none
  | .handlerCas i now =>
    match (s.handlers i).requestShutDown now spurious with
    | some h => some ((s.setHandler i h).callerAt c (.handlerClosing i))
    | none => some (s.callerAt c .idle)
  | .handlerClosing i => if (s.handlers i).closer = .returned then some (s.callerAt c .idle) else none
  | .cancelStore id =>
    some ((s.setTask id { s.tasks id with base := (s.tasks id).base.cancelStore }).callerAt c (.cancelTest id))
  | .cancelTest id | .cancelWaiting id => some (s.cancelWait c id)

/-! ## Steps -/

inductive Act where
  /-- the next statement of the thread of the handler `i`, or the end of its wait -/
  | handler (i : ℕ) (now : TimeValue) (e : DoRunEnd)
  /-- the next statement of the body of `ShutDownHelper` of the handler `i`, or the end of its wait -/
  | handlerCloser (i : ℕ) (spurious : Bool)
  /-- the next statement of the body of `ShutDownHelper` of the pool -/
  | closer (spurious : Bool)
  /-- the next statement of the caller `c`, or the end of its wait -/
  | caller (c : ℕ) (now : TimeValue) (spurious : Bool)
  /-- the caller `c` calls `AddCronTimerTask` or `AddCycleTimerTask` of the pool; `none` is the null
      pointer -/
  | add (c : ℕ) (task : Option ℕ) (kind : AddKind)
  /-- the same for the handler `i` -/
  | addHandler (c i id : ℕ) (kind : AddKind)
  /-- the caller `c` calls `ShutDown()` of the pool, or `ShutDownNow()` if `now` -/
  | shutDown (c : ℕ) (now : Bool)
  /-- the same for the handler `i` -/
  | shutDownHandler (c i : ℕ) (now : Bool)
  /-- the caller `c` calls `Cancel()` of the task `id` -/
  | cancel (c id : ℕ)
deriving DecidableEq, Repr

/-- A call begins. -/
def call (c : ℕ) (pc : CallerPc) : Option ScheduledThreadPool :=
  if s.callers c = .idle then some (s.callerAt c pc) else none

/-- An add call for the tasks `ids` begins. -/
def addCall (c : ℕ) (ids : List ℕ) (pc : CallerPc) : Option ScheduledThreadPool :=
  (s.call c pc).map fun t => { t with called := ids ++ t.called }

/-- The thread of the handler `i` takes a step. -/
def handlerNext (i : ℕ) (now : TimeValue) (e : DoRunEnd) : Option ScheduledThreadPool :=
  ((s.handlers i).next s.tasks now e).map fun r => { s.setHandler i r.1 with tasks := r.2 }

/-- One step. -/
def step : Act → Option ScheduledThreadPool
  | .handler i now e => if i < threadNum then s.handlerNext i now e else none
  | .handlerCloser i spurious =>
    ((s.handlers i).closerNext s.tasks spurious).map (s.setHandler i)
  | .closer spurious => s.closerNext threadNum spurious
  | .caller c now spurious => s.callerNext threadNum c now spurious
  | .add c task kind => s.addCall c task.toList (.addLoad task kind)
  | .addHandler c i id kind => if i < threadNum then s.addCall c [id] (.addNow i id kind) else none
  | .shutDown c now => s.call c (.cas now)
  | .shutDownHandler c i now => if i < threadNum then s.call c (.handlerCas i now) else none
  | .cancel c id => s.call c (.cancelStore id)

/-- No task throws, and no `compare_exchange_weak` fails spuriously. -/
def Regular (_ : ScheduledThreadPool) : Act → Prop
  | .handler _ _ e => e ≠ .otherException
  | .handlerCloser _ spurious | .closer spurious | .caller _ _ spurious => spurious = false
  | _ => True

/-- No task throws. -/
def NoThrow (_ : ScheduledThreadPool) : Act → Prop
  | .handler _ _ e => e ≠ .otherException
  | _ => True

theorem Regular.noThrow {s : ScheduledThreadPool} {a : Act} (h : Regular s a) : NoThrow s a := by
  cases a with
  | handler => exact h
  | _ => trivial

/-- The handlers are the pool's own: nobody else calls their methods. -/
def Pooled (_ : ScheduledThreadPool) : Act → Prop
  | .addHandler .. | .shutDownHandler .. => False
  | _ => True

instance (s : ScheduledThreadPool) : ∀ a, Decidable (Regular s a)
  | .handler _ _ e => inferInstanceAs (Decidable (e ≠ _))
  | .handlerCloser _ spurious | .closer spurious | .caller _ _ spurious =>
    inferInstanceAs (Decidable (spurious = false))
  | .add .. | .addHandler .. | .shutDown .. | .shutDownHandler .. | .cancel .. => isTrue trivial

instance (s : ScheduledThreadPool) : ∀ a, Decidable (NoThrow s a)
  | .handler _ _ e => inferInstanceAs (Decidable (e ≠ _))
  | .handlerCloser .. | .closer _ | .caller .. | .add .. | .addHandler .. | .shutDown .. | .shutDownHandler ..
  | .cancel .. => isTrue trivial

instance (s : ScheduledThreadPool) : ∀ a, Decidable (Pooled s a)
  | .addHandler .. | .shutDownHandler .. => isFalse id
  | .handler .. | .handlerCloser .. | .closer _ | .caller .. | .add .. | .shutDown .. | .cancel .. =>
    isTrue trivial

end ScheduledThreadPool

end Empool
