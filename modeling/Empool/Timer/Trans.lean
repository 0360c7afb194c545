/-
  What a step of a `ScheduledThreadPool` can do.

  `HandlerTrans`, `HandlerCloserTrans` and `Trans` list the cases of
  `Handler.next`, `Handler.closerNext` and `step`, each with the test that leads
  to it; the proofs about steps go by cases on them and unfold no step.
-/
import Empool.Timer.Step

namespace Empool

open Heap

variable {h h' : Handler} {ts ts' : Tasks} {now : TimeValue} {e : DoRunEnd}

/-- The thread is about to look whether the queue is empty. -/
def HandlerPc.looks : HandlerPc → Prop
  | .lock | .wait _ => True
  | _ => False

/-- The thread executes `CheckIsRequestClose()`, at one of three places. -/
def HandlerPc.checks : HandlerPc → Prop
  | .start | .checkEmpty | .check => True
  | _ => False

instance : DecidablePred HandlerPc.checks
  | .start | .checkEmpty | .check => isTrue trivial
  | .lock | .wait _ | .getMin | .getCurrentTime _ | .getDeadline _ _ | .isCancelled _ _ _ | .isRequestCancel _ _ _
  | .popMin _ _ | .timedWait _ _ _ | .isIntervalTask _ _ | .getInterval _ _ | .setDeadline _ _ _
  | .popMinAndPush _ | .fire _ | .running _ _ | .finish | .notifyFinished | .ended | .escaped => isFalse id

/-- `HandlerTrans h ts h' ts'`: a statement of the handler's thread leads from `h` and the tasks `ts`
    to `h'` and `ts'`. -/
inductive HandlerTrans (h : Handler) (ts : Tasks) : Handler → Tasks → Prop
  | leave (hpc : h.pc.checks) (hcl : h.isRequestClose = true) : HandlerTrans h ts (h.goto .finish) ts
  | start (hpc : h.pc = .start) (hcl : h.isRequestClose = false) : HandlerTrans h ts (h.goto .lock) ts
  | wait (hpc : h.pc = .checkEmpty) (hcl : h.isRequestClose = false) :
      HandlerTrans h ts (h.goto (.wait false)) ts
  | check (hpc : h.pc = .check) (hcl : h.isRequestClose = false) : HandlerTrans h ts (h.goto .getMin) ts
  | empty (hpc : h.pc.looks) (hq : h.queue = []) : HandlerTrans h ts (h.goto .checkEmpty) ts
  | nonempty (hpc : h.pc.looks) (hq : h.queue ≠ []) : HandlerTrans h ts (h.goto .check) ts
  | getMin {task : TimerPtr} (hpc : h.pc = .getMin) (htop : top h.queue = some task) :
      HandlerTrans h ts { h.goto (.getCurrentTime task) with late := h.isRequestClose } ts
  | getCurrentTime {task : TimerPtr} {now : TimeValue} (hpc : h.pc = .getCurrentTime task) :
      HandlerTrans h ts (h.goto (.getDeadline task now)) ts
  | getDeadline {task : TimerPtr} {now : TimeValue} (hpc : h.pc = .getDeadline task now) :
      HandlerTrans h ts (h.goto (.isCancelled task now (ts.get task).deadline)) ts
  | isCancelled {task : TimerPtr} {now deadline : TimeValue} (hpc : h.pc = .isCancelled task now deadline)
      (hst : (ts.get task).base.state = .cancelled) : HandlerTrans h ts (h.goto (.popMin task false)) ts
  | notCancelled {task : TimerPtr} {now deadline : TimeValue} (hpc : h.pc = .isCancelled task now deadline)
      (hst : (ts.get task).base.state ≠ .cancelled) :
      HandlerTrans h ts (h.goto (.isRequestCancel task now deadline)) ts
  | isRequestCancel {task : TimerPtr} {now deadline : TimeValue}
      (hpc : h.pc = .isRequestCancel task now deadline) (hreq : (ts.get task).base.isRequestCancel = true) :
      HandlerTrans h ts (h.goto (.popMin task true)) ts
  | due {task : TimerPtr} {now deadline : TimeValue} (hpc : h.pc = .isRequestCancel task now deadline)
      (hreq : (ts.get task).base.isRequestCancel = false) (hdue : deadline ≤ now) :
      HandlerTrans h ts (h.goto (.isIntervalTask task now)) ts
  | notDue {task : TimerPtr} {now deadline : TimeValue} (hpc : h.pc = .isRequestCancel task now deadline)
      (hreq : (ts.get task).base.isRequestCancel = false) (hdue : ¬ deadline ≤ now) :
      HandlerTrans h ts (h.goto (.timedWait now deadline false)) ts
  | isIntervalTask {task : TimerPtr} {now : TimeValue} (hpc : h.pc = .isIntervalTask task now)
      (hint : (ts.get task).isIntervalTask = true) : HandlerTrans h ts (h.goto (.getInterval task now)) ts
  | noIntervalTask {task : TimerPtr} {now : TimeValue} (hpc : h.pc = .isIntervalTask task now)
      (hint : (ts.get task).isIntervalTask = false) : HandlerTrans h ts (h.goto (.popMin task true)) ts
  | getInterval {task : TimerPtr} {now : TimeValue} (hpc : h.pc = .getInterval task now) :
      HandlerTrans h ts (h.goto (.setDeadline task now (ts.get task).interval)) ts
  | setDeadline {id : ℕ} {now interval : TimeValue} (hpc : h.pc = .setDeadline (.task id) now interval) :
      HandlerTrans h ts (h.goto (.popMinAndPush (.task id)))
        (Function.update ts id { ts id with deadline := now + interval })
  | popMinAndPush {task : TimerPtr} (hpc : h.pc = .popMinAndPush task) :
      HandlerTrans h ts ((h.popMinAndPush ts).goto (.fire task)) ts
  | popMin {task : TimerPtr} {fired : Bool} (hpc : h.pc = .popMin task fired) :
      HandlerTrans h ts ((h.popMin ts).goto (if fired then .fire task else .lock)) ts
  | timedWait {now deadline : TimeValue} {notified : Bool} (hpc : h.pc = .timedWait now deadline notified) :
      HandlerTrans h ts (h.goto .lock) ts
  | fire {id : ℕ} (hpc : h.pc = .fire (.task id)) : HandlerTrans h ts (h.startRun id) ts
  | stop (hpc : h.pc = .fire .endTask) : HandlerTrans h ts (h.goto .finish) ts
  | run {id : ℕ} {pc pc' : RunPc} {e : DoRunEnd} {b : TaskBase} (hpc : h.pc = .running id pc)
      (hrun : (ts id).base.run e pc = some (b, .goto pc')) :
      HandlerTrans h ts (h.goto (.running id pc')) (Function.update ts id { ts id with base := b })
  | runReturn {id : ℕ} {pc : RunPc} {e : DoRunEnd} {b : TaskBase} (hpc : h.pc = .running id pc)
      (hrun : (ts id).base.run e pc = some (b, .returned)) :
      HandlerTrans h ts (h.goto .lock) (Function.update ts id { ts id with base := b })
  | runThrow {id : ℕ} {pc : RunPc} {e : DoRunEnd} {b : TaskBase} (hpc : h.pc = .running id pc)
      (hrun : (ts id).base.run e pc = some (b, .thrown)) :
      HandlerTrans h ts (h.goto .escaped) (Function.update ts id { ts id with base := b })
  | finish (hpc : h.pc = .finish) : HandlerTrans h ts { h.goto .notifyFinished with finished := true } ts
  | notifyFinished (hpc : h.pc = .notifyFinished) {c : HandlerCloserPc}
      (hc : c = h.closer ∨ ∃ n m, h.closer = .waiting n ∧ c = .waiting m) :
      HandlerTrans h ts { h.goto .ended with closer := c } ts

/-- `PopMin` changes the queue and its history. -/
theorem popMin_eq (h : Handler) (ts : Tasks) :
    ∃ queue popped, h.popMin ts = { h with queue := queue, popped := popped } := by
  unfold Handler.popMin
  split
  · exact ⟨_, _, rfl⟩
  · exact ⟨h.queue, h.popped, rfl⟩

/-- So does `PopMinAndPush`. -/
theorem popMinAndPush_eq (h : Handler) (ts : Tasks) : ∃ queue popped pushed,
    h.popMinAndPush ts = { h with queue := queue, popped := popped, pushed := pushed } := by
  unfold Handler.popMinAndPush
  split
  · exact ⟨_, _, _, rfl⟩
  · exact ⟨h.queue, h.popped, h.pushed, rfl⟩

/-- What the thread leaves to the callers. -/
theorem HandlerTrans.frame (ht : HandlerTrans h ts h' ts') :
    h'.isRequestShutDown = h.isRequestShutDown ∧ h'.isRequestClose = h.isRequestClose ∧
    h'.accepted = h.accepted ∧ h'.acceptedBefore = h.acceptedBefore ∧
    (h'.closer = h.closer ∨ ∃ n m, h.closer = .waiting n ∧ h'.closer = .waiting m) := by
  cases ht with
  | popMin hpc =>
    obtain ⟨queue, popped, heq⟩ := popMin_eq h ts
    rw [heq]
    exact ⟨rfl, rfl, rfl, rfl, .inl rfl⟩
  | popMinAndPush hpc =>
    obtain ⟨queue, popped, pushed, heq⟩ := popMinAndPush_eq h ts
    rw [heq]
    exact ⟨rfl, rfl, rfl, rfl, .inl rfl⟩
  | notifyFinished hpc hc => exact ⟨rfl, rfl, rfl, rfl, hc⟩
  | _ => exact ⟨rfl, rfl, rfl, rfl, .inl rfl⟩

theorem handlerTrans_checkFunc {pc : HandlerPc} (hpc : h.pc.checks)
    (hgo : h.isRequestClose = false → HandlerTrans h ts (h.goto pc) ts) :
    HandlerTrans h ts (h.checkFunc pc) ts := by
  unfold Handler.checkFunc
  split_ifs with hcl
  · exact .leave hpc hcl
  · exact hgo (Bool.eq_false_iff.2 hcl)

theorem handlerTrans_isEmpty (hpc : h.pc.looks) : HandlerTrans h ts h.isEmpty ts := by
  unfold Handler.isEmpty
  split_ifs with hq
  · exact .empty hpc (List.isEmpty_iff.1 hq)
  · exact .nonempty hpc fun hnil => hq (List.isEmpty_iff.2 hnil)

theorem handlerTrans_of_next (hs : h.next ts now e = some (h', ts')) : HandlerTrans h ts h' ts' := by
  unfold Handler.next at hs
  cases hpc : h.pc with
  | start =>
    simp only [hpc, Option.some.injEq, Prod.mk.injEq] at hs
    obtain ⟨rfl, rfl⟩ := hs
    exact handlerTrans_checkFunc (hpc ▸ trivial) (.start hpc)
  | lock | wait n =>
    simp only [hpc, Option.some.injEq, Prod.mk.injEq] at hs
    obtain ⟨rfl, rfl⟩ := hs
    exact handlerTrans_isEmpty (hpc ▸ trivial)
  | checkEmpty =>
    simp only [hpc, Option.some.injEq, Prod.mk.injEq] at hs
    obtain ⟨rfl, rfl⟩ := hs
    exact handlerTrans_checkFunc (hpc ▸ trivial) (.wait hpc)
  | check =>
    simp only [hpc, Option.some.injEq, Prod.mk.injEq] at hs
    obtain ⟨rfl, rfl⟩ := hs
    exact handlerTrans_checkFunc (hpc ▸ trivial) (.check hpc)
  | getMin =>
    simp only [hpc, Option.map_eq_some_iff, Prod.mk.injEq] at hs
    obtain ⟨task, htop, rfl, rfl⟩ := hs
    exact .getMin hpc htop
  | getCurrentTime task =>
    simp only [hpc, Option.some.injEq, Prod.mk.injEq] at hs
    obtain ⟨rfl, rfl⟩ := hs
    exact .getCurrentTime hpc
  | getDeadline task now =>
    simp only [hpc, Option.some.injEq, Prod.mk.injEq] at hs
    obtain ⟨rfl, rfl⟩ := hs
    exact .getDeadline hpc
  | isCancelled task now deadline =>
    simp only [hpc, Option.some.injEq, Prod.mk.injEq] at hs
    obtain ⟨rfl, rfl⟩ := hs
    split_ifs with hst
    · exact .isCancelled hpc hst
    · exact .notCancelled hpc hst
  | isRequestCancel task now deadline =>
    simp only [hpc, Option.some.injEq, Prod.mk.injEq] at hs
    obtain ⟨rfl, rfl⟩ := hs
    split_ifs with hreq hdue
    · exact .isRequestCancel hpc hreq
    · exact .due hpc (Bool.eq_false_iff.2 hreq) hdue
    · exact .notDue hpc (Bool.eq_false_iff.2 hreq) hdue
  | isIntervalTask task now =>
    simp only [hpc, Option.some.injEq, Prod.mk.injEq] at hs
    obtain ⟨rfl, rfl⟩ := hs
    split_ifs with hint
    · exact .isIntervalTask hpc hint
    · exact .noIntervalTask hpc (Bool.eq_false_iff.2 hint)
  | getInterval task now =>
    simp only [hpc, Option.some.injEq, Prod.mk.injEq] at hs
    obtain ⟨rfl, rfl⟩ := hs
    exact .getInterval hpc
  | setDeadline task now interval =>
    cases task with
    | endTask => simp [hpc] at hs
    | task id =>
      simp only [hpc, Option.some.injEq, Prod.mk.injEq] at hs
      obtain ⟨rfl, rfl⟩ := hs
      exact .setDeadline hpc
  | popMinAndPush task =>
    simp only [hpc, Option.some.injEq, Prod.mk.injEq] at hs
    obtain ⟨rfl, rfl⟩ := hs
    exact .popMinAndPush hpc
  | popMin task fired =>
    simp only [hpc, Option.some.injEq, Prod.mk.injEq] at hs
    obtain ⟨rfl, rfl⟩ := hs
    exact .popMin hpc
  | timedWait now deadline notified =>
    simp only [hpc, Option.some.injEq, Prod.mk.injEq] at hs
    obtain ⟨rfl, rfl⟩ := hs
    exact .timedWait hpc
  | fire task =>
    cases task with
    | endTask =>
      simp only [hpc, Option.some.injEq, Prod.mk.injEq] at hs
      obtain ⟨rfl, rfl⟩ := hs
      exact .stop hpc
    | task id =>
      simp only [hpc, Option.some.injEq, Prod.mk.injEq] at hs
      obtain ⟨rfl, rfl⟩ := hs
      exact .fire hpc
  | running id pc =>
    simp only [hpc, Handler.runNext, Option.map_eq_some_iff, Prod.mk.injEq] at hs
    obtain ⟨⟨b, r⟩, hrun, rfl, rfl⟩ := hs
    cases r with
    | goto pc' => exact .run hpc hrun
    | returned => exact .runReturn hpc hrun
    | thrown => exact .runThrow hpc hrun
  | finish =>
    simp only [hpc, Option.some.injEq, Prod.mk.injEq] at hs
    obtain ⟨rfl, rfl⟩ := hs
    exact .finish hpc
  | notifyFinished =>
    simp only [hpc, Option.some.injEq, Prod.mk.injEq] at hs
    obtain ⟨rfl, rfl⟩ := hs
    refine .notifyFinished hpc ?_
    cases hc : h.closer with
    | waiting n => exact .inr ⟨n, _, rfl, rfl⟩
    | idle | pushEnd | close | waitFinished | returned => exact .inl rfl
  | ended | escaped => simp [hpc] at hs

/-- `HandlerCloserTrans h ts h'`: a statement of the body of `TimerTaskHandler::ShutDownHelper`. -/
inductive HandlerCloserTrans (h : Handler) (ts : Tasks) : Bool → Handler → Prop
  | pushEnd {now spurious : Bool} (hcl : h.closer = .pushEnd now) (hfree : h.pc.holds = false) :
      HandlerCloserTrans h ts spurious { h.pushTask ts .endTask with closer := .close now }
  | closeFail {now spurious : Bool} (hcl : h.closer = .close now)
      (hf : h.isRequestClose = true ∨ spurious = true) :
      HandlerCloserTrans h ts spurious { h with closer := .returned }
  | asyncClose (hcl : h.closer = .close false) (hf : h.isRequestClose = false) :
      HandlerCloserTrans h ts false { h with isRequestClose := true, closer := .returned }
  | close (hcl : h.closer = .close true) (hf : h.isRequestClose = false) :
      HandlerCloserTrans h ts false { h with isRequestClose := true, closer := .waitFinished }
  | finished {spurious : Bool} (hcl : h.closer = .waitFinished ∨ ∃ n, h.closer = .waiting n)
      (hfin : h.finished = true) : HandlerCloserTrans h ts spurious { h with closer := .returned }
  | wait {spurious : Bool} (hcl : h.closer = .waitFinished ∨ ∃ n, h.closer = .waiting n)
      (hfin : h.finished = false) : HandlerCloserTrans h ts spurious { h with closer := .waiting false }

theorem handlerCloserTrans_of_next {spurious : Bool} (hs : h.closerNext ts spurious = some h') :
    HandlerCloserTrans h ts spurious h' := by
  have hwait : (h.closer = .waitFinished ∨ ∃ n, h.closer = .waiting n) → h.waitFinished = h' →
      HandlerCloserTrans h ts spurious h' := by
    rintro hcl rfl
    unfold Handler.waitFinished
    split_ifs with hfin
    · exact .finished hcl hfin
    · exact .wait hcl (Bool.eq_false_iff.2 hfin)
  unfold Handler.closerNext at hs
  cases hcl : h.closer with
  | pushEnd now =>
    simp only [hcl] at hs
    split_ifs at hs with hfree
    exact Option.some.inj hs ▸ .pushEnd hcl (Bool.eq_false_iff.2 hfree)
  | close now =>
    simp only [hcl] at hs
    by_cases hf : h.isRequestClose || spurious
    · rw [if_pos hf] at hs
      exact Option.some.inj hs ▸ .closeFail hcl (by simpa using hf)
    · rw [if_neg hf] at hs
      simp only [Bool.or_eq_true, not_or, Bool.not_eq_true] at hf
      obtain ⟨hf, rfl⟩ := hf
      cases now with
      | false => exact Option.some.inj hs ▸ .asyncClose hcl hf
      | true => exact Option.some.inj hs ▸ .close hcl hf
  | waitFinished =>
    simp only [hcl, Option.some.injEq] at hs
    exact hwait (.inl hcl) hs
  | waiting n =>
    simp only [hcl, Option.some.injEq] at hs
    exact hwait (.inr ⟨n, hcl⟩) hs
  | idle | returned => simp [hcl] at hs

/-! ## Steps of the pool -/

namespace ScheduledThreadPool

variable {n : ℕ} {s t : ScheduledThreadPool} {a : Act}

/-- `Trans n s a t`: the action `a` leads from `s` to `t`. -/
inductive Trans (n : ℕ) (s : ScheduledThreadPool) : Act → ScheduledThreadPool → Prop
  | handler {i : ℕ} {now : TimeValue} {e : DoRunEnd} {h : Handler} {ts : Tasks} (hi : i < n)
      (hs : (s.handlers i).next s.tasks now e = some (h, ts)) :
      Trans n s (.handler i now e) { s.setHandler i h with tasks := ts }
  | handlerCloser {i : ℕ} {spurious : Bool} {h : Handler}
      (ht : HandlerCloserTrans (s.handlers i) s.tasks spurious h) :
      Trans n s (.handlerCloser i spurious) (s.setHandler i h)
  -- the body of `ShutDownHelper`
  | setStop {spurious now : Bool} (hcl : s.closer = .setStop now) :
      Trans n s (.closer spurious) { s with state := .stop, closer := loop n 0 now }
  | skip {spurious now : Bool} {i : ℕ} (hcl : s.closer = .cas i now)
      (hf : (s.handlers i).isRequestShutDown = true ∨ spurious = true) :
      Trans n s (.closer spurious) { s with closer := loop n (i + 1) now }
  | enter {now : Bool} {i : ℕ} (hcl : s.closer = .cas i now)
      (hf : (s.handlers i).isRequestShutDown = false) :
      Trans n s (.closer false)
        { s.setHandler i { s.handlers i with isRequestShutDown := true, closer := .pushEnd now } with
          closer := .helper i now }
  | leave {spurious now : Bool} {i : ℕ} (hcl : s.closer = .helper i now)
      (hret : (s.handlers i).closer = .returned) :
      Trans n s (.closer spurious) { s with closer := loop n (i + 1) now }
  | setShutDown {spurious now : Bool} (hcl : s.closer = .setShutDown now) :
      Trans n s (.closer spurious) { s with state := .shutDown, closer := .returned }
  -- add calls
  | refuse {c : ℕ} {now : TimeValue} {spurious : Bool} {task : Option ℕ} {kind : AddKind}
      (hc : s.callers c = .addLoad task kind) (hf : s.isRequestShutDown = true ∨ task = none) :
      Trans n s (.caller c now spurious) (s.callerAt c .idle)
  | load {c : ℕ} {now : TimeValue} {spurious : Bool} {id : ℕ} {kind : AddKind}
      (hc : s.callers c = .addLoad (some id) kind) (hf : s.isRequestShutDown = false) :
      Trans n s (.caller c now spurious) (s.callerAt c (.addIndex id kind))
  | addIndex {c : ℕ} {now : TimeValue} {spurious : Bool} {id : ℕ} {kind : AddKind}
      (hc : s.callers c = .addIndex id kind) :
      Trans n s (.caller c now spurious)
        { s.callerAt c (.addNow (s.index.toNat % n) id kind) with index := s.index + 1 }
  | addNow {c : ℕ} {now : TimeValue} {spurious : Bool} {i id : ℕ} {kind : AddKind}
      (hc : s.callers c = .addNow i id kind) :
      Trans n s (.caller c now spurious) (s.callerAt c (.addClose i id kind now))
  | addClosed {c : ℕ} {now now' : TimeValue} {spurious : Bool} {i id : ℕ} {kind : AddKind}
      (hc : s.callers c = .addClose i id kind now') (hcl : (s.handlers i).isRequestClose = true) :
      Trans n s (.caller c now spurious) (s.callerAt c .idle)
  | addClose {c : ℕ} {now now' : TimeValue} {spurious : Bool} {i id : ℕ} {kind : AddKind}
      (hc : s.callers c = .addClose i id kind now') (hcl : (s.handlers i).isRequestClose = false) :
      Trans n s (.caller c now spurious) (s.callerAt c (.addTest i id kind now'))
  | addKnown {c : ℕ} {now now' : TimeValue} {spurious : Bool} {i id : ℕ} {kind : AddKind}
      (hc : s.callers c = .addTest i id kind now') (hd : (s.tasks id).deadline ≠ 0) :
      Trans n s (.caller c now spurious) (s.callerAt c .idle)
  | addTest {c : ℕ} {now now' : TimeValue} {spurious : Bool} {i id : ℕ} {kind : AddKind}
      (hc : s.callers c = .addTest i id kind now') (hd : (s.tasks id).deadline = 0) :
      Trans n s (.caller c now spurious) (s.callerAt c (.addDeadline i id kind now'))
  | addDeadline {c : ℕ} {now now' : TimeValue} {spurious : Bool} {i id : ℕ} {kind : AddKind}
      {pc : CallerPc} (hc : s.callers c = .addDeadline i id kind now')
      (hpc : pc = .addPush i id ∨ ∃ interval, pc = .addInterval i id interval) :
      Trans n s (.caller c now spurious)
        ((s.setTask id { s.tasks id with deadline := kind.deadline now' }).callerAt c pc)
  | addInterval {c : ℕ} {now : TimeValue} {spurious : Bool} {i id : ℕ} {interval : TimeValue}
      (hc : s.callers c = .addInterval i id interval) :
      Trans n s (.caller c now spurious)
        ((s.setTask id { s.tasks id with interval := interval }).callerAt c (.addPush i id))
  | addPush {c : ℕ} {now : TimeValue} {spurious : Bool} {i id : ℕ} (hc : s.callers c = .addPush i id)
      (hfree : (s.handlers i).pc.holds = false) :
      Trans n s (.caller c now spurious)
        ((s.setHandler i ((s.handlers i).accept s.tasks id)).callerAt c .idle)
  -- closing calls
  | lose {c : ℕ} {now : TimeValue} {spurious now' : Bool} (hc : s.callers c = .cas now')
      (hf : s.isRequestShutDown = true ∨ spurious = true) :
      Trans n s (.caller c now spurious) (s.shutDownReturns c now')
  | win {c : ℕ} {now : TimeValue} {now' : Bool} (hc : s.callers c = .cas now')
      (hf : s.isRequestShutDown = false) :
      Trans n s (.caller c now false)
        { s.callerAt c (.closing now') with isRequestShutDown := true, closer := .setStop now' }
  | resume {c : ℕ} {now : TimeValue} {spurious now' : Bool} (hc : s.callers c = .closing now')
      (hret : s.closer = .returned) : Trans n s (.caller c now spurious) (s.shutDownReturns c now')
  | handlerLose {c : ℕ} {now : TimeValue} {spurious now' : Bool} {i : ℕ}
      (hc : s.callers c = .handlerCas i now') (hf : (s.handlers i).isRequestShutDown = true ∨ spurious = true) :
      Trans n s (.caller c now spurious) (s.callerAt c .idle)
  | handlerWin {c : ℕ} {now : TimeValue} {now' : Bool} {i : ℕ} (hc : s.callers c = .handlerCas i now')
      (hf : (s.handlers i).isRequestShutDown = false) :
      Trans n s (.caller c now false)
        ((s.setHandler i { s.handlers i with isRequestShutDown := true, closer := .pushEnd now' }).callerAt c
          (.handlerClosing i))
  | handlerResume {c : ℕ} {now : TimeValue} {spurious : Bool} {i : ℕ}
      (hc : s.callers c = .handlerClosing i) (hret : (s.handlers i).closer = .returned) :
      Trans n s (.caller c now spurious) (s.callerAt c .idle)
  -- calls of `Cancel`
  | cancelStore {c : ℕ} {now : TimeValue} {spurious : Bool} {id : ℕ}
      (hc : s.callers c = .cancelStore id) :
      Trans n s (.caller c now spurious)
        ((s.setTask id { s.tasks id with base := (s.tasks id).base.cancelStore }).callerAt c (.cancelTest id))
  | cancelReturn {c : ℕ} {now : TimeValue} {spurious : Bool} {id : ℕ}
      (hc : s.callers c = .cancelTest id ∨ s.callers c = .cancelWaiting id)
      (hst : (s.tasks id).base.state.stopped) :
      Trans n s (.caller c now spurious)
        { (s.setTask id { s.tasks id with base := (s.tasks id).base.cancelTest c }).callerAt c .idle with
          cancelled := id :: s.cancelled }
  | cancelWait {c : ℕ} {now : TimeValue} {spurious : Bool} {id : ℕ}
      (hc : s.callers c = .cancelTest id ∨ s.callers c = .cancelWaiting id)
      (hst : ¬ (s.tasks id).base.state.stopped) :
      Trans n s (.caller c now spurious)
        ((s.setTask id { s.tasks id with base := (s.tasks id).base.cancelTest c }).callerAt c
          (.cancelWaiting id))
  -- calls begin
  | add {c : ℕ} {task : Option ℕ} {kind : AddKind} (hc : s.callers c = .idle) :
      Trans n s (.add c task kind)
        { s.callerAt c (.addLoad task kind) with called := task.toList ++ s.called }
  | addHandler {c : ℕ} {i id : ℕ} {kind : AddKind} (hc : s.callers c = .idle) (hi : i < n) :
      Trans n s (.addHandler c i id kind) { s.callerAt c (.addNow i id kind) with called := id :: s.called }
  | shutDown {c : ℕ} {now : Bool} (hc : s.callers c = .idle) :
      Trans n s (.shutDown c now) (s.callerAt c (.cas now))
  | shutDownHandler {c : ℕ} {i : ℕ} {now : Bool} (hc : s.callers c = .idle) (hi : i < n) :
      Trans n s (.shutDownHandler c i now) (s.callerAt c (.handlerCas i now))
  | cancel {c : ℕ} {id : ℕ} (hc : s.callers c = .idle) :
      Trans n s (.cancel c id) (s.callerAt c (.cancelStore id))

variable {c : ℕ}

/-- The `compare_exchange_weak` of a handler's `ShutDownHelper`. -/
theorem requestShutDown_cases (h : Handler) (now spurious : Bool) :
    (h.requestShutDown now spurious = none ∧ (h.isRequestShutDown = true ∨ spurious = true)) ∨
    (h.requestShutDown now spurious = some { h with isRequestShutDown := true, closer := .pushEnd now } ∧
      h.isRequestShutDown = false ∧ spurious = false) := by
  unfold Handler.requestShutDown
  by_cases hf : h.isRequestShutDown || spurious
  · exact .inl ⟨if_pos hf, by simpa using hf⟩
  · refine .inr ⟨if_neg hf, ?_⟩
    simpa using hf

theorem trans_closer {spurious : Bool} (h : s.closerNext n spurious = some t) :
    Trans n s (.closer spurious) t := by
  unfold closerNext at h
  cases hcl : s.closer with
  | setStop now =>
    simp only [hcl, Option.some.injEq] at h
    exact h ▸ .setStop hcl
  | cas i now =>
    simp only [hcl] at h
    rcases requestShutDown_cases (s.handlers i) now spurious with ⟨heq, hf⟩ | ⟨heq, hf, rfl⟩
    · rw [heq] at h
      exact Option.some.inj h ▸ .skip hcl hf
    · rw [heq] at h
      exact Option.some.inj h ▸ .enter hcl hf
  | helper i now =>
    simp only [hcl] at h
    split_ifs at h with hret
    exact Option.some.inj h ▸ .leave hcl hret
  | setShutDown now =>
    simp only [hcl, Option.some.injEq] at h
    exact h ▸ .setShutDown hcl
  | idle | returned => simp [hcl] at h

theorem trans_cancelWait {now : TimeValue} {spurious : Bool} {id : ℕ}
    (hc : s.callers c = .cancelTest id ∨ s.callers c = .cancelWaiting id) :
    Trans n s (.caller c now spurious) (s.cancelWait c id) := by
  unfold cancelWait
  simp only
  split_ifs with hst
  · exact .cancelReturn hc hst
  · exact .cancelWait hc hst

theorem trans_caller {now : TimeValue} {spurious : Bool} (h : s.callerNext n c now spurious = some t) :
    Trans n s (.caller c now spurious) t := by
  unfold callerNext at h
  cases hc : s.callers c with
  | idle => simp [hc] at h
  | addLoad task kind =>
    simp only [hc] at h
    cases hf : s.isRequestShutDown with
    | true =>
      simp only [hf, Option.some.injEq] at h
      exact h ▸ .refuse hc (.inl hf)
    | false =>
      cases task with
      | none =>
        simp only [hf, Option.some.injEq] at h
        exact h ▸ .refuse hc (.inr rfl)
      | some id =>
        simp only [hf, Option.some.injEq] at h
        exact h ▸ .load hc hf
  | addIndex id kind =>
    simp only [hc, Option.some.injEq] at h
    exact h ▸ .addIndex hc
  | addNow i id kind =>
    simp only [hc, Option.some.injEq] at h
    exact h ▸ .addNow hc
  | addClose i id kind now' =>
    simp only [hc, Option.some.injEq] at h
    subst h
    split_ifs with hcl
    · exact .addClosed hc hcl
    · exact .addClose hc (Bool.eq_false_iff.2 hcl)
  | addTest i id kind now' =>
    simp only [hc, Option.some.injEq] at h
    subst h
    split_ifs with hd
    · exact .addKnown hc hd
    · exact .addTest hc (not_not.1 hd)
  | addDeadline i id kind now' =>
    simp only [hc, Option.some.injEq] at h
    subst h
    cases kind with
    | cron delay => exact .addDeadline hc (.inl rfl)
    | cycle interval isRunNow => exact .addDeadline hc (.inr ⟨interval, rfl⟩)
  | addInterval i id interval =>
    simp only [hc, Option.some.injEq] at h
    exact h ▸ .addInterval hc
  | addPush i id =>
    simp only [hc] at h
    split_ifs at h with hfree
    exact Option.some.inj h ▸ .addPush hc (Bool.eq_false_iff.2 hfree)
  | cas now' =>
    simp only [hc] at h
    by_cases hf : s.isRequestShutDown || spurious
    · rw [if_pos hf] at h
      exact Option.some.inj h ▸ .lose hc (by simpa using hf)
    · rw [if_neg hf] at h
      simp only [Bool.or_eq_true, not_or, Bool.not_eq_true] at hf
      obtain ⟨hf, rfl⟩ := hf
      exact Option.some.inj h ▸ .win hc hf
  | closing now' =>
    simp only [hc] at h
    split_ifs at h with hret
    exact Option.some.inj h ▸ .resume hc hret
  | handlerCas i now' =>
    simp only [hc] at h
    rcases requestShutDown_cases (s.handlers i) now' spurious with ⟨heq, hf⟩ | ⟨heq, hf, rfl⟩
    · rw [heq] at h
      exact Option.some.inj h ▸ .handlerLose hc hf
    · rw [heq] at h
      exact Option.some.inj h ▸ .handlerWin hc hf
  | handlerClosing i =>
    simp only [hc] at h
    split_ifs at h with hret
    exact Option.some.inj h ▸ .handlerResume hc hret
  | cancelStore id =>
    simp only [hc, Option.some.injEq] at h
    exact h ▸ .cancelStore hc
  | cancelTest id =>
    simp only [hc, Option.some.injEq] at h
    exact h ▸ trans_cancelWait (.inl hc)
  | cancelWaiting id =>
    simp only [hc, Option.some.injEq] at h
    exact h ▸ trans_cancelWait (.inr hc)

theorem call_eq_some {pc : CallerPc} : s.call c pc = some t ↔ s.callers c = .idle ∧ s.callerAt c pc = t := by
  unfold call
  split_ifs with hc
  · simp [hc]
  · simp [hc]

theorem trans_of_step (h : step n s a = some t) : Trans n s a t := by
  cases a with
  | handler i now e =>
    simp only [step, handlerNext] at h
    split_ifs at h with hi
    obtain ⟨⟨h', ts⟩, hs, rfl⟩ := Option.map_eq_some_iff.1 h
    exact .handler hi hs
  | handlerCloser i spurious =>
    obtain ⟨h', hs, rfl⟩ := Option.map_eq_some_iff.1 h
    exact .handlerCloser (handlerCloserTrans_of_next hs)
  | closer spurious => exact trans_closer h
  | caller c now spurious => exact trans_caller h
  | add c task kind =>
    obtain ⟨t', ht', rfl⟩ := Option.map_eq_some_iff.1 h
    obtain ⟨hc, rfl⟩ := call_eq_some.1 ht'
    exact .add hc
  | addHandler c i id kind =>
    simp only [step] at h
    split_ifs at h with hi
    obtain ⟨t', ht', rfl⟩ := Option.map_eq_some_iff.1 h
    obtain ⟨hc, rfl⟩ := call_eq_some.1 ht'
    exact .addHandler hc hi
  | shutDown c now =>
    obtain ⟨hc, rfl⟩ := call_eq_some.1 h
    exact .shutDown hc
  | shutDownHandler c i now =>
    simp only [step] at h
    split_ifs at h with hi
    obtain ⟨hc, rfl⟩ := call_eq_some.1 h
    exact .shutDownHandler hc hi
  | cancel c id =>
    obtain ⟨hc, rfl⟩ := call_eq_some.1 h
    exact .cancel hc

/-! ## What a step does to one handler -/

/-- The `compare_exchange_weak` of the step fails spuriously. -/
def Act.spurious : Act → Bool
  | .handlerCloser _ spurious | .closer spurious | .caller _ _ spurious => spurious
  | _ => false

/-- The ways a step changes a handler. -/
inductive HandlerMove (ts : Tasks) (spurious : Bool) (h : Handler) : Handler → Prop
  | same : HandlerMove ts spurious h h
  | next {now : TimeValue} {e : DoRunEnd} {h' : Handler} {ts' : Tasks}
      (hs : h.next ts now e = some (h', ts')) : HandlerMove ts spurious h h'
  | closer {h' : Handler} (ht : HandlerCloserTrans h ts spurious h') : HandlerMove ts spurious h h'
  | request {now : Bool} (hf : h.isRequestShutDown = false) :
      HandlerMove ts spurious h { h with isRequestShutDown := true, closer := .pushEnd now }
  | accept {id : ℕ} (hfree : h.pc.holds = false) : HandlerMove ts spurious h (h.accept ts id)

theorem move_setHandler {sp : Bool} {i : ℕ} {h : Handler} (hm : HandlerMove s.tasks sp (s.handlers i) h)
    (j : ℕ) : HandlerMove s.tasks sp (s.handlers j) ((s.setHandler i h).handlers j) := by
  by_cases hj : j = i
  · subst hj
    rwa [show (s.setHandler j h).handlers j = h from Function.update_self ..]
  · rw [show (s.setHandler i h).handlers j = s.handlers j from Function.update_of_ne hj ..]
    exact .same

theorem handler_move (ht : Trans n s a t) (j : ℕ) :
    HandlerMove s.tasks a.spurious (s.handlers j) (t.handlers j) := by
  cases ht with
  | handler hi hs => exact move_setHandler (.next hs) j
  | handlerCloser hs => exact move_setHandler (.closer hs) j
  | enter hcl hf | handlerWin hc hf => exact move_setHandler (.request hf) j
  | addPush hc hfree => exact move_setHandler (.accept hfree) j
  | _ => exact .same

end ScheduledThreadPool

end Empool
