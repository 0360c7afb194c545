/-
  `TaskBase`: `Run()` by a thread that has the task, and `Cancel()` by any
  number of callers.

  A task does not know who runs it: `TaskBase.run` is one statement of a call
  of `Run`, at the place `RunPc`, and `cancelStore`, `cancelTest` are the two
  statements of `Cancel`.  The systems that contain tasks say which of their
  threads is where.

  Fields called history variables are read by no step of the code.
-/
import Mathlib.Data.List.Basic
import Mathlib.Data.Nat.Notation
import Mathlib.Tactic.SplitIfs

namespace Empool

/-- `TaskBase::State` -/
inductive TaskState where
  | init | running | finished | cancelled
deriving DecidableEq, Repr

/-- `IsStopState` -/
def TaskState.stopped : TaskState → Prop
  | .finished | .cancelled => True
  | .init | .running => False

instance : DecidablePred TaskState.stopped
  | .finished | .cancelled => isTrue trivial
  | .init | .running => isFalse id

/-- A `TaskBase`. -/
structure TaskBase where
  state : TaskState
  isRequestCancel : Bool
  /-- the callers blocked on `m_cancelCondition` that have not been notified -/
  cancelCondition : List ℕ
  /-- history: how often `DoRun` has been entered -/
  doRuns : ℕ
deriving DecidableEq, Repr

/-- The next statement of a call of `Run`. -/
inductive RunPc where
  /-- `CheckCancellation()` -/
  | checkCancellation
  /-- `SetState(RUNNING)`, and the call of `DoRun()` -/
  | setRunning
  /-- inside `DoRun()` -/
  | doRun
  /-- `SetState(FINISHED)` -/
  | setFinished
  /-- `TaskCancelException` caught: `SetState(CANCELLED)` -/
  | setCancelled
  /-- the `ConditionNotifyAllLocker` on `m_cancelCondition` -/
  | notify
deriving DecidableEq, Repr

/-- `Run` has passed `CheckCancellation()`, and `DoRun()` has not returned. -/
def RunPc.inRun : RunPc → Prop
  | .setRunning | .doRun => True
  | _ => False

/-- How `DoRun` ends. -/
inductive DoRunEnd where
  | returns
  /-- a call of `CheckCancellation()` inside it throws `TaskCancelException` -/
  | cancelException
  /-- it is left by any other exception -/
  | otherException
deriving DecidableEq, Repr

/-- Where a call of `Run` is after a statement. -/
inductive RunNext where
  | goto (pc : RunPc)
  | returned
  /-- left by an exception that `Run` does not catch -/
  | thrown
deriving DecidableEq, Repr

/-- The statements that are left of `Run`. -/
def RunPc.togo : RunPc → ℕ
  | .checkCancellation => 5
  | .setRunning => 4
  | .doRun => 3
  | .setFinished | .setCancelled => 2
  | .notify => 1

def RunNext.inRun : RunNext → Prop
  | .goto pc => pc.inRun
  | .returned | .thrown => False

namespace TaskBase

/-- `TaskBase()` -/
def create : TaskBase where
  state := .init
  isRequestCancel := false
  cancelCondition := []
  doRuns := 0

variable (b : TaskBase)

/-- The statement of `Run` at `pc`; `e` says how `DoRun` ends, if it is the statement. -/
def run (e : DoRunEnd) : RunPc → Option (TaskBase × RunNext)
  | .checkCancellation => some (b, .goto (if b.isRequestCancel then .setCancelled else .setRunning))
  | .setRunning => some ({ b with state := .running, doRuns := b.doRuns + 1 }, .goto .doRun)
  | .doRun =>
    match e with
    | .returns => some (b, .goto .setFinished)
    -- `CheckCancellation` throws only if the request is set
    | .cancelException => if b.isRequestCancel then some (b, .goto .setCancelled) else none
    | .otherException => some (b, .thrown)
  | .setFinished => some ({ b with state := .finished }, .goto .notify)
  | .setCancelled => some ({ b with state := .cancelled }, .goto .notify)
  | .notify =>
    some ({ b with cancelCondition := if b.isRequestCancel then [] else b.cancelCondition }, .returned)

/-- `Cancel`: `m_isRequestCancel.store(true)` -/
def cancelStore : TaskBase := { b with isRequestCancel := true }

/-- `while (!IsStopState()) wait` of `Cancel`, in the call of `c` -/
def cancelTest (c : ℕ) : TaskBase :=
  if b.state.stopped then { b with cancelCondition := b.cancelCondition.erase c }
  else { b with cancelCondition := c :: b.cancelCondition.erase c }

variable {b} {b' : TaskBase} {e : DoRunEnd} {pc : RunPc} {r : RunNext}

/-- `RunTrans b pc b' r`: a statement of `Run` at `pc` leads from `b` to `b'`, and `r` comes next. -/
inductive RunTrans (b : TaskBase) : RunPc → TaskBase → RunNext → Prop
  | cancelled (hreq : b.isRequestCancel = true) : RunTrans b .checkCancellation b (.goto .setCancelled)
  | clear (hreq : b.isRequestCancel = false) : RunTrans b .checkCancellation b (.goto .setRunning)
  | setRunning : RunTrans b .setRunning { b with state := .running, doRuns := b.doRuns + 1 } (.goto .doRun)
  | returns : RunTrans b .doRun b (.goto .setFinished)
  | cancelException (hreq : b.isRequestCancel = true) : RunTrans b .doRun b (.goto .setCancelled)
  | otherException : RunTrans b .doRun b .thrown
  | setFinished : RunTrans b .setFinished { b with state := .finished } (.goto .notify)
  | setCancelled : RunTrans b .setCancelled { b with state := .cancelled } (.goto .notify)
  | notifyAll (hreq : b.isRequestCancel = true) : RunTrans b .notify { b with cancelCondition := [] } .returned
  | notifyNone (hreq : b.isRequestCancel = false) : RunTrans b .notify b .returned

theorem runTrans_of_run (h : b.run e pc = some (b', r)) : RunTrans b pc b' r := by
  cases pc with
  | checkCancellation =>
    simp only [run, Option.some.injEq, Prod.mk.injEq] at h
    obtain ⟨rfl, rfl⟩ := h
    split_ifs with hreq
    · exact .cancelled hreq
    · exact .clear (Bool.eq_false_iff.2 hreq)
  | setRunning =>
    simp only [run, Option.some.injEq, Prod.mk.injEq] at h
    obtain ⟨rfl, rfl⟩ := h
    exact .setRunning
  | doRun =>
    cases e with
    | returns =>
      simp only [run, Option.some.injEq, Prod.mk.injEq] at h
      obtain ⟨rfl, rfl⟩ := h
      exact .returns
    | cancelException =>
      simp only [run] at h
      split_ifs at h with hreq
      obtain ⟨rfl, rfl⟩ := Prod.mk.inj (Option.some.inj h)
      exact .cancelException hreq
    | otherException =>
      simp only [run, Option.some.injEq, Prod.mk.injEq] at h
      obtain ⟨rfl, rfl⟩ := h
      exact .otherException
  | setFinished =>
    simp only [run, Option.some.injEq, Prod.mk.injEq] at h
    obtain ⟨rfl, rfl⟩ := h
    exact .setFinished
  | setCancelled =>
    simp only [run, Option.some.injEq, Prod.mk.injEq] at h
    obtain ⟨rfl, rfl⟩ := h
    exact .setCancelled
  | notify =>
    simp only [run, Option.some.injEq, Prod.mk.injEq] at h
    obtain ⟨rfl, rfl⟩ := h
    split_ifs with hreq
    · exact .notifyAll hreq
    · exact .notifyNone (Bool.eq_false_iff.2 hreq)

theorem thrown_of_run (h : b.run e pc = some (b', .thrown)) : e = .otherException := by
  cases pc with
  | doRun =>
    cases e with
    | otherException => rfl
    | returns => simp [run] at h
    | cancelException =>
      simp only [run] at h
      split_ifs at h
      cases h
  | checkCancellation | setRunning | setFinished | setCancelled | notify => simp [run] at h

/-- `Run` leaves the request alone. -/
theorem RunTrans.isRequestCancel (h : RunTrans b pc b' r) : b'.isRequestCancel = b.isRequestCancel := by
  cases h <;> rfl

theorem RunTrans.running (h : RunTrans b pc b' (.goto .doRun)) : b'.state = .running := by
  cases h
  rfl

/-- `Run` comes to `SetState(CANCELLED)` on request, and nowhere else does it set this state. -/
theorem RunTrans.setCancelled_of (h : RunTrans b pc b' (.goto .setCancelled)) : b.isRequestCancel = true := by
  cases h with
  | cancelled hreq | cancelException hreq => exact hreq

theorem RunTrans.cancelled_of (h : RunTrans b pc b' r) (hst : b'.state = .cancelled) :
    b.state = .cancelled ∨ pc = .setCancelled := by
  cases h with
  | setCancelled => exact .inr rfl
  | setRunning | setFinished => cases hst
  | cancelled | clear | returns | cancelException | otherException | notifyAll | notifyNone => exact .inl hst

/-- `Run` returns by its last statement. -/
theorem RunTrans.at_notify (h : RunTrans b pc b' .returned) : pc = .notify := by
  cases h <;> rfl

/-- With the request set, `Run` does not pass `CheckCancellation()`. -/
theorem RunTrans.quiet (h : RunTrans b pc b' r) (hreq : b.isRequestCancel = true) (hpc : ¬ pc.inRun) :
    ¬ r.inRun ∧ b'.doRuns = b.doRuns := by
  cases h with
  | clear hno => exact absurd (hreq.symm.trans hno) Bool.noConfusion
  | setRunning | returns | cancelException | otherException => exact absurd trivial hpc
  | cancelled | setFinished | setCancelled | notifyAll | notifyNone => exact ⟨not_false, rfl⟩

/-- `Run` goes on, and comes to its notification in a stop state. -/
theorem RunTrans.togo {pc' : RunPc} (h : RunTrans b pc b' (.goto pc')) :
    pc'.togo < pc.togo ∧ (pc' = .notify → b'.state.stopped) := by
  cases h with
  | cancelled | clear | setRunning | returns | cancelException => exact ⟨by decide, RunPc.noConfusion⟩
  | setFinished | setCancelled => exact ⟨by decide, fun _ => trivial⟩

theorem cancelTest_frame (b : TaskBase) (c : ℕ) : (b.cancelTest c).state = b.state ∧
    (b.cancelTest c).isRequestCancel = b.isRequestCancel ∧ (b.cancelTest c).doRuns = b.doRuns := by
  unfold cancelTest
  split_ifs <;> exact ⟨rfl, rfl, rfl⟩

end TaskBase

end Empool
