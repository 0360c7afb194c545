/-
  Who wakes the callers that wait in `Cancel`.

  A caller waits for a task that is in no stop state, and is notified at the end
  of the `Run` that stops it.  So it waits for nobody only if the task is not
  stopped and nobody has still to run it.  The laws are stated for any system
  with tasks: `notifies` says for which tasks a thread is at the
  `ConditionNotifyAllLocker` of `Run`, and `pending` for which tasks somebody
  has still to execute the `Run`, or at least its `SetState`.
-/
import Empool.Task.Base
import Empool.Lib.Update

namespace Empool

open TaskBase

variable {tasks : ℕ → TaskBase} {notifies notifies' accepted pending pending' : ℕ → Prop}
  {i c : ℕ} {b : TaskBase} {pc : RunPc} {r : RunNext}

/-- A caller that waits has requested the cancellation, and if the task has stopped, a thread is about to
    notify the callers. -/
def Woken (tasks : ℕ → TaskBase) (notifies : ℕ → Prop) : Prop :=
  ∀ id, ∀ c ∈ (tasks id).cancelCondition, (tasks id).isRequestCancel = true ∧
    ((tasks id).state.stopped → notifies id)

/-- Somebody has still to run the accepted tasks that are not stopped. -/
def Provided (tasks : ℕ → TaskBase) (accepted pending : ℕ → Prop) : Prop :=
  ∀ id, accepted id → ¬ (tasks id).state.stopped → pending id

theorem Woken.imp (h : Woken tasks notifies) (hn : ∀ id, notifies id → notifies' id) : Woken tasks notifies' :=
  fun id c hc => (h id c hc).imp (fun hreq => hreq) fun hs hst => hn id (hs hst)

theorem Provided.imp (h : Provided tasks accepted pending) (hp : ∀ id, pending id → pending' id) :
    Provided tasks accepted pending' :=
  fun id hacc hst => hp id (h id hacc hst)

/-! ## One task -/

/-- A caller that waits for the task has requested its cancellation, and if the task has stopped, `n`: a
    thread is about to notify it. -/
def TaskBase.Heard (b : TaskBase) (n : Prop) : Prop :=
  ∀ c ∈ b.cancelCondition, b.isRequestCancel = true ∧ (b.state.stopped → n)

theorem TaskBase.Heard.imp {n n' : Prop} (h : b.Heard n) (hn : n → n') : b.Heard n' :=
  fun c hc => (h c hc).imp_right fun hst hstop => hn (hst hstop)

theorem TaskBase.Heard.cancelTest {n : Prop} (h : b.Heard n) (hreq : b.isRequestCancel = true) :
    (b.cancelTest c).Heard n := by
  obtain ⟨hst, hreq', -⟩ := cancelTest_frame b c
  intro d hd
  refine ⟨hreq'.trans hreq, fun hstop => ?_⟩
  rw [hst] at hstop
  -- in a stop state the caller does not wait
  have hd : d ∈ b.cancelCondition.erase c := by
    rwa [TaskBase.cancelTest, if_pos hstop] at hd
  exact (h d (List.mem_of_mem_erase hd)).2 hstop

/-- A thread executes a statement of `Run`. -/
theorem TaskBase.Heard.run {n n' : Prop} {b' : TaskBase} (h : b.Heard n) (hr : RunTrans b pc b' r)
    (hn : n → n' ∨ pc = .notify) (hi : r = .goto .notify → n') : b'.Heard n' := by
  intro c hc
  have hkeep : c ∈ b.cancelCondition → pc ≠ .notify →
      b.isRequestCancel = true ∧ (b.state.stopped → n') := by
    refine fun hc hpc => (h c hc).imp id fun hs hst => ?_
    exact (hn (hs hst)).resolve_right hpc
  cases hr with
  | cancelled | clear | returns | cancelException | otherException => exact hkeep hc (by simp)
  | setRunning => exact ⟨(h c hc).1, fun hst => hst.elim⟩
  | setFinished | setCancelled => exact ⟨(h c hc).1, fun _ => hi rfl⟩
  | notifyAll => cases hc
  | notifyNone hreq => exact absurd (hreq.symm.trans (h c hc).1) Bool.noConfusion

/-! ## The statements of `Cancel` -/

theorem Woken.update (h : Woken tasks notifies) (hb : b.Heard (notifies i)) :
    Woken (Function.update tasks i b) notifies :=
  (Function.forall_update_iff tasks fun id b => b.Heard (notifies id)).2 ⟨hb, fun id _ => h id⟩

theorem Woken.cancelStore (h : Woken tasks notifies) :
    Woken (Function.update tasks i (tasks i).cancelStore) notifies :=
  h.update fun c hc => ⟨rfl, (h i c hc).2⟩

theorem Woken.cancelTest (h : Woken tasks notifies) (hreq : (tasks i).isRequestCancel = true) :
    Woken (Function.update tasks i ((tasks i).cancelTest c)) notifies :=
  h.update (TaskBase.Heard.cancelTest (h i) hreq)

theorem Provided.update (h : Provided tasks accepted pending) (hst : b.state = (tasks i).state) :
    Provided (Function.update tasks i b) accepted pending :=
  (Function.forall_update_iff tasks fun id b => accepted id → ¬ b.state.stopped → pending id).2
    ⟨hst ▸ h i, fun id _ => h id⟩

/-! ## The statements of `Run` -/

/-- A thread executes a statement of `Run` of the task `i`. -/
theorem Woken.run (h : Woken tasks notifies) (hr : RunTrans (tasks i) pc b r)
    (hn : ∀ id, notifies id → notifies' id ∨ (id = i ∧ pc = .notify))
    (hi : r = .goto .notify → notifies' i) : Woken (Function.update tasks i b) notifies' := by
  refine (Function.forall_update_iff tasks fun id b => b.Heard (notifies' id)).2 ⟨?_, fun id hid => ?_⟩
  · exact TaskBase.Heard.run (h i) hr (fun hi => (hn i hi).imp_right And.right) hi
  · exact TaskBase.Heard.imp (h id) fun hs => (hn id hs).resolve_right fun hh => hid hh.1

/-- The thread has the task until it has executed the `SetState`. -/
theorem Provided.run (h : Provided tasks accepted pending) (hr : RunTrans (tasks i) pc b r) (hnt : r ≠ .thrown)
    (hp : ∀ id, (id ≠ i ∨ pc = .notify) → pending id → pending' id)
    (hi : pc ≠ .notify → r ≠ .goto .notify → pending' i) :
    Provided (Function.update tasks i b) accepted pending' := by
  refine (Function.forall_update_iff tasks fun id b => accepted id → ¬ b.state.stopped → pending' id).2
    ⟨fun hacc hst => ?_, fun id hid hacc hst => hp id (.inl hid) (h id hacc hst)⟩
  cases hr with
  | cancelled | clear | setRunning | returns | cancelException => exact hi (by simp) (by simp)
  | otherException => exact absurd rfl hnt
  | setFinished | setCancelled => exact absurd trivial hst
  | notifyAll | notifyNone => exact hp i (.inr rfl) (h i hacc hst)

end Empool
