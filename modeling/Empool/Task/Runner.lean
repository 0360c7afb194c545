/-
  One `TaskBase`, the thread that runs it and the callers of `Cancel`.

  The runner calls `Run` any number of times.  `m_isRequestCancel` is stored
  outside the mutex of the state, and `Run` broadcasts only if it finds the flag
  set; a caller that waits has set it before, so the runner that stops the task
  finds it set (`TaskBase.Heard`).

  `state_machine`: what the states and the flag allow, whatever `DoRun` does.
  `left_iff`: when `Run` has been left the task is stopped and nobody is left
  waiting, unless `DoRun` was left by an exception that `Run` does not catch.
-/
import Empool.Task.Wait
import Empool.Lib.Run

namespace Empool

open Lts TaskBase

/-- Where the thread that runs the task is. -/
inductive RunnerPc where
  /-- it has not called `Run` yet -/
  | idle
  | run (pc : RunPc)
  /-- it has left `Run` -/
  | left
deriving DecidableEq, Repr

/-- The runner has passed `CheckCancellation()`, and `DoRun()` has not returned. -/
def RunnerPc.inRun : RunnerPc → Prop
  | .run pc => pc.inRun
  | .idle | .left => False

/-- Where the runner is after a statement of `Run`. -/
def RunNext.place : RunNext → RunnerPc
  | .goto pc => .run pc
  | .returned | .thrown => .left

namespace TaskRunner

/-- The next statement of a thread that calls `Cancel`. -/
inductive CallerPc where
  | idle
  /-- `m_isRequestCancel.store(true)` -/
  | store
  /-- the first `IsStopState()` -/
  | test
  /-- in `pthread_cond_wait` on `m_cancelCondition` -/
  | waiting
deriving DecidableEq, Repr

/-- The caller has stored its request. -/
def CallerPc.requested : CallerPc → Prop
  | .test | .waiting => True
  | .idle | .store => False

end TaskRunner

/-- A task with its runner and the callers of `Cancel`. -/
structure TaskRunner where
  task : TaskBase
  runner : RunnerPc
  callers : ℕ → TaskRunner.CallerPc
  /-- history: how the `DoRun` of the last call of `Run` has ended, if it was entered and has ended -/
  lastEnd : Option DoRunEnd

namespace TaskRunner

def create : TaskRunner where
  task := TaskBase.create
  runner := .idle
  callers := fun _ => .idle
  lastEnd := none

inductive Act where
  /-- the runner calls `Run` -/
  | run
  /-- the runner executes its next statement -/
  | next (e : DoRunEnd)
  /-- the thread `c` calls `Cancel` -/
  | cancel (c : ℕ)
  /-- the thread `c` executes the next statement of `Cancel`, or is woken in it -/
  | canceller (c : ℕ)
deriving DecidableEq, Repr

/-- The caller waits for the task and has not been notified. -/
def Blocked (s : TaskRunner) (c : ℕ) : Prop := s.callers c = .waiting ∧ c ∈ s.task.cancelCondition

instance (s : TaskRunner) (c : ℕ) : Decidable (s.Blocked c) := inferInstanceAs (Decidable (_ ∧ _))

variable (s : TaskRunner)

/-- The next statement of a call of `Cancel`. -/
def cancellerNext (c : ℕ) : Option TaskRunner :=
  match s.callers c with
  | .idle => none
  | .store => some { s with task := s.task.cancelStore, callers := Function.update s.callers c .test }
  | .test | .waiting =>
    some { s with
      task := s.task.cancelTest c
      callers := Function.update s.callers c (if s.task.state.stopped then .idle else .waiting) }

/-- One step. -/
def step : Act → Option TaskRunner
  | .run =>
    match s.runner with
    | .idle | .left => some { s with runner := .run .checkCancellation, lastEnd := none }
    | .run _ => none
  | .next e =>
    match s.runner with
    | .run pc => (s.task.run e pc).map fun r =>
      { s with task := r.1, runner := r.2.place, lastEnd := if pc = .doRun then some e else s.lastEnd }
    | .idle | .left => none
  | .cancel c =>
    if s.callers c = .idle then some { s with callers := Function.update s.callers c .store } else none
  | .canceller c => s.cancellerNext c

variable {s} {t : TaskRunner} {a : Act} {c : ℕ}

/-- `Trans s a t`: the cases of the step `a`. -/
inductive Trans (s : TaskRunner) : Act → TaskRunner → Prop
  | run (hpc : ∀ pc, s.runner ≠ .run pc) :
      Trans s .run { s with runner := .run .checkCancellation, lastEnd := none }
  | next {e : DoRunEnd} {pc : RunPc} {b : TaskBase} {r : RunNext} (hpc : s.runner = .run pc)
      (hr : s.task.run e pc = some (b, r)) : Trans s (.next e)
        { s with task := b, runner := r.place, lastEnd := if pc = .doRun then some e else s.lastEnd }
  | cancel {c : ℕ} : Trans s (.cancel c) { s with callers := Function.update s.callers c .store }
  | store {c : ℕ} (hc : s.callers c = .store) : Trans s (.canceller c)
      { s with task := s.task.cancelStore, callers := Function.update s.callers c .test }
  | wait {c : ℕ} (hc : (s.callers c).requested) : Trans s (.canceller c)
      { s with
        task := s.task.cancelTest c
        callers := Function.update s.callers c (if s.task.state.stopped then .idle else .waiting) }

theorem Trans.of_step (hs : step s a = some t) : Trans s a t := by
  cases a with
  | run =>
    simp only [step] at hs
    cases hpc : s.runner with
    | run pc => rw [hpc] at hs; cases hs
    | idle | left =>
      rw [hpc] at hs
      cases hs
      exact .run fun pc h => by rw [hpc] at h; cases h
  | next e =>
    simp only [step] at hs
    cases hpc : s.runner with
    | run pc =>
      rw [hpc] at hs
      obtain ⟨⟨b, r⟩, hr, rfl⟩ := Option.map_eq_some_iff.1 hs
      exact .next hpc hr
    | idle | left => rw [hpc] at hs; cases hs
  | cancel c =>
    simp only [step] at hs
    split_ifs at hs
    cases hs
    exact .cancel
  | canceller c =>
    simp only [step, cancellerNext] at hs
    cases hc : s.callers c with
    | idle => rw [hc] at hs; cases hs
    | store => rw [hc] at hs; cases hs; exact .store hc
    | test | waiting => rw [hc] at hs; cases hs; exact .wait (by rw [hc]; trivial)

/-! ## The invariant -/

/-- What the runner knows at its place, of the task and of the end of `DoRun`. -/
def Placed (b : TaskBase) (last : Option DoRunEnd) : RunnerPc → Prop
  | .idle => True
  | .run .checkCancellation => last = none
  | .run .setRunning => b.state ≠ .cancelled
  | .run .doRun => b.state = .running
  | .run .setFinished => b.state = .running ∧ last ≠ some .otherException
  | .run .setCancelled => b.isRequestCancel = true ∧ last ≠ some .otherException
  | .run .notify => b.state.stopped ∧ last ≠ some .otherException
  | .left => b.state.stopped ↔ last ≠ some .otherException

/-- A task is in `CANCELLED` only after a request; a caller that waits has made one, and is notified by the
    `Run` that stops the task. -/
structure Sound (s : TaskRunner) : Prop where
  heard : s.task.Heard (s.runner = .run .notify)
  requested : ∀ c, (s.callers c).requested → s.task.isRequestCancel = true
  cancelled : s.task.state = .cancelled → s.task.isRequestCancel = true
  placed : Placed s.task s.lastEnd s.runner

theorem sound_create : create.Sound where
  heard c hc := by cases hc
  requested c hc := by cases hc
  cancelled h := by cases h
  placed := trivial

/-- The statements of `Cancel` leave the state, and do not clear the flag. -/
theorem Placed.of_cancel {b b' : TaskBase} {last : Option DoRunEnd} {pc : RunnerPc} (h : Placed b last pc)
    (hst : b'.state = b.state) (hreq : b.isRequestCancel = true → b'.isRequestCancel = true) :
    Placed b' last pc := by
  cases pc with
  | idle => trivial
  | left =>
    simp only [Placed, hst]
    exact h
  | run pc =>
    cases pc with
    | setCancelled => exact ⟨hreq h.1, h.2⟩
    | checkCancellation => exact h
    | setRunning | doRun | setFinished | notify =>
      simp only [Placed, hst]
      exact h

/-- `DoRun` is left by an exception that `Run` does not catch. -/
theorem ne_otherException {b b' : TaskBase} {e : DoRunEnd} {pc : RunPc}
    (h : b.run e .doRun = some (b', .goto pc)) : some e ≠ some DoRunEnd.otherException := by
  rintro he
  cases he
  simp [TaskBase.run] at h

/-- The runner executes a statement of `Run`. -/
theorem Sound.next (h : s.Sound) {e : DoRunEnd} {pc : RunPc} {b : TaskBase} {r : RunNext}
    (hpc : s.runner = .run pc) (hr : s.task.run e pc = some (b, r)) :
    (b.state = .cancelled → b.isRequestCancel = true) ∧
      Placed b (if pc = .doRun then some e else s.lastEnd) r.place := by
  have hplaced := h.placed
  rw [hpc] at hplaced
  have htrans := runTrans_of_run hr
  cases htrans with
  | cancelled hreq => exact ⟨fun _ => hreq, hreq, by rw [if_neg (by decide), hplaced]; decide⟩
  | clear hreq =>
    refine ⟨h.cancelled, fun hst => ?_⟩
    exact Bool.noConfusion (hreq.symm.trans (h.cancelled hst))
  | setRunning => exact ⟨nofun, rfl⟩
  | returns =>
    refine ⟨h.cancelled, hplaced, ?_⟩
    rw [if_pos rfl]
    exact ne_otherException hr
  | cancelException hreq =>
    refine ⟨h.cancelled, hreq, ?_⟩
    rw [if_pos rfl]
    exact ne_otherException hr
  | otherException =>
    refine ⟨h.cancelled, ?_⟩
    rw [if_pos rfl, thrown_of_run hr]
    have hst : s.task.state = .running := hplaced
    show s.task.state.stopped ↔ _
    rw [hst]
    exact ⟨fun hstop => hstop.elim, fun hne => absurd rfl hne⟩
  | setFinished => exact ⟨nofun, trivial, hplaced.2⟩
  | setCancelled => exact ⟨fun _ => hplaced.1, trivial, hplaced.2⟩
  | notifyAll | notifyNone => exact ⟨h.cancelled, fun _ => hplaced.2, fun _ => hplaced.1⟩

theorem sound_step : Preserved step Free Sound := by
  intro s a t h _ hs
  cases Trans.of_step hs with
  | run hpc =>
    refine ⟨fun c hc => ?_, h.requested, h.cancelled, rfl⟩
    exact (h.heard c hc).imp (fun hreq => hreq) fun hn hst => absurd (hn hst) (hpc _)
  | @next e pc b r hpc hr =>
    obtain ⟨hcancelled, hplaced⟩ := h.next hpc hr
    have htrans := runTrans_of_run hr
    refine ⟨h.heard.run htrans (fun hn => .inr ?_) (fun hr => ?_), fun c hc => ?_, hcancelled, hplaced⟩
    · rw [hpc] at hn
      exact RunnerPc.run.inj hn
    · rw [hr]
      rfl
    · exact htrans.isRequestCancel.trans (h.requested c hc)
  | cancel =>
    refine ⟨h.heard, fun d hd => h.requested d ?_, h.cancelled, h.placed⟩
    exact of_update (P := CallerPc.requested) False.elim hd
  | store hc =>
    refine ⟨fun d hd => ⟨rfl, (h.heard d hd).2⟩, fun _ _ => rfl, fun _ => rfl, ?_⟩
    exact h.placed.of_cancel rfl fun _ => rfl
  | @wait c hc =>
    obtain ⟨hst, hreq, -⟩ := cancelTest_frame s.task c
    have hflag := h.requested c hc
    refine ⟨h.heard.cancelTest hflag, fun _ _ => hreq.trans hflag, fun _ => hreq.trans hflag, ?_⟩
    exact h.placed.of_cancel hst fun _ => hreq.trans hflag

/-- In a stop state nobody waits unnotified, but for the broadcast that is about to come. -/
theorem Sound.none_blocked (h : s.Sound) (hst : s.task.state.stopped) (hpc : s.runner ≠ .run .notify) :
    ¬ s.Blocked c := by
  rintro ⟨-, hc⟩
  exact hpc ((h.heard c hc).2 hst)

/-! ## The states -/

/-- `CANCELLED` is never left. -/
theorem cancelled_step : PreservedUnder step Free Sound fun s => s.task.state = .cancelled := by
  intro s a t h hst _ hs
  cases Trans.of_step hs with
  | run | cancel => exact hst
  | store => exact hst
  | wait => exact (cancelTest_frame s.task _).1.trans hst
  | @next e pc b r hpc hr =>
    have hplaced := h.placed
    rw [hpc] at hplaced
    cases runTrans_of_run hr with
    | setRunning => exact absurd hst hplaced
    | setFinished => exact absurd (hst.symm.trans hplaced.1) TaskState.noConfusion
    | setCancelled => rfl
    | _ => exact hst

/-- With the request stored, a call of `Run` that has still to check does not enter `DoRun`. -/
theorem quiet_step (n : ℕ) : Preserved step Free fun s =>
    s.task.isRequestCancel = true ∧ ¬ s.runner.inRun ∧ s.task.doRuns = n := by
  rintro s a t ⟨hreq, hpc, hn⟩ _ hs
  cases Trans.of_step hs with
  | run => exact ⟨hreq, not_false, hn⟩
  | cancel => exact ⟨hreq, hpc, hn⟩
  | store => exact ⟨rfl, hpc, hn⟩
  | wait =>
    obtain ⟨-, hreq', hruns⟩ := cancelTest_frame s.task _
    exact ⟨hreq'.trans hreq, hpc, hruns.trans hn⟩
  | @next e pc b r hpc' hr =>
    have htrans := runTrans_of_run hr
    rw [hpc'] at hpc
    obtain ⟨hquiet, hruns⟩ := htrans.quiet hreq hpc
    refine ⟨htrans.isRequestCancel.trans hreq, ?_, hruns.trans hn⟩
    cases r with
    | goto pc => exact hquiet
    | returned | thrown => exact not_false

theorem state_machine {as : List Act} (h : Run step Free create as s) :
    (s.task.state = .cancelled → ∀ bs t, Run step Free s bs t → t.task.state = .cancelled) ∧
      (s.task.isRequestCancel = true → ¬ s.runner.inRun → ∀ bs t, Run step Free s bs t →
        ¬ t.runner.inRun ∧ t.task.doRuns = s.task.doRuns) ∧
      (s.task.state.stopped → s.runner ≠ .run .notify → ∀ c, ¬ s.Blocked c) := by
  have hsound := h.invariant sound_step sound_create
  refine ⟨fun hst bs t hrun => ?_, fun hreq hpc bs t hrun => ?_, fun hst hpc c => hsound.none_blocked hst hpc⟩
  · exact hrun.invariant_under sound_step cancelled_step hsound hst
  · exact (hrun.invariant (quiet_step s.task.doRuns) ⟨hreq, hpc, rfl⟩).2

/-! ## The end of `Run` -/

theorem left_iff {as : List Act} (h : Run step Free create as s) (hleft : s.runner = .left) :
    (s.task.state.stopped ∧ ∀ c, ¬ s.Blocked c) ↔ s.lastEnd ≠ some .otherException := by
  have hsound := h.invariant sound_step sound_create
  have hiff : s.task.state.stopped ↔ s.lastEnd ≠ some .otherException := by
    have hplaced := hsound.placed
    rwa [hleft] at hplaced
  constructor
  · rintro ⟨hst, -⟩
    exact hiff.1 hst
  · intro hne
    have hst := hiff.2 hne
    exact ⟨hst, fun c => hsound.none_blocked hst (by rw [hleft]; exact nofun)⟩

/-! ## Runs -/

/-- The thread 1 requests the cancellation while `DoRun` runs, and waits. -/
def cancelInside : List Act :=
  [.run, .next .returns, .next .returns, .cancel 1, .canceller 1, .canceller 1]

/-- `DoRun` is left by `TaskCancelException`; the thread 1 is notified, and `Run` is called again. -/
theorem state_machine_two : ∃ s, Run step Free create (cancelInside ++ [.next .cancelException, .next .returns,
    .next .returns]) s ∧ ¬ s.Blocked 1 ∧ ∀ bs t, Run step Free s bs t → t.task.state = .cancelled ∧
      t.task.doRuns = 1 := by
  refine exists_run (I := fun s => s.task.state = .cancelled ∧ s.task.isRequestCancel = true ∧
    s.runner = .left ∧ s.task.doRuns = 1) (by decide) fun s hrun ⟨hst, hreq, hpc, hone⟩ => ?_
  obtain ⟨hcancelled, hquiet, hnone⟩ := state_machine hrun
  refine ⟨hnone (by rw [hst]; trivial) (by rw [hpc]; exact nofun) 1, fun bs t hrun' => ⟨hcancelled hst bs t hrun', ?_⟩⟩
  exact (hquiet hreq (by rw [hpc]; exact not_false) bs t hrun').2.trans hone

theorem left_iff_two : ∃ s, Run step Free create (cancelInside ++ [.next .returns, .next .returns,
    .next .returns]) s ∧ s.task.state.stopped ∧ ∀ c, ¬ s.Blocked c := by
  refine exists_run (I := fun s => s.runner = .left ∧ s.lastEnd = some .returns) (by decide)
    fun s hrun ⟨hleft, hlast⟩ => ?_
  exact (left_iff hrun hleft).2 (by rw [hlast]; decide)

/-- The functor throws: the task stays in `RUNNING`, and the thread 1 waits for ever. -/
theorem left_running : ¬ ∀ as s, Run step Free create as s → s.runner = .left →
    s.task.state.stopped ∧ ∀ c, ¬ s.Blocked c := by
  intro hall
  obtain ⟨s, hrun, hleft, hb⟩ : ∃ s, Run step Free create (cancelInside ++ [.next .otherException]) s ∧
      s.runner = .left ∧ s.Blocked 1 := exists_run (by decide) fun _ _ h => h
  exact (hall _ s hrun hleft).2 1 hb

end TaskRunner

end Empool
