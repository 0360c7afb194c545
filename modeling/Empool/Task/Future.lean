/-
  `FutureTask`: a task with a result, the thread that runs it, the callers of
  `Cancel` and the callers of `GetResult`.

  The task, its runner and the callers of `Cancel` are those of `TaskRunner`.
  `DoRun` is taken apart: it notifies the waiting callers of `GetResult`, before
  there is a result, and holds `m_mutex` until there is one, so that the callers
  it has notified find it.

  `answered_iff`: when the task has stopped, every caller of `GetResult` gets the
  result, unless the first call of `Run` has found the cancellation requested and
  not entered `DoRun`.
-/
import Empool.Task.Runner

namespace Empool

open Lts TaskBase

/-- Where the runner is in `DoRun` of a `FutureTask`; outside of it, at `lock`. -/
inductive DoRunPc where
  /-- the `ConditionNotifyAllLocker` on `m_resultCondition`: lock, and notify if no result has been returned -/
  | lock
  /-- `m_result = Call()` -/
  | call
  /-- `m_isResultReturned = true`, and unlock -/
  | setReturned
deriving DecidableEq, Repr

/-- How `Call` ends. -/
inductive CallEnd (T : Type*) where
  | returns (v : T)
  /-- a call of `CheckCancellation()` inside it throws `TaskCancelException` -/
  | cancelException
  /-- it is left by any other exception -/
  | otherException
deriving DecidableEq, Repr

/-- The next statement of a thread that calls `GetResult`. -/
inductive GetterPc where
  | idle
  /-- lock, and the first `IsResultReturned()` -/
  | test
  /-- in `pthread_cond_wait` on `m_resultCondition` -/
  | waiting (notified : Bool)
deriving DecidableEq, Repr

/-- `m_resultCondition.NotifyAll()`, for a thread that may wait. -/
def GetterPc.notifyAll : GetterPc → GetterPc
  | .waiting _ => .waiting true
  | pc => pc

theorem GetterPc.notifyAll_ne (pc : GetterPc) : pc.notifyAll ≠ .waiting false := by
  cases pc <;> exact nofun

/-- A `FutureTask` with the threads that use it. -/
structure FutureTask (T : Type*) where
  base : TaskRunner
  doRun : DoRunPc
  /-- `m_result`; `none`: nothing has been assigned to it -/
  result : Option T
  isResultReturned : Bool
  getters : ℕ → GetterPc
  /-- history: what the calls of `Call` have returned, the last one first -/
  calls : List T
  /-- history: what the calls of `GetResult` have returned, each with `calls` at that time -/
  answers : List (Option T × List T)
  /-- history: the first call of `Run` has found the cancellation requested by its `CheckCancellation()` -/
  requestedFirst : Option Bool

namespace FutureTask

variable {T : Type*}

/-- `FutureTask()` -/
def create : FutureTask T where
  base := .create
  doRun := .lock
  result := none
  isResultReturned := false
  getters := fun _ => .idle
  calls := []
  answers := []
  requestedFirst := none

inductive Act (T : Type*) where
  /-- the runner calls `Run` -/
  | run
  /-- the runner executes its next statement; `e` says how `Call` ends, if it is the statement -/
  | next (e : CallEnd T)
  /-- the thread `c` calls `Cancel` -/
  | cancel (c : ℕ)
  /-- the thread `c` executes the next statement of `Cancel`, or is woken in it -/
  | canceller (c : ℕ)
  /-- the thread `c` calls `GetResult` -/
  | getResult (c : ℕ)
  /-- the thread `c` executes the next statement of `GetResult`, or is woken in it -/
  | getter (c : ℕ)
deriving DecidableEq, Repr

variable (s : FutureTask T)

/-- The runner, the task or a caller of `Cancel` takes a step. -/
def baseStep (a : TaskRunner.Act) : Option (FutureTask T) := (s.base.step a).map fun b => { s with base := b }

/-- `CheckCancellation()` before the task is run: what the first one finds is recorded. -/
def check : FutureTask T :=
  { s with
    requestedFirst :=
      if s.base.runner = .run .checkCancellation then s.requestedFirst.or (some s.base.task.isRequestCancel)
      else s.requestedFirst }

/-- A statement of `DoRun`. -/
def doRunNext (e : CallEnd T) : Option (FutureTask T) :=
  match s.doRun with
  | .lock =>
    some { s with
      doRun := .call
      getters := fun c => if s.isResultReturned then s.getters c else (s.getters c).notifyAll }
  | .call =>
    match e with
    | .returns v => some { s with doRun := .setReturned, result := some v, calls := v :: s.calls }
    -- the locker is destroyed, which unlocks `m_mutex`
    | .cancelException => { s with doRun := .lock }.baseStep (.next .cancelException)
    | .otherException => { s with doRun := .lock }.baseStep (.next .otherException)
  | .setReturned => { s with doRun := .lock, isResultReturned := true }.baseStep (.next .returns)

/-- The next statement of a call of `GetResult`, which needs `m_mutex`. -/
def getterNext (c : ℕ) : Option (FutureTask T) :=
  if s.doRun ≠ .lock ∨ s.getters c = .idle then none
  else if s.isResultReturned then
    some { s with getters := Function.update s.getters c .idle, answers := (s.result, s.calls) :: s.answers }
  else some { s with getters := Function.update s.getters c (.waiting false) }

/-- One step. -/
def step : Act T → Option (FutureTask T)
  | .run => s.baseStep .run
  | .next e => if s.base.runner = .run .doRun then s.doRunNext e else s.check.baseStep (.next .returns)
  | .cancel c => s.baseStep (.cancel c)
  | .canceller c => s.baseStep (.canceller c)
  | .getResult c =>
    if s.getters c = .idle then some { s with getters := Function.update s.getters c .test } else none
  | .getter c => s.getterNext c

/-- `Call` does not throw. -/
def CallReturns (_ : FutureTask T) : Act T → Prop
  | .next (.returns _) => True
  | .next .cancelException | .next .otherException => False
  | _ => True

instance (s : FutureTask T) : ∀ a, Decidable (CallReturns s a)
  | .next (.returns _) => isTrue trivial
  | .next .cancelException | .next .otherException => isFalse id
  | .run | .cancel _ | .canceller _ | .getResult _ | .getter _ => isTrue trivial

/-- A call of `GetResult` that looks for the result now finds it, and no caller waits unnotified. -/
def Answered : Prop := s.isResultReturned = true ∧ ∀ c, s.getters c ≠ .waiting false

variable {s} {t : FutureTask T} {a : Act T} {c : ℕ}

/-- `Trans s a t`: the cases of the step `a`, if `Call` does not throw. -/
inductive Trans (s : FutureTask T) : Act T → FutureTask T → Prop
  | run {b : TaskRunner} (hb : s.base.step .run = some b) : Trans s .run { s with base := b }
  | next {e : CallEnd T} {b : TaskRunner} (hpc : s.base.runner ≠ .run .doRun)
      (hb : s.base.step (.next .returns) = some b) : Trans s (.next e) { s.check with base := b }
  | lock {e : CallEnd T} (hpc : s.base.runner = .run .doRun) (hd : s.doRun = .lock) :
      Trans s (.next e) { s with
        doRun := .call
        getters := fun c => if s.isResultReturned then s.getters c else (s.getters c).notifyAll }
  | call {v : T} (hpc : s.base.runner = .run .doRun) (hd : s.doRun = .call) :
      Trans s (.next (.returns v))
        { s with doRun := .setReturned, result := some v, calls := v :: s.calls }
  | setReturned {e : CallEnd T} {b : TaskRunner} (hpc : s.base.runner = .run .doRun)
      (hd : s.doRun = .setReturned) (hb : s.base.step (.next .returns) = some b) :
      Trans s (.next e) { s with base := b, doRun := .lock, isResultReturned := true }
  | cancel {c : ℕ} {b : TaskRunner} (hb : s.base.step (.cancel c) = some b) :
      Trans s (.cancel c) { s with base := b }
  | canceller {c : ℕ} {b : TaskRunner} (hb : s.base.step (.canceller c) = some b) :
      Trans s (.canceller c) { s with base := b }
  | getResult {c : ℕ} : Trans s (.getResult c) { s with getters := Function.update s.getters c .test }
  | answer {c : ℕ} (hd : s.doRun = .lock) (hret : s.isResultReturned = true) : Trans s (.getter c) { s with
      getters := Function.update s.getters c .idle, answers := (s.result, s.calls) :: s.answers }
  | wait {c : ℕ} (hd : s.doRun = .lock) (hret : s.isResultReturned = false) :
      Trans s (.getter c) { s with getters := Function.update s.getters c (.waiting false) }

theorem Trans.of_step (hcall : CallReturns s a) (hs : step s a = some t) : Trans s a t := by
  cases a with
  | run =>
    obtain ⟨b, hb, rfl⟩ := Option.map_eq_some_iff.1 hs
    exact .run hb
  | next e =>
    simp only [step] at hs
    split_ifs at hs with hpc
    · simp only [doRunNext] at hs
      cases hd : s.doRun with
      | lock =>
        rw [hd] at hs
        cases hs
        exact .lock hpc hd
      | call =>
        cases e with
        | returns v =>
          rw [hd] at hs
          cases hs
          exact .call hpc hd
        | cancelException | otherException => exact hcall.elim
      | setReturned =>
        rw [hd] at hs
        obtain ⟨b, hb, rfl⟩ := Option.map_eq_some_iff.1 hs
        exact .setReturned hpc hd hb
    · obtain ⟨b, hb, rfl⟩ := Option.map_eq_some_iff.1 hs
      exact .next hpc hb
  | cancel c =>
    obtain ⟨b, hb, rfl⟩ := Option.map_eq_some_iff.1 hs
    exact .cancel hb
  | canceller c =>
    obtain ⟨b, hb, rfl⟩ := Option.map_eq_some_iff.1 hs
    exact .canceller hb
  | getResult c =>
    simp only [step] at hs
    split_ifs at hs
    cases hs
    exact .getResult
  | getter c =>
    simp only [step, getterNext] at hs
    split_ifs at hs with hfree hret
    all_goals
      rw [not_or, not_not] at hfree
      cases hs
    · exact .answer hfree.1 hret
    · exact .wait hfree.1 (Bool.eq_false_iff.2 hret)

/-! ## The steps of the task -/

/-- What can be said of the runner and the task, by what the first `CheckCancellation()` has found. -/
def Stage (b : TaskRunner) (returned : Bool) : Option Bool → Prop
  | none => b.task.state = .init ∧ (b.runner = .idle ∨ b.runner = .run .checkCancellation) ∧ returned = false
  | some true => b.task.isRequestCancel = true ∧ ¬ b.runner.inRun ∧ returned = false
  | some false => returned = true ∨ (b.runner.inRun ∧ ¬ b.task.state.stopped ∧ returned = false)

variable {b b' : TaskRunner} {ret : Bool} {first : Option Bool}

/-- What the statements of `Cancel` leave. -/
theorem cancel_frame {ba : TaskRunner.Act} (hba : ba = .cancel c ∨ ba = .canceller c)
    (hb : b.step ba = some b') : b'.runner = b.runner ∧ b'.task.state = b.task.state ∧
      (b.task.isRequestCancel = true → b'.task.isRequestCancel = true) := by
  cases TaskRunner.Trans.of_step hb with
  | run | next => cases hba <;> contradiction
  | cancel => exact ⟨rfl, rfl, id⟩
  | store => exact ⟨rfl, rfl, fun _ => rfl⟩
  | wait =>
    obtain ⟨hst, hreq, -⟩ := cancelTest_frame b.task _
    exact ⟨rfl, hst, hreq.trans⟩

theorem Stage.cancel {ba : TaskRunner.Act} (h : Stage b ret first) (hba : ba = .cancel c ∨ ba = .canceller c)
    (hb : b.step ba = some b') : Stage b' ret first := by
  obtain ⟨hrunner, hst, hreq⟩ := cancel_frame hba hb
  cases first with
  | none =>
    simp only [Stage, hrunner, hst]
    exact h
  | some requested =>
    cases requested with
    | true => exact ⟨hreq h.1, by rw [hrunner]; exact h.2.1, h.2.2⟩
    | false =>
      simp only [Stage, hrunner, hst]
      exact h

/-- If the first check has found no request, the result is there, unless the runner is between a check and the end
    of `DoRun`. -/
theorem Stage.returned (h : Stage b ret (some false)) (hout : ¬ b.runner.inRun) : ret = true :=
  h.resolve_right fun hin => hout hin.1

theorem Stage.run (h : Stage b ret first) (hb : b.step .run = some b') : Stage b' ret first := by
  cases TaskRunner.Trans.of_step hb with
  | run hpc =>
    have hout : ¬ b.runner.inRun := by
      cases hrunner : b.runner with
      | run pc => exact absurd hrunner (hpc pc)
      | idle | left => exact not_false
    cases first with
    | none => exact ⟨h.1, .inr rfl, h.2.2⟩
    | some requested =>
      cases requested with
      | true => exact ⟨h.1, not_false, h.2.2⟩
      | false => exact .inl (h.returned hout)

/-- Once it has checked, and outside `DoRun`, the runner is at the end of `Run`. -/
theorem Stage.late {pc : RunPc} (h : Stage b ret first) (hpc : b.runner = .run pc) (hlate : ¬ pc.inRun)
    (hcheck : pc ≠ .checkCancellation) (hout : ¬ b'.runner.inRun)
    (hreq : b'.task.isRequestCancel = b.task.isRequestCancel) : Stage b' ret first := by
  cases first with
  | none =>
    rcases h.2.1 with hidle | hrun
    · cases hpc.symm.trans hidle
    · exact absurd (RunnerPc.run.inj (hpc.symm.trans hrun)) hcheck
  | some requested =>
    cases requested with
    | true => exact ⟨hreq.trans h.1, hout, h.2.2⟩
    | false =>
      refine .inl (h.returned ?_)
      rw [hpc]
      exact hlate

/-- The runner executes a statement of `Run` outside `DoRun`. -/
theorem Stage.next (h : Stage b ret first) (hpc : b.runner ≠ .run .doRun)
    (hb : b.step (.next .returns) = some b') :
    Stage b' ret (if b.runner = .run .checkCancellation then first.or (some b.task.isRequestCancel)
      else first) := by
  cases TaskRunner.Trans.of_step hb with
  | @next e pc task r hrunner hr =>
    rw [hrunner] at hpc ⊢
    have htrans := runTrans_of_run hr
    cases htrans with
    | cancelled hreq =>
      rw [if_pos rfl, hreq]
      cases first with
      | none => exact ⟨hreq, not_false, h.2.2⟩
      | some requested =>
        cases requested with
        | true => exact ⟨hreq, not_false, h.2.2⟩
        | false =>
          refine .inl (h.returned ?_)
          rw [hrunner]
          exact not_false
    | clear hreq =>
      rw [if_pos rfl, hreq]
      cases first with
      | none => exact .inr ⟨trivial, by rw [h.1]; exact not_false, h.2.2⟩
      | some requested =>
        cases requested with
        | true => exact Bool.noConfusion (h.1.symm.trans hreq)
        | false =>
          refine .inl (h.returned ?_)
          rw [hrunner]
          exact not_false
    | setRunning =>
      rw [if_neg (by decide)]
      cases first with
      | none =>
        rcases h.2.1 with hidle | hrun
        · cases hrunner.symm.trans hidle
        · cases hrunner.symm.trans hrun
      | some requested =>
        cases requested with
        | true =>
          refine absurd ?_ h.2.1
          rw [hrunner]
          trivial
        | false => exact h.imp id fun hin => ⟨trivial, not_false, hin.2.2⟩
    | returns | cancelException | otherException => exact absurd rfl hpc
    | setFinished | setCancelled | notifyAll | notifyNone =>
      rw [if_neg (by decide)]
      exact h.late hrunner not_false (by decide) not_false rfl

/-- Inside `DoRun` the first check has found no request. -/
theorem Stage.unrequested (h : Stage b ret first) (hpc : b.runner = .run .doRun) : first = some false := by
  cases first with
  | none =>
    rcases h.2.1 with hidle | hrun
    · cases hpc.symm.trans hidle
    · cases hpc.symm.trans hrun
  | some requested =>
    cases requested with
    | true =>
      refine absurd ?_ h.2.1
      rw [hpc]
      trivial
    | false => rfl

/-! ## The invariant -/

/-- The result is what the last `Call` has returned; a caller that waits unnotified has found none, while the
    mutex was free. -/
structure Sound (s : FutureTask T) : Prop where
  inside : s.doRun ≠ .lock → s.base.runner = .run .doRun
  result : s.result = s.calls.head?
  called : s.isResultReturned = true ∨ s.doRun = .setReturned → s.calls ≠ []
  waits : ∀ c, s.getters c = .waiting false → s.isResultReturned = false ∧ s.doRun = .lock
  answers : ∀ r ∈ s.answers, ∃ v calls, r = (some v, v :: calls) ∧ v :: calls <:+ s.calls
  stage : Stage s.base s.isResultReturned s.requestedFirst

theorem sound_create : (create : FutureTask T).Sound where
  inside h := absurd rfl h
  result := rfl
  called h := by rcases h with h | h <;> cases h
  waits c hc := by cases hc
  answers r hr := by cases hr
  stage := ⟨rfl, .inl rfl, rfl⟩

/-- A result that is read is the last one. -/
theorem Sound.answer (h : s.Sound) (hret : s.isResultReturned = true) :
    ∃ v calls, (s.result, s.calls) = (some v, v :: calls) ∧ v :: calls <:+ s.calls := by
  obtain ⟨v, calls, hcalls⟩ := List.exists_cons_of_ne_nil (h.called (.inl hret))
  exact ⟨v, calls, by rw [h.result, hcalls]; rfl, hcalls ▸ List.suffix_rfl⟩

theorem sound_step : Preserved step CallReturns (Sound : FutureTask T → Prop) := by
  intro s a t h hcall hs
  cases Trans.of_step hcall hs with
  | run hb =>
    refine ⟨fun hd => ?_, h.result, h.called, h.waits, h.answers, h.stage.run hb⟩
    cases TaskRunner.Trans.of_step hb with
    | run hpc => exact absurd (h.inside hd) (hpc _)
  | next hpc hb =>
    exact ⟨fun hd => absurd (h.inside hd) hpc, h.result, h.called, h.waits, h.answers, h.stage.next hpc hb⟩
  | lock hpc hd =>
    refine ⟨fun _ => hpc, h.result, fun hor => h.called (.inl (hor.resolve_right nofun)), fun c hc => ?_,
      h.answers, h.stage⟩
    -- whoever waits is notified, and with a result nobody does
    simp only at hc
    split_ifs at hc with hret
    · exact Bool.noConfusion ((h.waits c hc).1.symm.trans hret)
    · exact absurd hc (s.getters c).notifyAll_ne
  | call hpc hd =>
    refine ⟨fun _ => hpc, rfl, fun _ => List.cons_ne_nil _ _, fun c hc => ?_, fun r hr => ?_, h.stage⟩
    · cases hd.symm.trans (h.waits c hc).2
    · obtain ⟨v, calls, heq, hcalls⟩ := h.answers r hr
      exact ⟨v, calls, heq, hcalls.trans (List.suffix_cons ..)⟩
  | setReturned hpc hd hb =>
    refine ⟨fun hne => absurd rfl hne, h.result, fun _ => h.called (.inr hd), fun c hc => ?_, h.answers, ?_⟩
    · cases hd.symm.trans (h.waits c hc).2
    · show Stage _ true s.requestedFirst
      rw [h.stage.unrequested hpc]
      exact .inl rfl
  | cancel hb =>
    obtain ⟨hrunner, -⟩ := cancel_frame (.inl rfl) hb
    exact ⟨fun hd => hrunner.trans (h.inside hd), h.result, h.called, h.waits, h.answers,
      h.stage.cancel (.inl rfl) hb⟩
  | canceller hb =>
    obtain ⟨hrunner, -⟩ := cancel_frame (.inr rfl) hb
    exact ⟨fun hd => hrunner.trans (h.inside hd), h.result, h.called, h.waits, h.answers,
      h.stage.cancel (.inr rfl) hb⟩
  | getResult =>
    refine ⟨h.inside, h.result, h.called, fun d hd => h.waits d ?_, h.answers, h.stage⟩
    exact of_update (P := (· = GetterPc.waiting false)) (x := .test) nofun hd
  | answer hd hret =>
    refine ⟨h.inside, h.result, h.called, fun d hd => h.waits d ?_, ?_, h.stage⟩
    · exact of_update (P := (· = GetterPc.waiting false)) (x := .idle) nofun hd
    · exact List.forall_mem_cons.2 ⟨h.answer hret, h.answers⟩
  | wait hd hret => exact ⟨h.inside, h.result, h.called, fun _ _ => ⟨hret, hd⟩, h.answers, h.stage⟩

/-- In a stop state the result is there if the first `CheckCancellation()` has found no request. -/
theorem Sound.answered_iff (h : s.Sound) (hst : s.base.task.state.stopped) :
    s.Answered ↔ s.requestedFirst = some false := by
  have hstage := h.stage
  cases hfirst : s.requestedFirst with
  | none =>
    rw [hfirst] at hstage
    rw [hstage.1] at hst
    exact hst.elim
  | some requested =>
    rw [hfirst] at hstage
    cases requested with
    | true =>
      refine ⟨fun hans => ?_, nofun⟩
      exact Bool.noConfusion (hans.1.symm.trans hstage.2.2)
    | false =>
      have hret := hstage.resolve_right fun hin => hin.2.1 hst
      refine ⟨fun _ => rfl, fun _ => ⟨hret, fun c hc => ?_⟩⟩
      exact Bool.noConfusion ((h.waits c hc).1.symm.trans hret)

/-! ## The task and its runner -/

/-- `DoRun` is not left by an exception. -/
def Returning (_ : TaskRunner) (a : TaskRunner.Act) : Prop := ∀ e, a = .next e → e = .returns

/-- A step of the system is a step of the task and its runner, or does not touch them. -/
theorem Trans.base (h : Trans s a t) :
    t.base = s.base ∨ ∃ ba, s.base.step ba = some t.base ∧ Returning s.base ba := by
  cases h with
  | run hb | cancel hb | canceller hb => exact .inr ⟨_, hb, nofun⟩
  | next hpc hb => exact .inr ⟨_, hb, fun e he => (TaskRunner.Act.next.inj he).symm⟩
  | setReturned hpc hd hb => exact .inr ⟨_, hb, fun e he => (TaskRunner.Act.next.inj he).symm⟩
  | lock | call | getResult | answer | wait => exact .inl rfl

/-- So what holds of them holds here. -/
theorem preserved_base {I : TaskRunner → Prop} (hI : Preserved TaskRunner.step Returning I) :
    Preserved step CallReturns fun s : FutureTask T => I s.base := by
  intro s a t h hcall hs
  rcases (Trans.of_step hcall hs).base with heq | ⟨ba, hb, hba⟩
  · exact heq ▸ h
  · exact hI s.base ba t.base h hba hb

theorem lastEnd_step : Preserved TaskRunner.step Returning fun b => ∀ e, b.lastEnd = some e → e = .returns := by
  intro b ba b' h hba hb
  cases TaskRunner.Trans.of_step hb with
  | run => exact nofun
  | next =>
    simp only
    split_ifs
    · rintro e he
      exact Option.some.inj he ▸ hba _ rfl
    · exact h
  | cancel | store | wait => exact h

/-- When `Run` has been left, the task is stopped. -/
theorem stopped_of_left {as : List (Act T)} (h : Run step CallReturns create as s)
    (hleft : s.base.runner = .left) : s.base.task.state.stopped := by
  have hsound := h.invariant (preserved_base (TaskRunner.sound_step.imp fun _ _ _ => trivial))
    TaskRunner.sound_create
  have hlast := h.invariant (preserved_base lastEnd_step) nofun
  have hplaced := hsound.placed
  rw [hleft] at hplaced
  exact hplaced.2 fun hother => DoRunEnd.noConfusion (hlast _ hother)

/-- `GetResult` returns what the last `Call` has returned; and when `Run` has been left, every caller of it is
    answered if and only if the first `CheckCancellation()` has found no request. -/
theorem result_answered {as : List (Act T)} (h : Run step CallReturns create as s) :
    (∀ r ∈ s.answers, ∃ v calls, r = (some v, v :: calls) ∧ v :: calls <:+ s.calls) ∧
    (s.base.runner = .left → s.base.task.state.stopped) ∧
    (s.base.task.state.stopped → (s.Answered ↔ s.requestedFirst = some false)) := by
  have hsound := h.invariant sound_step sound_create
  exact ⟨hsound.answers, stopped_of_left h, hsound.answered_iff⟩

/-! ## Runs -/

/-- The threads 1 and 2 wait for the result, one from before `Run` on and one from inside `DoRun` on, and a
    third cancels the task while it is run. -/
theorem result_answered_two : ∃ s : FutureTask ℕ, Run step CallReturns create
      [.getResult 1, .getter 1, .run, .next (.returns 0), .next (.returns 0), .next (.returns 0), .getResult 2,
        .cancel 3, .canceller 3, .canceller 3, .next (.returns 7), .next (.returns 0), .getter 1,
        .next (.returns 0), .next (.returns 0), .getter 2] s ∧
    s.answers = [(some 7, [7]), (some 7, [7])] ∧ s.Answered ∧
    ∀ r ∈ s.answers, ∃ v calls, r = (some v, v :: calls) ∧ v :: calls <:+ s.calls := by
  refine exists_run (I := fun s => s.answers = [(some 7, [7]), (some 7, [7])] ∧ s.base.runner = .left ∧
    s.requestedFirst = some false) (by decide) fun s hrun ⟨hanswers, hleft, hfirst⟩ => ?_
  obtain ⟨hvalues, hstop, hiff⟩ := result_answered hrun
  exact ⟨hanswers, (hiff (hstop hleft)).2 hfirst, hvalues⟩

/-- The cancellation is requested before `Run`: the task is `CANCELLED`, its canceller is notified, and the thread
    1 waits for a result that there will not be. -/
theorem result_unanswered : ¬ ∀ as, ∀ s : FutureTask ℕ, Run step CallReturns create as s →
    s.base.runner = .left → s.Answered := by
  intro hall
  obtain ⟨s, hrun, hleft, hwait⟩ : ∃ s : FutureTask ℕ, Run step CallReturns create [.getResult 1, .getter 1,
      .cancel 2, .canceller 2, .canceller 2, .run, .next (.returns 0), .next (.returns 0), .next (.returns 0),
      .canceller 2] s ∧ s.base.runner = .left ∧ s.getters 1 = .waiting false :=
    exists_run (by decide) fun _ _ h => h
  exact (hall _ s hrun hleft).2 1 hwait

end FutureTask

end Empool
