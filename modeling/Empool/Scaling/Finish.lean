/-
  The finish action: a worker calls `NotifyWhenThreadsStop` once, unless a task
  throws.
-/
import Empool.Scaling.Frame

namespace Empool

open Lts

variable {cfg : Config} {s t : Pool}

/-- The history of a worker agrees with its next statement: the finish action has not been
    called in the work loop, and has been called once after it, except by a worker that a
    task's exception has ended. -/
def Worker.Ok (wk : Worker) : Prop :=
  match wk.pc with
  | .start | .check | .pop | .popWait | .judge | .asyncClose | .recheck | .dispatch | .running =>
    wk.finishCalls = 0 ∧ wk.retired = false ∧ wk.counted = false
  | .finish | .count => wk.finishCalls = 1 ∧ wk.retired = false ∧ wk.counted = false
  | .subPush | .subNotify => wk.finishCalls = 1 ∧ wk.retired = true ∧ wk.counted = false
  | .compare | .setShutDown | .notifyAll =>
    wk.finishCalls = 1 ∧ wk.retired = false ∧ wk.counted = true
  | .notifyFinished => wk.finishCalls = 1 ∧ wk.retired = !wk.counted
  | .ended => (wk.finishCalls = 1 ∧ wk.retired = !wk.counted) ∨
      (wk.finishCalls = 0 ∧ wk.retired = false ∧ wk.counted = false)

theorem Worker.Ok.act {wk : Worker} {b : WorkerAct} (hpc : wk.pc = b.at) (h : wk.Ok) :
    (workerAct cfg s wk b).1.Ok := by
  unfold Worker.Ok at h
  rw [hpc] at h
  cases b with
  | start | check | recheck =>
    obtain ⟨h0, hr, hc⟩ := h
    simp only [workerAct, checkFunc]
    split <;> simp [Worker.Ok, h0, hr, hc]
  | pop | wake =>
    simp only [workerAct, popTimeWait]
    split <;> exact h
  | judge => simp only [workerAct]; split <;> exact h
  | dispatch =>
    obtain ⟨h0, hr, hc⟩ := h
    simp only [workerAct]
    split <;> simp [Worker.Ok, h0, hr, hc]
  | runThrow => exact Or.inr h
  | finish =>
    obtain ⟨h0, hr, hc⟩ := h
    simp only [workerAct]
    split <;> simp [Worker.Ok, h0, hr, hc]
  | subNotify | notifyAll | count =>
    obtain ⟨h0, hr, hc⟩ := h
    simp [workerAct, Worker.Ok, h0, hr, hc]
  | compare =>
    obtain ⟨h0, hr, hc⟩ := h
    simp only [workerAct]
    split <;> simp [Worker.Ok, h0, hr, hc]
  | notifyFinished => exact Or.inl h
  | timeout | asyncClose | runReturn | subPush | setShutDown => exact h

/-- Every worker is `Ok` in every run. -/
theorem workers_ok : Preserved (step cfg) Free fun s => ∀ v, (s.workers v).Ok :=
  worker_invariant (fun _ => by simp [Worker.Ok, Worker.create]) (fun _ _ _ _ hpc h => h.act hpc)
    (fun _ _ h => h)

theorem init_ok (ids : LiveIds cfg.corePoolSize) : ∀ v, ((initPool cfg ids).workers v).Ok :=
  fun _ => by simp [Worker.Ok, Worker.create, initPool]

/-- A worker thread that has ended has called its finish action, once. -/
def Worker.Reported (wk : Worker) : Prop := wk.pc = .ended → wk.finishCalls = 1

/-- The step is the one of a task whose functor throws. -/
def Act.throws : Act → Bool
  | .worker _ .runThrow => true
  | _ => false

/-- No task of the run throws. -/
def NoThrow : Pool → Act → Prop := fun _ a => a.throws = false

instance (s : Pool) (a : Act) : Decidable (NoThrow s a) := inferInstanceAs (Decidable (_ = _))

theorem workers_reported : Preserved (step cfg) NoThrow
    fun s => ∀ v, (s.workers v).Ok ∧ (s.workers v).Reported := by
  refine worker_invariant (I := fun wk => wk.Ok ∧ wk.Reported) ?_ ?_ fun _ _ h => h
  · intro id; exact ⟨by simp [Worker.Ok, Worker.create], by simp [Worker.Reported, Worker.create]⟩
  · intro s w b hP hpc ⟨hok, hr⟩
    refine ⟨hok.act hpc, ?_⟩
    have hok' := @Worker.Ok.act cfg s _ b hpc hok
    intro hend
    unfold Worker.Ok at hok hok'
    rw [hpc] at hok
    rw [hend] at hok'
    -- only `runThrow` ends a worker outside the finish action
    cases b with
    | runThrow => simp [NoThrow, Act.throws] at hP
    | notifyFinished => exact hok.1
    | start | check | recheck | pop | wake | dispatch | finish | judge | compare =>
      revert hend
      simp only [workerAct, Worker.popTimeWait, Worker.checkFunc]
      split <;> simp
    | _ => simp [workerAct] at hend

theorem run_reported (ids : LiveIds cfg.corePoolSize) {as : List Act}
    (h : Run (step cfg) NoThrow (initPool cfg ids) as s) : ∀ v, (s.workers v).Reported := by
  have := h.invariant workers_reported fun v =>
    ⟨init_ok ids v, by simp [Worker.Reported, initPool, Worker.create]⟩
  exact fun v => (this v).2

/-- A throwing task ends its worker with no call of the finish action. -/
theorem throw_unreported {w : ℕ} (hok : ∀ v, (s.workers v).Ok)
    (h : step cfg s (.worker w .runThrow) = some t) :
    w < t.workerNum ∧ (t.workers w).pc = .ended ∧ (t.workers w).finishCalls = 0 := by
  obtain ⟨⟨hw, hpc, -⟩, rfl⟩ := step_eq_some.1 h
  have h0 := hok w
  unfold Worker.Ok at h0
  rw [show (s.workers w).pc = .running from hpc] at h0
  simp only [next, workerNext_workerNum, workerNext_self, workerAct]
  exact ⟨hw, trivial, h0.1⟩

/-- **The finish action is called exactly once by every worker thread that ends, if and only
    if no task throws**: along a run, each worker that has ended has called
    `NotifyWhenThreadsStop` once, exactly when no step of the run is a task's exception. -/
theorem finish_called_iff (ids : LiveIds cfg.corePoolSize) {as : List Act}
    (h : Run (step cfg) Free (initPool cfg ids) as s) :
    (∀ bs t, bs <+: as → Run (step cfg) Free (initPool cfg ids) bs t →
      ∀ w < t.workerNum, (t.workers w).pc = .ended → (t.workers w).finishCalls = 1) ↔
    ∀ w, Act.worker w .runThrow ∉ as := by
  constructor
  · intro hall w hw
    obtain ⟨bs, cs, rfl⟩ := List.append_of_mem hw
    obtain ⟨u, hu, hcs⟩ := h.of_append
    obtain ⟨v, hv⟩ := hcs.head
    have hok := hu.invariant workers_ok (init_ok ids)
    obtain ⟨hn, hend, h0⟩ := throw_unreported hok hv
    have := hall (bs ++ [.worker w .runThrow]) v ⟨cs, by simp⟩ (hu.append (.single trivial hv)) w hn hend
    omega
  · rintro hno bs t ⟨cs, rfl⟩ hbs w - hend
    refine run_reported ids (hbs.imp_of_mem fun s a ha _ => ?_) w hend
    cases ha' : a.throws with
    | false => exact ha'
    | true =>
      exfalso
      match a, ha' with
      | .worker v .runThrow, _ => exact hno v (List.mem_append_left cs ha)

/-- A worker takes the task 7 and is inside its `Run`. -/
def takeTask : List Act :=
  [.caller 0 (.addTask (some (.user 7))), .caller 0 .load, .caller 0 .push, .caller 0 .notify,
    .worker 0 .start, .worker 0 .check, .worker 0 .pop, .worker 0 .dispatch]

/-- The task throws, and the only worker is gone without a word. -/
theorem worker_lost : ∃ s, Run (step ⟨1, 1⟩) Free (initPool ⟨1, 1⟩ (.first 1))
    (takeTask ++ [.worker 0 .runThrow]) s ∧ 0 < s.workerNum ∧ (s.workers 0).pc = .ended ∧
      (s.workers 0).finishCalls = 0 :=
  exists_run (by decide) fun _ _ h => h

/-- A run in which the task returns, shutdown is requested, and the worker ends. -/
def takeAndStop : List Act :=
  takeTask ++ [.worker 0 .runReturn, .caller 0 (.shutDown false), .caller 0 (.cas false), .closer .setStop,
    .closer .lock, .closer (.asyncClose 0 false), .worker 0 .check, .worker 0 .finish, .worker 0 .count,
    .worker 0 .compare, .worker 0 .setShutDown, .worker 0 .notifyAll, .worker 0 .notifyFinished]

theorem finish_called_iff_stop :
    (∀ bs t, bs <+: takeAndStop → Run (step ⟨1, 1⟩) Free (initPool ⟨1, 1⟩ (.first 1)) bs t →
      ∀ w < t.workerNum, (t.workers w).pc = .ended → (t.workers w).finishCalls = 1) ∧
    ∃ s, Run (step ⟨1, 1⟩) Free (initPool ⟨1, 1⟩ (.first 1)) takeAndStop s ∧ (s.workers 0).pc = .ended := by
  obtain ⟨s, h, hend⟩ : ∃ s, Run (step ⟨1, 1⟩) Free (initPool ⟨1, 1⟩ (.first 1)) takeAndStop s ∧
      (s.workers 0).pc = .ended := exists_run (by decide) fun _ _ h => h
  refine ⟨(@finish_called_iff ⟨1, 1⟩ s (.first 1) _ h).2 fun w => ?_, s, h, hend⟩
  simp [takeAndStop, takeTask]

end Empool
