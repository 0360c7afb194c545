/-
  How tasks move through a `ScalingThreadPool` from one step to the next, and
  how its threads end.

  `queueMove_of_step`: a step leaves the queue, pushes one task, or is the pop
  of a worker, which has the task then and keeps it until it leaves `Run`.
  `lastEnds_of_step`: the threads have all ended by the last statement of one of
  them.  The monitor is among them, so shutdown has been requested.
-/
import Empool.Scaling.Tasks

namespace Empool

open Lts

variable {cfg : Config} {s t : Pool} {a : Act}

/-! ## The queue and the tasks that are held -/

/-- The statements that end the call of `Run`. -/
def Act.leavesRun : Act → Bool
  | .worker _ .runReturn | .worker _ .runThrow => true
  | _ => false

/-- What a step does to the queue: nothing, a push, or a pop by a worker that has no task. -/
inductive QueueMove (s t : Pool) : Prop
  | same (hq : t.taskQueue = s.taskQueue) (hp : t.pushed = s.pushed)
  | push (u : Task) (hq : t.taskQueue = s.taskQueue ++ [u]) (hp : t.pushed = s.pushed ++ [u])
  | pop (u : Task) (w : ℕ) (hw : w < s.workerNum) (hpc : (s.workers w).pc ≠ .running)
      (hheld : (t.workers w).Holds u) (hq : s.taskQueue = u :: t.taskQueue) (hp : t.pushed = s.pushed)

theorem queueMove_worker {w : ℕ} {b : WorkerAct} (hen : Enabled s (.worker w b)) :
    QueueMove s (workerNext cfg s w b) := by
  obtain ⟨hw, hpc, -⟩ := hen
  cases b with
  | pop | wake =>
    cases hq : s.taskQueue with
    | nil =>
      refine .same ?_ ?_ <;> simp [workerNext, workerAct, Worker.popTimeWait, hq]
    | cons u q =>
      refine .pop u w hw (by rw [hpc]; simp [WorkerAct.at]) ?_ ?_ ?_
      · rw [workerNext_self]
        simp [workerAct, Worker.popTimeWait, hq, Worker.Holds]
      · simp [workerNext, workerAct, Worker.popTimeWait, hq]
      · simp [workerNext, workerAct, Worker.popTimeWait, hq]
  | dispatch | finish | notifyAll =>
    refine .same ?_ ?_ <;>
      · simp only [workerNext, workerAct]
        split <;> rfl
  | _ => exact .same rfl rfl

theorem queueMove_of_step (hs : step cfg s a = some t) : QueueMove s t := by
  obtain ⟨hen, rfl⟩ := step_eq_some.1 hs
  cases a with
  | worker w b => exact queueMove_worker hen
  | monitor b =>
    refine .same (monitorAct_taskQueue b) ?_
    cases b with
    | lock | wake =>
      simp only [next, monitorAct, Pool.timeWait]
      split <;> rfl
    | start | check | recheck | grow | insert | find =>
      simp only [next, monitorAct]
      split <;> rfl
    | _ => rfl
  | caller c b =>
    cases b with
    | push =>
      cases ht : (s.callers c).task with
      | none => refine .same ?_ ?_ <;> simp [next, callerNext, callerAct, ht]
      | some u => refine .push u ?_ ?_ <;> simp [next, callerNext, callerAct, ht, Pool.pushTask]
    | load | cas =>
      refine .same ?_ ?_ <;>
        · simp only [next, callerNext, callerAct]
          split <;> rfl
    | _ => exact .same rfl rfl
  | closer b =>
    cases b with
    | pushEnd => exact .push .endTask rfl rfl
    | _ => exact .same rfl rfl

/-- A worker stays inside `Run`. -/
theorem running_of_step (hs : step cfg s a = some t) (ha : a.leavesRun = false) {w : ℕ} (hw : w < s.workerNum)
    (hpc : (s.workers w).pc = .running) :
    (t.workers w).pc = .running ∧ (t.workers w).runningTask = (s.workers w).runningTask := by
  have hm := worker_move hs w
  generalize t.workers w = wk at hm ⊢
  cases hm with
  | same | close => exact ⟨hpc, rfl⟩
  | @act _ b hen =>
    have hat := hpc.symm.trans hen.2.1
    cases b with
    | runReturn | runThrow => cases ha
    | _ => cases hat
  | create => exact absurd hw (Nat.lt_irrefl _)

/-- A worker keeps its task until it leaves `Run`. -/
theorem holds_of_step (hs : step cfg s a = some t) (ha : a.leavesRun = false) {w i : ℕ} (hw : w < s.workerNum)
    (hh : (s.workers w).Holds (.user i)) : (t.workers w).Holds (.user i) := by
  obtain ⟨htask, hpc⟩ := hh
  rcases hpc with hpc | hpc
  · have hm := worker_move hs w
    generalize t.workers w = wk at hm ⊢
    cases hm with
    | same | close => exact ⟨htask, .inl hpc⟩
    | @act _ b hen =>
      have hat := hpc.symm.trans hen.2.1
      cases b <;> cases hat
      simp [workerAct, htask, Worker.Holds]
    | create => exact absurd hw (Nat.lt_irrefl _)
  · obtain ⟨hpc', htask'⟩ := running_of_step hs ha hw hpc
    exact ⟨htask'.trans htask, .inr hpc'⟩

/-! ## The end of the threads -/

/-- All threads of the pool have ended. -/
def Pool.AllEnded (s : Pool) : Prop := s.monitor.pc = .ended ∧ ∀ w < s.workerNum, (s.workers w).pc = .ended

instance (s : Pool) : Decidable s.AllEnded := inferInstanceAs (Decidable (_ ∧ ∀ w < _, _))

/-- The action is the end of the last thread of the pool. -/
def Pool.LastEnds (s : Pool) (a : Act) : Prop :=
  (a = .monitor .finish ∨ s.monitor.pc = .ended) ∧
    ∀ w < s.workerNum, a = .worker w .notifyFinished ∨ (s.workers w).pc = .ended

instance (s : Pool) (a : Act) : Decidable (s.LastEnds a) := inferInstanceAs (Decidable (_ ∧ ∀ w < _, _))

/-- The monitor leaves its loop when it has been closed, and it is closed by a shutdown. -/
structure MonitorAsked (s : Pool) : Prop where
  left : s.monitor.pc = .finish ∨ s.monitor.pc = .ended → s.monitor.isRequestClose = true
  closed : s.monitor.isRequestClose = true → s.isRequestShutDown = true

theorem MonitorAsked.of_eq (h : MonitorAsked s) (hpc : t.monitor.pc = s.monitor.pc)
    (hr : t.monitor.isRequestClose = s.monitor.isRequestClose)
    (hf : s.isRequestShutDown = true → t.isRequestShutDown = true) : MonitorAsked t :=
  ⟨fun ho => hr.trans (h.left (hpc ▸ ho)), fun hc => hf (h.closed (hr ▸ hc))⟩

theorem monitorAsked_monitor {b : MonitorAct} (hen : Enabled s (.monitor b)) (h : MonitorAsked s) :
    MonitorAsked (monitorAct cfg s b) := by
  have hkeep : (monitorAct cfg s b).monitor.isRequestClose = s.monitor.isRequestClose := by
    cases b with
    | lock | wake =>
      simp only [monitorAct, Pool.timeWait]
      split <;> rfl
    | start | check | recheck | grow | insert | find =>
      simp only [monitorAct]
      split <;> rfl
    | _ => rfl
  refine ⟨fun ho => hkeep.trans ?_, fun hc => (monitorAct_flag b).trans (h.closed (hkeep ▸ hc))⟩
  cases b with
  | finish => exact h.left (.inl hen.1)
  | lock | wake =>
    simp only [monitorAct, Pool.timeWait] at ho
    split at ho <;> simp [Pool.monitorAt] at ho
  | start | check | recheck =>
    by_contra hc
    simp [monitorAct, Pool.monitorAt, hc] at ho
  | grow | insert =>
    simp only [monitorAct] at ho
    split at ho <;> simp [Pool.monitorAt, Pool.monitorSub] at ho
  | find =>
    have hpc : s.monitor.pc = .sub := hen.1
    simp only [monitorAct] at ho
    split at ho <;> simp [hpc] at ho
  | timeout | create | joinNew | join | clear => simp [monitorAct, Pool.monitorAt, Pool.monitorSub] at ho

theorem monitorAsked_preserved : PreservedUnder (step cfg) Free Locks MonitorAsked := by
  intro s a t hl h _ hs
  have hf : s.isRequestShutDown = true → t.isRequestShutDown = true := by
    intro hf
    by_contra hno
    exact absurd ((flag_mono hs (Bool.eq_false_iff.2 hno)).symm.trans hf) Bool.noConfusion
  obtain ⟨hen, rfl⟩ := step_eq_some.1 hs
  cases a with
  | worker w b =>
    obtain ⟨n, hm⟩ := @workerNext_monitor cfg s w b
    exact h.of_eq (by rw [next, hm]) (by rw [next, hm]) hf
  | caller c b =>
    obtain ⟨n, hm⟩ := @callerNext_monitor cfg s c b
    exact h.of_eq (by rw [next, hm]) (by rw [next, hm]) hf
  | monitor b => exact monitorAsked_monitor hen h
  | closer b =>
    cases b with
    | closeMonitor spurious =>
      -- the closing sequence has begun, so the flag is set
      refine ⟨fun ho => ?_, fun _ => ?_⟩
      · show (s.monitor.isRequestClose || !spurious) = true
        rw [h.left ho]
        rfl
      · by_contra hno
        exact hl.no_closer (Bool.eq_false_iff.2 hno) _ hen
    | _ => exact h.of_eq rfl rfl hf

theorem MonitorAsked.init (ids : LiveIds cfg.corePoolSize) : MonitorAsked (initPool cfg ids) where
  left ho := by simp [initPool] at ho
  closed hc := by cases hc

/-- The threads of the pool end one by one, the last one by its last statement. -/
theorem lastEnds_of_step (hs : step cfg s a = some t) (ha : a.leavesRun = false) (h : t.AllEnded) :
    s.LastEnds a := by
  refine ⟨?_, fun w hw => ?_⟩
  · have hended := h.1
    obtain ⟨hen, rfl⟩ := step_eq_some.1 hs
    cases a with
    | worker w b =>
      obtain ⟨n, hm⟩ := @workerNext_monitor cfg s w b
      exact .inr ((congrArg Monitor.pc hm).symm.trans hended)
    | caller c b =>
      obtain ⟨n, hm⟩ := @callerNext_monitor cfg s c b
      exact .inr ((congrArg Monitor.pc hm).symm.trans hended)
    | closer b => cases b <;> exact .inr hended
    | monitor b =>
      left
      cases b with
      | finish => rfl
      | find =>
        have hpc : s.monitor.pc = .sub := hen.1
        simp only [next, monitorAct] at hended
        split at hended <;> simp [hpc] at hended
      | lock | wake =>
        simp only [next, monitorAct, Pool.timeWait] at hended
        split at hended <;> cases hended
      | start | check | recheck | grow | insert =>
        simp only [next, monitorAct, Pool.monitorAt, Pool.monitorSub] at hended
        split at hended <;> cases hended
      | timeout | create | joinNew | join | clear => cases hended
  · have hended := h.2 w (Nat.lt_of_lt_of_le hw (workerNum_le hs))
    have hm := worker_move hs w
    generalize t.workers w = wk at hm hended
    cases hm with
    | same | close => exact .inr hended
    | create => cases hended
    | @act _ b hen =>
      left
      cases b with
      | notifyFinished => rfl
      | runReturn | runThrow => cases ha
      | start | check | recheck | pop | wake | judge | dispatch | finish | compare =>
        simp only [workerAct, Worker.popTimeWait, Worker.checkFunc] at hended
        split at hended <;> cases hended
      | timeout | asyncClose | subPush | subNotify | count | setShutDown | notifyAll => cases hended

end Empool
