/-
  The monitor's sleep.

  The monitor waits on `m_addOrSubThreadCond` until `JudgeFunc()` holds, which
  reads the task queue: the queue has a mutex of its own, so the condition can
  become true, and false again, without the guard.  But whatever makes it true
  is followed by a `ConditionNotifyLocker` of the same thread, and the thread
  signals the monitor if it finds it true there.  So if it is true and the
  monitor sleeps, some thread is on its way to such a statement
  (`monitor_never_asleep`).
-/
import Empool.Scaling.Backlog

namespace Empool

open Lts

variable {cfg : Config} {s t : Pool} {a : Act}

/-- The monitor is blocked on `m_addOrSubThreadCond`, and has not been signalled. -/
def Pool.Asleep (s : Pool) : Prop := s.monitor.pc = .wait ∧ s.monitor.notified = false

/-- No thread is between `Push` or `AddWorkerThreadIdToSubVector` and the end of the `ConditionNotifyLocker`
    that follows, nor in the body of `ShutDown`. -/
structure Pool.Calm (s : Pool) : Prop where
  callers : ∀ c, (s.callers c).pc ≠ .notify
  workers : ∀ w < s.workerNum, (s.workers w).pc ≠ .subNotify
  closer : s.closer.pc = .idle ∨ s.closer.pc = .returned

theorem judgeFunc_mono (hq : t.taskQueue.length ≤ s.taskQueue.length) (hth : t.threads = s.threads)
    (hsub : t.subWorkerThreadId = s.subWorkerThreadId) (h : t.judgeFunc cfg = true) : s.judgeFunc cfg = true := by
  simp only [Pool.judgeFunc, hth, hsub, Bool.or_eq_true, Bool.and_eq_true, decide_eq_true_eq] at h ⊢
  exact h.imp_left fun hq' => ⟨Nat.lt_of_lt_of_le hq'.1 hq, hq'.2⟩

/-- Behind a `ConditionNotifyLocker` the monitor does not sleep, if `JudgeFunc()` holds. -/
theorem not_asleep_notify (hj : s.judgeFunc cfg = true) : ¬ (s.notifyMonitor cfg).Asleep := by
  rintro ⟨hpc, hn⟩
  have hpc : s.monitor.pc = .wait := hpc
  simp [Pool.notifyMonitor, hj, hpc] at hn

theorem workerNext_queue_le {w : ℕ} {b : WorkerAct} :
    (workerNext cfg s w b).taskQueue.length ≤ s.taskQueue.length := by
  cases b with
  | pop | wake =>
    simp only [workerNext, workerAct, Worker.popTimeWait]
    cases hq : s.taskQueue <;> simp [hq]
  | dispatch | finish | notifyAll =>
    simp only [workerNext, workerAct]
    split <;> exact Nat.le_refl _
  | _ => exact Nat.le_refl _

theorem workerNext_monitor_eq {w : ℕ} {b : WorkerAct} (h : b ≠ .subNotify) :
    (workerNext cfg s w b).monitor = s.monitor := by
  cases b with
  | subNotify => exact absurd rfl h
  | pop | wake =>
    simp only [workerNext, workerAct, Worker.popTimeWait]
    split <;> rfl
  | dispatch | finish | notifyAll =>
    simp only [workerNext, workerAct]
    split <;> rfl
  | _ => rfl

/-- Nobody gets to a `ConditionNotifyLocker` by the statement of a worker but behind its push. -/
theorem Pool.Calm.of_worker {w : ℕ} {b : WorkerAct} (hpc : (s.workers w).pc = b.at) (hb : b ≠ .subNotify)
    (h : (workerNext cfg s w b).Calm) : s.Calm := by
  refine ⟨fun c hc => h.callers c ?_, fun v hlt hv => ?_, by simpa using h.closer⟩
  · by_cases hall : b = .notifyAll
    · subst hall
      simp only [workerNext, workerAct]
      split
      · simp [Pool.notifyAllState, hc]
      · exact hc
    · rwa [workerNext_callers w b hall]
  · by_cases hvw : v = w
    · subst hvw
      rw [hpc] at hv
      cases b with
      | subNotify => exact hb rfl
      | _ => cases hv
    · refine h.workers v (by simpa using hlt) ?_
      rwa [workerNext_of_ne w b hvw]

theorem callerNext_monitor_eq {c : ℕ} {b : CallerAct} (h : b ≠ .notify) :
    (callerNext cfg s c b).monitor = s.monitor := by
  cases b with
  | notify => exact absurd rfl h
  | push => cases ht : (s.callers c).task <;> simp [callerNext, callerAct, ht, Pool.pushTask]
  | load | cas =>
    simp only [callerNext, callerAct]
    split <;> rfl
  | _ => rfl

theorem Pool.Calm.of_caller {c : ℕ} {b : CallerAct} (hpc : (s.callers c).pc = b.at) (hb : b ≠ .notify)
    (h : (callerNext cfg s c b).Calm) : s.Calm := by
  have hwins : ¬ b.Wins s := by
    intro hw
    have hcloser := h.closer
    rw [(callerNext_wins c b hw).2.2] at hcloser
    rcases hcloser with hidle | hret <;> contradiction
  refine ⟨fun d hd => ?_, fun w => ?_, ?_⟩
  · by_cases hdc : d = c
    · subst hdc
      rw [hpc] at hd
      cases b with
      | notify => exact hb rfl
      | _ => cases hd
    · refine h.callers d ?_
      simpa [callerNext, Function.update_of_ne hdc] using hd
  · simpa using h.workers w
  · have hcloser := h.closer
    rwa [(callerNext_closing c b hwins).2] at hcloser

/-- A caller that pushes is at the `ConditionNotifyLocker` then. -/
theorem not_calm_push {c : ℕ} : ¬ (callerNext cfg s c .push).Calm :=
  fun h => h.callers c (by simp [callerNext, callerAct])

theorem not_calm_subPush {w : ℕ} (hw : w < s.workerNum) : ¬ (workerNext cfg s w .subPush).Calm :=
  fun h => h.workers w (by simpa using hw) (by rw [workerNext_self]; rfl)

/-- If `JudgeFunc()` holds and no thread is about to notify the monitor, the monitor does not sleep. -/
def Alerted (cfg : Config) (s : Pool) : Prop := s.judgeFunc cfg = true → s.Calm → ¬ s.Asleep

theorem alerted_monitor {b : MonitorAct} (hpc : s.monitor.pc = b.at) : Alerted cfg (monitorAct cfg s b) := by
  rintro hj - ⟨hwait, -⟩
  cases b with
  | lock | wake =>
    simp only [monitorAct, Pool.timeWait] at hwait hj
    split at hwait
    · cases hwait
    next hno =>
      rw [if_neg hno] at hj
      exact hno hj
  | start | check | recheck | grow | insert =>
    simp only [monitorAct] at hwait
    split at hwait <;> cases hwait
  | find =>
    simp only [monitorAct] at hwait
    split at hwait
    · cases hwait
    · rw [show s.monitor.pc = .sub from hpc] at hwait
      cases hwait
  | _ => cases hwait

theorem alerted_closer {b : CloserAct} (hpc : s.closer.pc = b.at) : Alerted cfg (closerAct cfg s b) := by
  intro hj hcalm
  cases b with
  | notify => exact not_asleep_notify (s := s.closerAt .returned) hj
  | asyncClose | pushEnd =>
    rcases hcalm.closer with hc | hc <;> exact absurd (hpc.symm.trans hc) nofun
  | _ => rcases hcalm.closer with hc | hc <;> cases hc

theorem alerted_worker {w : ℕ} {b : WorkerAct} (hw : w < s.workerNum) (hpc : (s.workers w).pc = b.at)
    (h : Alerted cfg s) :
    Alerted cfg (workerNext cfg s w b) := by
  intro hj hcalm hasleep
  by_cases hnotify : b = .subNotify
  · subst hnotify
    exact not_asleep_notify (s := s) hj hasleep
  · by_cases hpush : b = .subPush
    · subst hpush
      exact not_calm_subPush hw hcalm
    · have hs : s.judgeFunc cfg = true :=
        judgeFunc_mono workerNext_queue_le (workerNext_threads w b) (workerNext_sub w b hpush) hj
      refine h hs (hcalm.of_worker hpc hnotify) ?_
      rwa [Pool.Asleep, workerNext_monitor_eq hnotify] at hasleep

theorem alerted_caller {c : ℕ} {b : CallerAct} (hpc : (s.callers c).pc = b.at) (h : Alerted cfg s) :
    Alerted cfg (callerNext cfg s c b) := by
  intro hj hcalm hasleep
  by_cases hnotify : b = .notify
  · subst hnotify
    exact not_asleep_notify (s := s) hj hasleep
  · by_cases hpush : b = .push
    · subst hpush
      exact not_calm_push hcalm
    · have hs : s.judgeFunc cfg = true :=
        judgeFunc_mono (Nat.le_of_eq (congrArg List.length (callerNext_queue c b hpush))) (callerNext_threads c b)
          (callerNext_sub c b) hj
      refine h hs (hcalm.of_caller hpc hnotify) ?_
      rwa [Pool.Asleep, callerNext_monitor_eq hnotify] at hasleep

theorem alerted_preserved : Preserved (step cfg) Free (Alerted cfg) := by
  intro s a t h _ hs
  obtain ⟨hen, rfl⟩ := step_eq_some.1 hs
  cases a with
  | worker w b => exact alerted_worker hen.1 hen.2.1 h
  | caller c b => exact alerted_caller hen.1 h
  | monitor b => exact alerted_monitor hen.1
  | closer b => exact alerted_closer hen.1

theorem monitor_never_asleep {ids : LiveIds cfg.corePoolSize} {as : List Act}
    (h : Run (step cfg) Free (initPool cfg ids) as s) (hj : s.judgeFunc cfg = true) (hcalm : s.Calm) :
    ¬ s.Asleep := by
  refine h.invariant alerted_preserved (fun _ _ hasleep => ?_) hj hcalm
  cases hasleep.1

/-- A thread that takes no step stays out of the calls. -/
theorem idle_stays {c : ℕ} (hs : step cfg s a = some t) (ha : ∀ b, a ≠ .caller c b) (h : s.callers c = Caller.idle) :
    t.callers c = Caller.idle := by
  obtain ⟨-, rfl⟩ := step_eq_some.1 hs
  cases a with
  | worker w b =>
    by_cases hall : b = .notifyAll
    · subst hall
      simp only [next, workerNext, workerAct]
      split <;> simp [Pool.notifyAllState, h, Caller.idle]
    · rwa [next, workerNext_callers w b hall]
  | caller d b =>
    have hcd : c ≠ d := fun hcd => ha b (by rw [hcd])
    simpa [next, callerNext, Function.update_of_ne hcd] using h
  | monitor b => rwa [next, monitorAct_callers]
  | closer b => rwa [next, closerAct_callers]

/-- A worker finds an `EndTask` that a caller has added, and retires. -/
def endTaskRetires : List Act :=
  [.monitor .start, .monitor .check, .monitor .lock] ++ addTaskCall 0 .endTask ++
    [.worker 0 .start, .worker 0 .check, .worker 0 .pop, .worker 0 .dispatch, .worker 0 .finish,
      .worker 0 .subPush, .worker 0 .subNotify]

theorem monitor_never_asleep_one : ∃ s, Run (step ⟨1, 1⟩) Free (initPool ⟨1, 1⟩ (.first 1)) endTaskRetires s ∧
    s.monitor.pc = .wait ∧ ¬ s.Asleep := by
  refine exists_run (I := fun s => s.monitor.pc = .wait ∧ s.judgeFunc ⟨1, 1⟩ = true ∧ s.closer.pc = .idle ∧
    s.callers 0 = Caller.idle ∧ s.workerNum = 1 ∧ (s.workers 0).pc = .notifyFinished) (by decide +kernel)
    fun s hrun ⟨hpc, hj, hcloser, hc, hnum, hw⟩ => ⟨hpc, ?_⟩
  have hidle : ∀ c, c ≠ 0 → s.callers c = Caller.idle := by
    intro c hc
    have hothers : ∀ a ∈ endTaskRetires, ∀ d b, a = .caller d b → d = 0 := by
      simp [endTaskRetires, addTaskCall]
    have hrun' := hrun.imp_of_mem (Q := fun _ a => ∀ b, a ≠ .caller c b) fun s a ha _ b hb =>
      hc (hothers a ha c b hb)
    exact hrun'.invariant (I := fun s => s.callers c = Caller.idle) (fun _ _ _ hi ha hs => idle_stays hs ha hi) rfl
  refine monitor_never_asleep hrun hj ⟨fun c => ?_, fun w hlt => ?_, .inl hcloser⟩
  · by_cases h0 : c = 0
    · rw [h0, hc]
      exact nofun
    · rw [hidle c h0]
      exact nofun
  · obtain rfl : w = 0 := by omega
    rw [hw]
    exact nofun

end Empool
