/-
  What a step leaves unchanged, and what it does to one worker.

  `worker_move`: in every step a worker keeps its state, takes its own action,
  is closed by the closing pass, or is created.  `worker_invariant` turns this
  into the rule for properties of a single worker.
-/
import Empool.Scaling.Step

namespace Empool

open Lts

variable {cfg : Config} {s t : Pool}

/-! ## Worker actions -/

section
variable (w : ℕ) (a : WorkerAct)

@[simp] theorem workerNext_threads : (workerNext cfg s w a).threads = s.threads := by
  cases a <;> simp only [workerNext, workerAct, Worker.popTimeWait] <;>
    first | rfl | (split <;> rfl)

@[simp] theorem workerNext_guard : (workerNext cfg s w a).guard = s.guard := by
  cases a <;> simp only [workerNext, workerAct, Worker.popTimeWait] <;>
    first | rfl | (split <;> rfl)

@[simp] theorem workerNext_closer : (workerNext cfg s w a).closer = s.closer := by
  cases a <;> simp only [workerNext, workerAct, Worker.popTimeWait] <;>
    first | rfl | (split <;> rfl)

@[simp] theorem workerNext_workerNum : (workerNext cfg s w a).workerNum = s.workerNum := by
  cases a <;> simp only [workerNext, workerAct, Worker.popTimeWait] <;>
    first | rfl | (split <;> rfl)

@[simp] theorem workerNext_flag :
    (workerNext cfg s w a).isRequestShutDown = s.isRequestShutDown := by
  cases a <;> simp only [workerNext, workerAct, Worker.popTimeWait] <;>
    first | rfl | (split <;> rfl)

/-- A worker changes nothing of the monitor but whether it has been signalled. -/
theorem workerNext_monitor :
    ∃ n, (workerNext cfg s w a).monitor = { s.monitor with notified := n } := by
  cases a <;> simp only [workerNext, workerAct, Worker.popTimeWait] <;>
    first | exact ⟨_, rfl⟩ | (split <;> exact ⟨_, rfl⟩)

theorem workerNext_workers :
    (workerNext cfg s w a).workers =
      Function.update s.workers w (workerAct cfg s (s.workers w) a).1 := rfl

@[simp] theorem workerNext_self :
    (workerNext cfg s w a).workers w = (workerAct cfg s (s.workers w) a).1 := by
  rw [workerNext_workers, Function.update_self]

theorem workerNext_of_ne {v : ℕ} (h : v ≠ w) : (workerNext cfg s w a).workers v = s.workers v := by
  rw [workerNext_workers, Function.update_of_ne h]

theorem workerNext_sub (h : a ≠ .subPush) :
    (workerNext cfg s w a).subWorkerThreadId = s.subWorkerThreadId := by
  cases a <;> simp only [workerNext, workerAct, Worker.popTimeWait] <;>
    first | rfl | (split <;> rfl) | exact absurd rfl h

theorem workerNext_state (h : a ≠ .setShutDown) : (workerNext cfg s w a).state = s.state := by
  cases a <;> simp only [workerNext, workerAct, Worker.popTimeWait] <;>
    first | rfl | (split <;> rfl) | exact absurd rfl h

theorem workerNext_stopped (h : a ≠ .count) :
    (workerNext cfg s w a).stoppedThreadNum = s.stoppedThreadNum := by
  cases a <;> simp only [workerNext, workerAct, Worker.popTimeWait] <;>
    first | rfl | (split <;> rfl) | exact absurd rfl h

theorem workerNext_callers (h : a ≠ .notifyAll) : (workerNext cfg s w a).callers = s.callers := by
  cases a <;> simp only [workerNext, workerAct, Worker.popTimeWait] <;>
    first | rfl | (split <;> rfl) | exact absurd rfl h

/-- A broadcast moves no caller to another statement. -/
theorem workerNext_callers_pc (c : ℕ) : ((workerNext cfg s w a).callers c).pc = (s.callers c).pc := by
  by_cases h : a = .notifyAll
  · subst h
    simp only [workerNext, workerAct]
    split_ifs
    · simp only [Pool.notifyAllState]
      split_ifs <;> rfl
    · rfl
  · rw [workerNext_callers w a h]

end

/-! ## Caller actions -/

section
variable (c : ℕ) (a : CallerAct)

@[simp] theorem callerNext_workers : (callerNext cfg s c a).workers = s.workers := by
  cases a <;> simp only [callerNext, callerAct] <;>
    first | rfl | (split <;> rfl) | (cases (s.callers c).task <;> rfl)

@[simp] theorem callerNext_workerNum : (callerNext cfg s c a).workerNum = s.workerNum := by
  cases a <;> simp only [callerNext, callerAct] <;>
    first | rfl | (split <;> rfl) | (cases (s.callers c).task <;> rfl)

@[simp] theorem callerNext_threads : (callerNext cfg s c a).threads = s.threads := by
  cases a <;> simp only [callerNext, callerAct] <;>
    first | rfl | (split <;> rfl) | (cases (s.callers c).task <;> rfl)

@[simp] theorem callerNext_guard : (callerNext cfg s c a).guard = s.guard := by
  cases a <;> simp only [callerNext, callerAct] <;>
    first | rfl | (split <;> rfl) | (cases (s.callers c).task <;> rfl)

@[simp] theorem callerNext_sub :
    (callerNext cfg s c a).subWorkerThreadId = s.subWorkerThreadId := by
  cases a <;> simp only [callerNext, callerAct] <;>
    first | rfl | (split <;> rfl) | (cases (s.callers c).task <;> rfl)

@[simp] theorem callerNext_state : (callerNext cfg s c a).state = s.state := by
  cases a <;> simp only [callerNext, callerAct] <;>
    first | rfl | (split <;> rfl) | (cases (s.callers c).task <;> rfl)

@[simp] theorem callerNext_stopped :
    (callerNext cfg s c a).stoppedThreadNum = s.stoppedThreadNum := by
  cases a <;> simp only [callerNext, callerAct] <;>
    first | rfl | (split <;> rfl) | (cases (s.callers c).task <;> rfl)

/-- Only `Push` touches the task queue. -/
theorem callerNext_queue (h : a ≠ .push) : (callerNext cfg s c a).taskQueue = s.taskQueue := by
  cases a with
  | push => exact absurd rfl h
  | load | cas =>
    simp only [callerNext, callerAct]
    split <;> rfl
  | _ => rfl

/-- A caller changes nothing of the monitor but whether it has been signalled. -/
theorem callerNext_monitor :
    ∃ n, (callerNext cfg s c a).monitor = { s.monitor with notified := n } := by
  cases a <;> simp only [callerNext, callerAct] <;>
    first | exact ⟨_, rfl⟩ | (split <;> exact ⟨_, rfl⟩) |
      (cases (s.callers c).task <;> exact ⟨_, rfl⟩)

/-- The compare-exchange of `ShutDown` succeeds. -/
def CallerAct.Wins (s : Pool) : CallerAct → Prop
  | .cas spurious => s.isRequestShutDown = false ∧ spurious = false
  | _ => False

instance (s : Pool) : (b : CallerAct) → Decidable (b.Wins s)
  | .cas _ => inferInstanceAs (Decidable (_ ∧ _))
  | .addTask _ | .shutDown _ | .load | .push | .notify | .resume | .testState | .wake =>
    inferInstanceAs (Decidable False)

/-- Only a winning `ShutDown` touches the request flag and the closing sequence. -/
theorem callerNext_closing (h : ¬ a.Wins s) :
    (callerNext cfg s c a).isRequestShutDown = s.isRequestShutDown ∧
      (callerNext cfg s c a).closer = s.closer := by
  cases a with
  | push => cases h' : (s.callers c).task <;> simp [callerNext, callerAct, h', Pool.pushTask]
  | load => simp only [callerNext, callerAct]; split <;> exact ⟨rfl, rfl⟩
  | cas spurious =>
    cases hf : s.isRequestShutDown <;> cases spurious <;>
      simp_all [callerNext, callerAct, CallerAct.Wins]
  | _ => exact ⟨rfl, rfl⟩

theorem callerNext_wins (h : a.Wins s) :
    s.isRequestShutDown = false ∧ (callerNext cfg s c a).isRequestShutDown = true ∧
      (callerNext cfg s c a).closer = { s.closer with pc := .setStop } := by
  cases a with
  | cas spurious =>
    obtain ⟨hf, rfl⟩ := h
    simp [callerNext, callerAct, hf]
  | _ => exact absurd h id

end

/-! ## Actions of the monitor and of the closing sequence -/

section
variable (b : MonitorAct)

@[simp] theorem monitorAct_flag : (monitorAct cfg s b).isRequestShutDown = s.isRequestShutDown := by
  cases b <;> simp only [monitorAct, Pool.timeWait] <;> first | rfl | (split <;> rfl)

@[simp] theorem monitorAct_state : (monitorAct cfg s b).state = s.state := by
  cases b <;> simp only [monitorAct, Pool.timeWait] <;> first | rfl | (split <;> rfl)

@[simp] theorem monitorAct_stopped : (monitorAct cfg s b).stoppedThreadNum = s.stoppedThreadNum := by
  cases b <;> simp only [monitorAct, Pool.timeWait] <;> first | rfl | (split <;> rfl)

@[simp] theorem monitorAct_closer : (monitorAct cfg s b).closer = s.closer := by
  cases b <;> simp only [monitorAct, Pool.timeWait] <;> first | rfl | (split <;> rfl)

@[simp] theorem monitorAct_callers : (monitorAct cfg s b).callers = s.callers := by
  cases b <;> simp only [monitorAct, Pool.timeWait] <;> first | rfl | (split <;> rfl)

@[simp] theorem monitorAct_taskQueue : (monitorAct cfg s b).taskQueue = s.taskQueue := by
  cases b <;> simp only [monitorAct, Pool.timeWait] <;> first | rfl | (split <;> rfl)

/-- Only the monitor's `create` touches the workers. -/
theorem monitorAct_workers (h : ∀ id, b ≠ .create id) :
    (monitorAct cfg s b).workers = s.workers ∧ (monitorAct cfg s b).workerNum = s.workerNum := by
  cases b with
  | create id => exact absurd rfl (h id)
  | lock | wake => simp only [monitorAct, Pool.timeWait]; split <;> exact ⟨rfl, rfl⟩
  | recheck | grow | insert | find => simp only [monitorAct]; split <;> exact ⟨rfl, rfl⟩
  | _ => exact ⟨rfl, rfl⟩

/-- The monitor comes to `insert` by starting a worker. -/
theorem monitor_insert (hpc : s.monitor.pc = b.at) (h : (monitorAct cfg s b).monitor.pc = .insert) :
    ∃ id, b = .create id := by
  cases b with
  | create id => exact ⟨id, rfl⟩
  | lock | wake =>
    simp only [monitorAct, Pool.timeWait] at h
    split at h <;> cases h
  | start | check | recheck | grow | insert =>
    simp only [monitorAct] at h
    split at h <;> cases h
  | find =>
    simp only [monitorAct] at h
    split at h
    · cases h
    · rw [hpc] at h; cases h
  | _ => cases h

/-- The monitor comes to `joinNew` when the id of its new worker is taken. -/
theorem monitor_joinNew (hpc : s.monitor.pc = b.at) (h : (monitorAct cfg s b).monitor.pc = .joinNew) :
    b = .insert ∧ (s.findThread (s.workers s.monitor.newWorker).threadId).isSome = true := by
  cases b with
  | insert =>
    simp only [monitorAct] at h
    split at h
    · rename_i hsome; exact ⟨rfl, hsome⟩
    · cases h
  | lock | wake =>
    simp only [monitorAct, Pool.timeWait] at h
    split at h <;> cases h
  | start | check | recheck | grow =>
    simp only [monitorAct] at h
    split at h <;> cases h
  | find =>
    simp only [monitorAct] at h
    split at h
    · cases h
    · rw [hpc] at h; cases h
  | _ => cases h

theorem monitorAct_threads (h : b ≠ .insert) (h' : b ≠ .join) :
    (monitorAct cfg s b).threads = s.threads := by
  cases b <;> simp only [monitorAct, Pool.timeWait] <;>
    first | rfl | (split <;> rfl) | exact absurd rfl h | exact absurd rfl h'

end

section
variable (b : CloserAct)

@[simp] theorem closerAct_flag : (closerAct cfg s b).isRequestShutDown = s.isRequestShutDown := by cases b <;> rfl

@[simp] theorem closerAct_threads : (closerAct cfg s b).threads = s.threads := by cases b <;> rfl

@[simp] theorem closerAct_workerNum : (closerAct cfg s b).workerNum = s.workerNum := by cases b <;> rfl

@[simp] theorem closerAct_stopped : (closerAct cfg s b).stoppedThreadNum = s.stoppedThreadNum := by cases b <;> rfl

@[simp] theorem closerAct_callers : (closerAct cfg s b).callers = s.callers := by cases b <;> rfl

theorem closerAct_state (h : b ≠ .setStop) : (closerAct cfg s b).state = s.state := by
  cases b <;> first | rfl | exact absurd rfl h

end

/-- The request flag is never cleared. -/
theorem flag_mono {a : Act} (hs : step cfg s a = some t) (hf : t.isRequestShutDown = false) :
    s.isRequestShutDown = false := by
  obtain ⟨-, rfl⟩ := step_eq_some.1 hs
  cases a with
  | worker w b => rwa [next, workerNext_flag] at hf
  | caller c b =>
    by_cases hw : b.Wins s
    · exact (@callerNext_wins cfg s c b hw).1
    · rwa [next, (callerNext_closing c b hw).1] at hf
  | monitor b => rwa [next, monitorAct_flag] at hf
  | closer b => rwa [next, closerAct_flag] at hf

/-! ## One worker -/

/-- What a step with the action `a` can make of the worker `v`. -/
inductive WorkerMove (cfg : Config) (s : Pool) : Act → ℕ → Worker → Prop
  | same (a : Act) (v : ℕ) : WorkerMove cfg s a v (s.workers v)
  | act {v : ℕ} {b : WorkerAct} : Enabled s (.worker v b) →
      WorkerMove cfg s (.worker v b) v (workerAct cfg s (s.workers v) b).1
  | close {v : ℕ} {spurious : Bool} : Enabled s (.closer (.asyncClose v spurious)) →
      WorkerMove cfg s (.closer (.asyncClose v spurious)) v
        { s.workers v with isRequestClose := (s.workers v).isRequestClose || !spurious }
  | create {id : ThreadId} : Enabled s (.monitor (.create id)) →
      WorkerMove cfg s (.monitor (.create id)) s.workerNum (Worker.create id)

theorem worker_move {a : Act} (h : step cfg s a = some t) (v : ℕ) :
    WorkerMove cfg s a v (t.workers v) := by
  obtain ⟨hen, rfl⟩ := step_eq_some.1 h
  cases a with
  | worker w b =>
    by_cases hv : v = w
    · subst hv
      rw [next, workerNext_self]; exact .act hen
    · rw [next, workerNext_of_ne w b hv]; exact .same _ v
  | caller c b => rw [next, callerNext_workers]; exact .same _ v
  | monitor b =>
    cases b with
    | create id =>
      by_cases hv : v = s.workerNum
      · subst hv
        simp only [next, monitorAct, Function.update_self]; exact .create hen
      · simp only [next, monitorAct, Function.update_of_ne hv]; exact .same _ v
    | lock | wake => simp only [next, monitorAct, Pool.timeWait]; split <;> exact .same _ v
    | recheck | grow | insert | find => simp only [next, monitorAct]; split <;> exact .same _ v
    | _ => exact .same _ v
  | closer b =>
    cases b with
    | asyncClose w spurious =>
      by_cases hv : v = w
      · subst hv
        simp only [next, closerAct, Function.update_self]; exact .close hen
      · simp only [next, closerAct, Function.update_of_ne hv]; exact .same _ v
    | _ => exact .same _ v

/-- A property of a single worker is an invariant of all workers if a new worker has it
    and neither its own actions nor `AsyncClose()` destroy it. -/
theorem worker_invariant {P : Pool → Act → Prop} {I : Worker → Prop}
    (hcreate : ∀ id, I (Worker.create id))
    (hact : ∀ s w b, P s (.worker w b) → (s.workers w).pc = b.at → I (s.workers w) →
      I (workerAct cfg s (s.workers w) b).1)
    (hclose : ∀ wk r, I wk → I { wk with isRequestClose := r }) :
    Preserved (step cfg) P fun s => ∀ v, I (s.workers v) := by
  intro s a t hI hP hs v
  have hm := worker_move hs v
  generalize t.workers v = wk at hm ⊢
  cases hm with
  | same => exact hI v
  | act hen => exact hact s v _ hP hen.2.1 (hI v)
  | close => exact hclose _ _ (hI v)
  | create => exact hcreate _

@[simp] theorem workerAct_threadId (wk : Worker) (b : WorkerAct) :
    (workerAct cfg s wk b).1.threadId = wk.threadId := by
  cases b <;> simp only [workerAct, Worker.popTimeWait, Worker.checkFunc] <;>
    first | rfl | (split <;> rfl)

/-- The ids of the workers created so far do not change. -/
theorem worker_threadId {a : Act} (h : step cfg s a = some t) {v : ℕ} (hv : v < s.workerNum) :
    (t.workers v).threadId = (s.workers v).threadId := by
  have hm := worker_move h v
  generalize t.workers v = wk at hm ⊢
  cases hm with
  | create => exact absurd hv (Nat.lt_irrefl _)
  | act => exact workerAct_threadId _ _
  | _ => rfl

theorem workerNum_le {a : Act} (h : step cfg s a = some t) : s.workerNum ≤ t.workerNum := by
  obtain ⟨-, rfl⟩ := step_eq_some.1 h
  cases a with
  | worker w b => simp [next]
  | caller c b => simp [next]
  | monitor b =>
    cases b with
    | create id => simp [next, monitorAct]
    | lock | wake => simp only [next, monitorAct, Pool.timeWait]; split <;> exact Nat.le_refl _
    | recheck | grow | insert | find => simp only [next, monitorAct]; split <;> exact Nat.le_refl _
    | _ => exact Nat.le_refl _
  | closer b => cases b <;> exact Nat.le_refl _

/-- A worker is there before the step, or is the one that the step creates. -/
theorem worker_new {a : Act} (h : step cfg s a = some t) {w : ℕ} (hw : w < t.workerNum) :
    w < s.workerNum ∨ ∃ id, a = .monitor (.create id) ∧ w = s.workerNum ∧ t.workers w = Worker.create id := by
  obtain ⟨-, rfl⟩ := step_eq_some.1 h
  cases a with
  | worker w' b => left; simpa [next] using hw
  | caller c b => left; simpa [next] using hw
  | closer b => left; simpa [next] using hw
  | monitor b =>
    by_cases hc : ∃ id, b = .create id
    · obtain ⟨id, rfl⟩ := hc
      rcases Nat.lt_succ_iff_lt_or_eq.1 hw with hlt | rfl
      · exact .inl hlt
      · exact .inr ⟨id, rfl, rfl, by simp [next, monitorAct]⟩
    · left
      rwa [next, (monitorAct_workers b fun id h => hc ⟨id, h⟩).2] at hw

end Empool
