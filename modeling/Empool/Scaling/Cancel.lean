/-
  A `ScalingThreadPool` with its tasks: what the workers do inside `Run`, and
  the callers of `Cancel`.

  A step of `TaskPool.step` is a step of the pool, or a statement of `Run` or
  `Cancel`; the last statement of a `Run` is the worker's `runReturn`.  Shutdown
  closes the workers and pushes an `EndTask` for each of them, and a worker that
  is closed or pops an `EndTask` lets the rest of the queue be.  If the last
  thread of the pool leaves no accepted task behind, and no task throws, nobody
  waits for a pool whose threads have ended (`cancel_served`).
-/
import Empool.Scaling.Ends
import Empool.Task.Wait

namespace Empool

open Lts TaskBase

/-- The next statement of a thread that calls `Cancel`. -/
inductive CancelPc where
  | idle
  /-- `m_isRequestCancel.store(true)` -/
  | store (id : ℕ)
  /-- the first `IsStopState()` -/
  | test (id : ℕ)
  /-- in `pthread_cond_wait` on `m_cancelCondition` -/
  | waiting (id : ℕ)
deriving DecidableEq, Repr

/-- The task whose cancellation the caller has requested. -/
def CancelPc.requested : CancelPc → Option ℕ
  | .test id | .waiting id => some id
  | .idle | .store _ => none

/-- A `ScalingThreadPool` with its tasks and the callers of `Cancel`. -/
structure TaskPool where
  pool : Pool
  tasks : ℕ → TaskBase
  /-- the next statement of the call of `Run` in which the worker is -/
  runs : ℕ → RunPc
  cancellers : ℕ → CancelPc
  /-- history: what was pushed before shutdown was requested -/
  pushedBefore : List Task

namespace TaskPool

/-- The pool when its constructor returns. -/
def create (cfg : Config) (ids : LiveIds cfg.corePoolSize) : TaskPool where
  pool := initPool cfg ids
  tasks := fun _ => TaskBase.create
  runs := fun _ => .checkCancellation
  cancellers := fun _ => .idle
  pushedBefore := []

variable (cfg : Config) (s : TaskPool)

/-- The worker is inside `Run` of the task. -/
def Inside (w i : ℕ) : Prop :=
  w < s.pool.workerNum ∧ (s.pool.workers w).pc = .running ∧ (s.pool.workers w).runningTask = some (.user i)

instance (w i : ℕ) : Decidable (s.Inside w i) := inferInstanceAs (Decidable (_ ∧ _ ∧ _))

/-- `Run` ends, and the worker takes the action. -/
def leaveRun (w i : ℕ) (b : TaskBase) (a : WorkerAct) : Option TaskPool :=
  (Empool.step cfg s.pool (.worker w a)).map fun p =>
    { s with
      pool := p
      tasks := Function.update s.tasks i b
      runs := Function.update s.runs w .checkCancellation }

/-- The worker has executed a statement of `Run` of the task `i`. -/
def runNext (w i : ℕ) (b : TaskBase) : RunNext → Option TaskPool
  | .goto pc =>
    some { s with tasks := Function.update s.tasks i b, runs := Function.update s.runs w pc }
  | .returned => s.leaveRun cfg w i b .runReturn
  | .thrown => s.leaveRun cfg w i b .runThrow

/-- The worker executes a statement of `Run`. -/
def run (w : ℕ) (e : DoRunEnd) : Option TaskPool :=
  match (s.pool.workers w).runningTask with
  | some (.user i) =>
    if s.Inside w i then ((s.tasks i).run e (s.runs w)).bind fun r => s.runNext cfg w i r.1 r.2 else none
  | _ => none

/-- The pool takes a step. -/
def poolNext (p : Pool) : TaskPool :=
  { s with pool := p, pushedBefore := if s.pool.isRequestShutDown then s.pushedBefore else p.pushed }

/-- `while (!IsStopState()) wait` of `Cancel` -/
def cancelWait (c id : ℕ) : TaskPool :=
  { s with
    tasks := Function.update s.tasks id ((s.tasks id).cancelTest c)
    cancellers := Function.update s.cancellers c (if (s.tasks id).state.stopped then .idle else .waiting id) }

/-- The next statement of the call of `Cancel`. -/
def cancellerNext (c : ℕ) : Option TaskPool :=
  match s.cancellers c with
  | .idle => none
  | .store id =>
    some { s with
      tasks := Function.update s.tasks id (s.tasks id).cancelStore
      cancellers := Function.update s.cancellers c (.test id) }
  | .test id | .waiting id => some (s.cancelWait c id)

/-! ## Steps -/

inductive Act where
  /-- a step of the pool, but for the ends of `Run` -/
  | pool (a : Empool.Act)
  /-- the next statement of `Run` in which the worker is -/
  | run (w : ℕ) (e : DoRunEnd)
  /-- call `Cancel` of the task -/
  | cancel (c id : ℕ)
  /-- the next statement of the call of `Cancel` -/
  | canceller (c : ℕ)
deriving DecidableEq, Repr

def step : Act → Option TaskPool
  | .pool a => if a.leavesRun then none else (Empool.step cfg s.pool a).map s.poolNext
  | .run w e => s.run cfg w e
  | .cancel c id =>
    if s.cancellers c = .idle then some { s with cancellers := Function.update s.cancellers c (.store id) }
    else none
  | .canceller c => s.cancellerNext c

variable {cfg : Config} {s t : TaskPool} {a : Act}

/-- What a step does. -/
inductive Trans (cfg : Config) (s : TaskPool) : Act → TaskPool → Prop
  | pool {a : Empool.Act} {p : Pool} (ha : a.leavesRun = false) (hs : Empool.step cfg s.pool a = some p) :
      Trans cfg s (.pool a) (s.poolNext p)
  | goto {w i : ℕ} {e : DoRunEnd} {b : TaskBase} {pc : RunPc} (hin : s.Inside w i)
      (hr : RunTrans (s.tasks i) (s.runs w) b (.goto pc)) :
      Trans cfg s (.run w e) { s with tasks := Function.update s.tasks i b, runs := Function.update s.runs w pc }
  | returned {w i : ℕ} {e : DoRunEnd} {b : TaskBase} {p : Pool} (hin : s.Inside w i)
      (hr : RunTrans (s.tasks i) (s.runs w) b .returned)
      (hs : Empool.step cfg s.pool (.worker w .runReturn) = some p) :
      Trans cfg s (.run w e)
        { s with
          pool := p
          tasks := Function.update s.tasks i b
          runs := Function.update s.runs w .checkCancellation }
  | thrown {w : ℕ} {u : TaskPool} : Trans cfg s (.run w .otherException) u
  | cancel {c id : ℕ} (hc : s.cancellers c = .idle) :
      Trans cfg s (.cancel c id) { s with cancellers := Function.update s.cancellers c (.store id) }
  | store {c id : ℕ} (hc : s.cancellers c = .store id) :
      Trans cfg s (.canceller c)
        { s with
          tasks := Function.update s.tasks id (s.tasks id).cancelStore
          cancellers := Function.update s.cancellers c (.test id) }
  | wait {c id : ℕ} (hc : (s.cancellers c).requested = some id) :
      Trans cfg s (.canceller c) (s.cancelWait c id)

theorem trans_of_run {w : ℕ} {e : DoRunEnd} (hs : s.run cfg w e = some t) : Trans cfg s (.run w e) t := by
  unfold run at hs
  split at hs
  · rename_i i htask
    split_ifs at hs with hin
    obtain ⟨⟨b, r⟩, hr, hnext⟩ := Option.bind_eq_some_iff.1 hs
    cases r with
    | goto pc =>
      cases hnext
      exact .goto hin (runTrans_of_run hr)
    | returned =>
      obtain ⟨p, hp, rfl⟩ := Option.map_eq_some_iff.1 hnext
      exact .returned hin (runTrans_of_run hr) hp
    | thrown =>
      obtain rfl := thrown_of_run hr
      exact .thrown
  · cases hs

theorem trans_of_step (hs : step cfg s a = some t) : Trans cfg s a t := by
  cases a with
  | pool a =>
    simp only [step] at hs
    split_ifs at hs with ha
    obtain ⟨p, hp, rfl⟩ := Option.map_eq_some_iff.1 hs
    exact .pool (Bool.eq_false_iff.2 ha) hp
  | run w e => exact trans_of_run hs
  | cancel c id =>
    simp only [step] at hs
    split_ifs at hs with hc
    cases hs
    exact .cancel hc
  | canceller c =>
    simp only [step, cancellerNext] at hs
    split at hs
    · cases hs
    · rename_i id hc
      cases hs
      exact .store hc
    · rename_i id hc
      cases hs
      exact .wait (by rw [hc]; rfl)
    · rename_i id hc
      cases hs
      exact .wait (by rw [hc]; rfl)

/-! ## Who runs the tasks -/

/-- A worker is at the `ConditionNotifyAllLocker` of `Run` of the task. -/
def notifies (s : TaskPool) (id : ℕ) : Prop := ∃ w, s.Inside w id ∧ s.runs w = .notify

/-- Somebody has still to run the task. -/
def pending (s : TaskPool) (id : ℕ) : Prop :=
  .user id ∈ s.pool.taskQueue ∨
    ∃ w < s.pool.workerNum, (s.pool.workers w).Holds (.user id) ∧ s.runs w ≠ .notify

/-- The task was accepted before shutdown was requested. -/
def accepted (s : TaskPool) (id : ℕ) : Prop := .user id ∈ s.pushedBefore

instance (s : TaskPool) (id : ℕ) : Decidable (s.accepted id) := inferInstanceAs (Decidable (_ ∈ _))

/-- The last thread leaves no accepted task behind, and no task throws. -/
def Cleared (s : TaskPool) : Act → Prop
  | .pool a => s.pool.LastEnds a →
      ∀ u ∈ s.pushedBefore, u ∈ s.pool.taskQueue → ∀ id ∈ u.userId, (s.tasks id).state.stopped
  | .run _ e => e ≠ .otherException
  | _ => True

instance (s : TaskPool) : (a : Act) → Decidable (Cleared s a)
  | .pool a => inferInstanceAs (Decidable (s.pool.LastEnds a → ∀ u ∈ s.pushedBefore, _ → ∀ id ∈ u.userId, _))
  | .run _ _ => inferInstanceAs (Decidable (_ ≠ _))
  | .cancel .. | .canceller _ => isTrue trivial

/-- What the pool owes to the callers that wait. -/
structure Serves (s : TaskPool) : Prop where
  /-- a worker that is in no `Run` has its next call before it -/
  fresh : ∀ w, (w < s.pool.workerNum → (s.pool.workers w).pc ≠ .running) → s.runs w = .checkCancellation
  before : ∀ u ∈ s.pushedBefore, u ∈ s.pool.pushed
  woken : Woken s.tasks s.notifies
  provided : Provided s.tasks (fun id => .user id ∈ s.pool.pushed) s.pending
  ended : s.pool.AllEnded → ∀ id, s.accepted id → (s.tasks id).state.stopped
  requested : ∀ c id, (s.cancellers c).requested = some id → (s.tasks id).isRequestCancel = true

theorem Serves.create (ids : LiveIds cfg.corePoolSize) : Serves (.create cfg ids) where
  fresh _ _ := rfl
  before u hu := by cases hu
  woken id c hc := by cases hc
  provided id hid := by cases hid
  ended h := by cases h.1
  requested c id hc := by cases hc

/-! ## A step of the pool -/

theorem pending_poolNext {b : Empool.Act} {p : Pool} (h : Serves s) (hb : b.leavesRun = false)
    (hs : Empool.step cfg s.pool b = some p) {id : ℕ} (hp : s.pending id) : (s.poolNext p).pending id := by
  have hle : s.pool.workerNum ≤ p.workerNum := workerNum_le hs
  rcases hp with hmem | ⟨w, hw, hh, hn⟩
  · cases queueMove_of_step hs with
    | same hq => exact .inl (hq ▸ hmem)
    | push u hq =>
      left
      show _ ∈ p.taskQueue
      rw [hq]
      exact List.mem_append_left _ hmem
    | pop u w hw hpc hheld hq =>
      rw [hq] at hmem
      rcases List.mem_cons.1 hmem with rfl | hmem
      · refine .inr ⟨w, Nat.lt_of_lt_of_le hw hle, hheld, ?_⟩
        show s.runs w ≠ _
        rw [h.fresh w fun _ => hpc]
        exact fun hc => by cases hc
      · exact .inl hmem
  · exact .inr ⟨w, Nat.lt_of_lt_of_le hw hle, holds_of_step hs hb hw hh, hn⟩

/-- What is new in the history is in the queue. -/
theorem mem_pushed {b : Empool.Act} {p : Pool} (hs : Empool.step cfg s.pool b = some p) {u : Task}
    (hu : u ∈ p.pushed) : u ∈ s.pool.pushed ∨ u ∈ p.taskQueue := by
  cases queueMove_of_step hs with
  | same hq hp => exact .inl (hp ▸ hu)
  | push v hq hp =>
    rw [hp] at hu
    refine (List.mem_append.1 hu).imp (fun h => h) fun hv => ?_
    rw [hq]
    exact List.mem_append_right _ hv
  | pop v w hw hpc hheld hq hp => exact .inl (hp ▸ hu)

theorem pushed_mono {b : Empool.Act} {p : Pool} (hs : Empool.step cfg s.pool b = some p) {u : Task}
    (hu : u ∈ s.pool.pushed) : u ∈ p.pushed := by
  cases queueMove_of_step hs with
  | same hq hp => exact hp ▸ hu
  | push v hq hp =>
    rw [hp]
    exact List.mem_append_left _ hu
  | pop v w hw hpc hheld hq hp => exact hp ▸ hu

/-- When the last thread ends, nobody has a task, and none is left in the queue. -/
theorem Serves.stopped_of_lastEnds {b : Empool.Act} (h : Serves s) (hclear : Cleared s (.pool b))
    (hlast : s.pool.LastEnds b) (hen : Enabled s.pool b) {id : ℕ} (hid : s.accepted id) :
    (s.tasks id).state.stopped := by
  by_contra hst
  rcases h.provided id (h.before _ hid) hst with hmem | ⟨w, hw, hh, -⟩
  · exact hst (hclear hlast _ hid hmem id rfl)
  · rcases hlast.2 w hw with rfl | hended
    · have hpc : (s.pool.workers w).pc = .notifyFinished := hen.2.1
      rcases hh.2 with hh | hh <;> rw [hh] at hpc <;> cases hpc
    · rcases hh.2 with hh | hh <;> rw [hh] at hended <;> cases hended

theorem Serves.poolNext {b : Empool.Act} {p : Pool} (h : Serves s) (hm : MonitorAsked s.pool)
    (hclear : Cleared s (.pool b)) (hb : b.leavesRun = false) (hs : Empool.step cfg s.pool b = some p) :
    Serves (s.poolNext p) where
  fresh w hpc := by
    refine h.fresh w fun hw hrun => ?_
    obtain ⟨hrun', -⟩ := running_of_step hs hb hw hrun
    exact hpc (Nat.lt_of_lt_of_le hw (workerNum_le hs)) hrun'
  before u hu := by
    have hu : u ∈ if s.pool.isRequestShutDown then s.pushedBefore else p.pushed := hu
    split_ifs at hu
    · exact pushed_mono hs (h.before u hu)
    · exact hu
  woken := h.woken.imp fun id ⟨w, ⟨hw, hpc, htask⟩, hn⟩ => by
    obtain ⟨hpc', htask'⟩ := running_of_step hs hb hw hpc
    exact ⟨w, ⟨Nat.lt_of_lt_of_le hw (workerNum_le hs), hpc', htask'.trans htask⟩, hn⟩
  provided id hid hst := by
    rcases mem_pushed hs hid with hold | hnew
    · exact pending_poolNext h hb hs (h.provided id hold hst)
    · exact .inl hnew
  ended hend id hid := by
    have hlast := lastEnds_of_step hs hb hend
    refine h.stopped_of_lastEnds hclear hlast (step_eq_some.1 hs).1 ?_
    have hid : Task.user id ∈ if s.pool.isRequestShutDown then s.pushedBefore else p.pushed := hid
    -- the monitor is among the threads that have left their loops
    have hover : s.pool.monitor.pc = .finish ∨ s.pool.monitor.pc = .ended := by
      refine hlast.1.imp ?_ fun hpc => hpc
      rintro rfl
      exact (step_eq_some.1 hs).1.1
    rwa [if_pos (hm.closed (hm.left hover))] at hid
  requested := h.requested

/-! ## A statement of `Run` -/

theorem Inside.unique {w i j : ℕ} (h : s.Inside w i) (h' : (s.pool.workers w).runningTask = some (.user j)) :
    j = i := by
  have heq := h'.symm.trans h.2.2
  exact Task.user.inj (Option.some.inj heq)

theorem Serves.goto {w i : ℕ} {b : TaskBase} {pc : RunPc} (h : Serves s) (hin : s.Inside w i)
    (hr : RunTrans (s.tasks i) (s.runs w) b (.goto pc)) :
    Serves { s with tasks := Function.update s.tasks i b, runs := Function.update s.runs w pc } where
  fresh v hv := by
    have hne : v ≠ w := by
      rintro rfl
      exact hv hin.1 hin.2.1
    show Function.update s.runs w pc v = _
    rw [Function.update_of_ne hne]
    exact h.fresh v hv
  before := h.before
  woken := by
    refine h.woken.run hr (fun id ⟨v, hv, hn⟩ => ?_) fun hgo => ?_
    · by_cases hvw : v = w
      · subst hvw
        exact .inr ⟨hin.unique hv.2.2, hn⟩
      · exact .inl ⟨v, hv, (Function.update_of_ne hvw ..).trans hn⟩
    · refine ⟨w, hin, (Function.update_self ..).trans ?_⟩
      exact RunNext.goto.inj hgo
  provided := by
    refine h.provided.run hr (by simp) (fun id hid hp => ?_) fun _ hgo => ?_
    · refine hp.imp (fun hmem => hmem) fun ⟨v, hv, hh, hn⟩ => ?_
      by_cases hvw : v = w
      · subst hvw
        rcases hid with hid | hid
        · exact absurd (hin.unique hh.1) hid
        · exact absurd hid hn
      · exact ⟨v, hv, hh, fun hc => hn ((Function.update_of_ne hvw ..).symm.trans hc)⟩
    · refine .inr ⟨w, hin.1, ⟨hin.2.2, .inr hin.2.1⟩, fun hc => hgo ?_⟩
      rw [show pc = .notify from (Function.update_self ..).symm.trans hc]
  ended hend := by
    have hpc := hend.2 w hin.1
    rw [show (s.pool.workers w).pc = .running from hin.2.1] at hpc
    cases hpc
  requested c id hc := (apply_update_of_eq hr.isRequestCancel id).trans (h.requested c id hc)

/-- The worker is back in its loop. -/
theorem of_runReturn {p : Pool} {w : ℕ} (hs : Empool.step cfg s.pool (.worker w .runReturn) = some p) :
    p.workerNum = s.pool.workerNum ∧ p.taskQueue = s.pool.taskQueue ∧ p.pushed = s.pool.pushed ∧
      (∀ v, v ≠ w → p.workers v = s.pool.workers v) ∧ (p.workers w).pc = .check := by
  obtain ⟨-, rfl⟩ := step_eq_some.1 hs
  refine ⟨rfl, rfl, rfl, fun v hv => workerNext_of_ne w .runReturn hv, ?_⟩
  rw [next, workerNext_self]
  rfl

theorem Serves.returned {w i : ℕ} {b : TaskBase} {p : Pool} (h : Serves s) (hin : s.Inside w i)
    (hr : RunTrans (s.tasks i) (s.runs w) b .returned)
    (hs : Empool.step cfg s.pool (.worker w .runReturn) = some p) :
    Serves { s with
      pool := p
      tasks := Function.update s.tasks i b
      runs := Function.update s.runs w .checkCancellation } := by
  obtain ⟨hnum, hqueue, hpushed, hother, hback⟩ := of_runReturn hs
  have hnotify : s.runs w = .notify := hr.at_notify
  refine ⟨fun v hv => ?_, fun u hu => hpushed ▸ h.before u hu, ?_, ?_, fun hend => ?_, fun c id hc => ?_⟩
  · by_cases hvw : v = w
    · subst hvw
      exact Function.update_self ..
    · refine (Function.update_of_ne hvw ..).trans (h.fresh v fun hlt => ?_)
      rw [← hother v hvw]
      exact hv (hnum.symm ▸ hlt)
  · refine h.woken.run hr (fun id ⟨v, hv, hn⟩ => ?_) fun hgo => by cases hgo
    by_cases hvw : v = w
    · subst hvw
      exact .inr ⟨hin.unique hv.2.2, hn⟩
    · refine .inl ⟨v, ⟨hnum.symm ▸ hv.1, ?_⟩, (Function.update_of_ne hvw ..).trans hn⟩
      show (p.workers v).pc = _ ∧ (p.workers v).runningTask = _
      rw [hother v hvw]
      exact hv.2
  · have hprovided : Provided s.tasks (fun id => .user id ∈ p.pushed) s.pending := hpushed ▸ h.provided
    refine hprovided.run hr (by simp) (fun id _ hp => ?_) fun hne => absurd hnotify hne
    refine hp.imp (fun hmem => hqueue ▸ hmem) fun ⟨v, hv, hh, hn⟩ => ?_
    have hvw : v ≠ w := by
      rintro rfl
      exact hn hnotify
    refine ⟨v, hnum.symm ▸ hv, ?_, fun hc => hn ((Function.update_of_ne hvw ..).symm.trans hc)⟩
    show (p.workers v).Holds _
    rw [hother v hvw]
    exact hh
  · have hpc : (p.workers w).pc = .ended := hend.2 w (hnum.symm ▸ hin.1)
    rw [hback] at hpc
    cases hpc
  · exact (apply_update_of_eq hr.isRequestCancel id).trans (h.requested c id hc)

/-! ## The callers of `Cancel` -/

/-- A caller writes to a task, and leaves its state. -/
theorem Serves.setTask {c i : ℕ} {b : TaskBase} {pc : CancelPc} (h : Serves s)
    (hst : b.state = (s.tasks i).state) (hw : Woken (Function.update s.tasks i b) s.notifies)
    (hreq : (s.tasks i).isRequestCancel = true → b.isRequestCancel = true)
    (hpc : ∀ id, pc.requested = some id → id = i ∧ b.isRequestCancel = true) :
    Serves { s with
      tasks := Function.update s.tasks i b
      cancellers := Function.update s.cancellers c pc } where
  fresh := h.fresh
  before := h.before
  woken := hw
  provided := h.provided.update hst
  ended hend id hid := by
    rw [show (Function.update s.tasks i b id).state = (s.tasks id).state from apply_update_of_eq hst id]
    exact h.ended hend id hid
  requested d id hd := by
    have hreq' : (s.tasks id).isRequestCancel = true → (Function.update s.tasks i b id).isRequestCancel = true :=
      (Function.forall_update_iff s.tasks fun id b => (s.tasks id).isRequestCancel = true →
        b.isRequestCancel = true).2 ⟨hreq, fun _ _ hr => hr⟩ id
    rcases cases_update (P := fun pc => CancelPc.requested pc = some id) hd with ⟨-, hd⟩ | ⟨-, hd⟩
    · obtain ⟨rfl, hb⟩ := hpc id hd
      exact (congrArg TaskBase.isRequestCancel (Function.update_self ..)).trans hb
    · exact hreq' (h.requested d id hd)

theorem Serves.wait {c id : ℕ} (h : Serves s) (hc : (s.cancellers c).requested = some id) :
    Serves (s.cancelWait c id) := by
  have hreq := h.requested c id hc
  obtain ⟨hst, hkeep, -⟩ := cancelTest_frame (s.tasks id) c
  refine h.setTask hst (h.woken.cancelTest hreq) (fun _ => hkeep.trans hreq) fun i hi => ?_
  split_ifs at hi with hstop
  · cases hi
  · exact ⟨(Option.some.inj hi).symm, hkeep.trans hreq⟩

theorem Serves.cancel {c id : ℕ} (h : Serves s) :
    Serves { s with cancellers := Function.update s.cancellers c (.store id) } where
  fresh := h.fresh
  before := h.before
  woken := h.woken
  provided := h.provided
  ended := h.ended
  requested d i hd := by
    refine h.requested d i (of_update (P := fun pc : CancelPc => pc.requested = some i) (fun hp => ?_) hd)
    cases hp

/-! ## Runs -/

theorem Serves.trans (h : Serves s) (hm : MonitorAsked s.pool) (hclear : Cleared s a) (ht : Trans cfg s a t) :
    Serves t := by
  cases ht with
  | pool ha hs => exact h.poolNext hm hclear ha hs
  | goto hin hr => exact h.goto hin hr
  | returned hin hr hs => exact h.returned hin hr hs
  | thrown => exact absurd rfl hclear
  | cancel => exact h.cancel
  | @store c id hc =>
    refine h.setTask rfl h.woken.cancelStore (fun _ => rfl) fun i hi => ?_
    exact ⟨(Option.some.inj hi).symm, rfl⟩
  | wait hc => exact h.wait hc

/-- A step is a step of the pool, or leaves the pool. -/
theorem Trans.pool_step (hclear : Cleared s a) (ht : Trans cfg s a t) :
    t.pool = s.pool ∨ ∃ b, Empool.step cfg s.pool b = some t.pool := by
  cases ht with
  | pool ha hs => exact .inr ⟨_, hs⟩
  | returned hin hr hs => exact .inr ⟨_, hs⟩
  | thrown => exact absurd rfl hclear
  | goto | cancel | store | wait => exact .inl rfl

/-- What holds of the pool in every run holds of it in every run with tasks. -/
theorem preserved_of_pool {I : Pool → Prop} (hI : Preserved (Empool.step cfg) Free I) :
    Preserved (step cfg) Cleared fun s => I s.pool := by
  intro s a t h hclear hs
  rcases (trans_of_step hs).pool_step hclear with heq | ⟨b, hb⟩
  · show I t.pool
    rwa [heq]
  · exact hI _ _ _ h trivial hb

theorem asked_preserved : Preserved (step cfg) Cleared fun s => Locks s.pool ∧ MonitorAsked s.pool :=
  preserved_of_pool (monitorAsked_preserved.and locks_preserved)

/-- The caller waits in `Cancel` of the task, and has not been notified. -/
def Blocked (s : TaskPool) (c id : ℕ) : Prop :=
  s.cancellers c = .waiting id ∧ c ∈ (s.tasks id).cancelCondition

instance (s : TaskPool) (c id : ℕ) : Decidable (s.Blocked c id) := inferInstanceAs (Decidable (_ ∧ _))

/-- A pool whose threads have ended has brought its accepted tasks to a stop state, and nobody waits
    for it. -/
theorem cancel_served (ids : LiveIds cfg.corePoolSize) {as : List Act}
    (h : Run (step cfg) Cleared (.create cfg ids) as s) (hend : s.pool.AllEnded) {id : ℕ} (hid : s.accepted id) :
    (s.tasks id).state.stopped ∧ ∀ c, ¬ s.Blocked c id := by
  have hserves : PreservedUnder (step cfg) Cleared (fun s => Locks s.pool ∧ MonitorAsked s.pool) Serves :=
    fun s a t hj hi ha hs => hi.trans hj.2 ha (trans_of_step hs)
  have hs : Serves s := h.invariant_under asked_preserved hserves ⟨.init ids, .init ids⟩ (.create ids)
  have hstop := hs.ended hend id hid
  refine ⟨hstop, fun c hb => ?_⟩
  obtain ⟨w, hin, -⟩ := (hs.woken id c hb.2).2 hstop
  have hpc := hend.2 w hin.1
  rw [hin.2.1] at hpc
  cases hpc

end TaskPool

end Empool
