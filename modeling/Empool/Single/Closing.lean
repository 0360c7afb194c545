/-
  The shutdown of a `SingleThreadPool` is safe.

  The close flag and the `EndPriorityTask` stop the worker together: whichever
  of them it meets first, it starts at most one task more, and it cannot block
  in `GetTask`, since the end task is in the queue until the worker takes it.

  * `Trans` lists what a step can do;
  * `Sound` is the invariant, `Sound.trans` the step lemma;
  * `shutDown_safe` is the result on whole runs.
-/
import Empool.Single.Threads

namespace Empool

open Lts Heap

namespace SingleThreadPool

variable {s t : SingleThreadPool} {a : Act} {c : ℕ} {now : Bool} {task : PriorityTask}

/-! ## What a step can do -/

/-- The worker is about to look at the queue. -/
def WorkerPc.looks : WorkerPc → Prop
  | .getTask | .wait _ => True
  | _ => False

/-- The worker has left the loop of its work function, and executes or has executed its finish
    action. -/
def WorkerPc.left : WorkerPc → Prop
  | .setShutDown | .notify | .notifyFinished | .ended => True
  | _ => False

/-- The worker has executed `SetState(SHUTDOWN)`. -/
def WorkerPc.stopped : WorkerPc → Prop
  | .notify | .notifyFinished | .ended => True
  | _ => False

theorem WorkerPc.stopped.left {pc : WorkerPc} (h : pc.stopped) : pc.left := by
  cases pc with
  | notify | notifyFinished | ended => trivial
  | start | check | getTask | wait | dispatch | running | setShutDown | escaped => cases h

theorem WorkerPc.looks.not_left {pc : WorkerPc} (h : pc.looks) : ¬ pc.left := by
  cases pc with
  | getTask | wait => exact id
  | start | check | dispatch | running | setShutDown | notify | notifyFinished | ended | escaped => cases h

theorem WorkerPc.looks.ne_dispatch {pc : WorkerPc} (h : pc.looks) : pc ≠ .dispatch task := by
  rintro rfl
  exact h

/-- `Trans s a t`: the action `a` leads from `s` to `t`. -/
inductive Trans (s : SingleThreadPool) : Act → SingleThreadPool → Prop
  | construct (hst : s.state = .init) : Trans s .construct { s with state := .running }
  | leave (hw : s.worker = .start ∨ s.worker = .check) (hcl : s.isRequestClose = true) :
      Trans s .worker (s.workerAt .setShutDown)
  | start (hw : s.worker = .start) (hcl : s.isRequestClose = false) : Trans s .worker (s.workerAt .check)
  | check (hw : s.worker = .check) (hcl : s.isRequestClose = false) : Trans s .worker (s.workerAt .getTask)
  | take (hw : s.worker.looks) {task : PriorityTask} {queues : TaskQueues}
      (hq : s.queues.getTask = some (task, queues)) :
      Trans s .worker { s with worker := .dispatch task, queues := queues }
  | block (hw : s.worker.looks) (hq : s.queues.getTask = none) : Trans s .worker (s.workerAt (.wait false))
  | stop (hw : s.worker = .dispatch .endTask) : Trans s .worker (s.workerAt .setShutDown)
  | run {id : ℕ} {priority : ℤ} (hw : s.worker = .dispatch (.functor id priority)) :
      Trans s .worker { s.workerAt (.running (.functor id priority)) with started := s.started + 1 }
  | runReturn {task : PriorityTask} (hw : s.worker = .running task) : Trans s .worker (s.workerAt .check)
  | setShutDown (hw : s.worker = .setShutDown) :
      Trans s .worker { s.workerAt .notify with state := .shutDown }
  | notifyFinished (hw : s.worker = .notifyFinished) : Trans s .worker (s.workerAt .ended)
  | signal {c : ℕ} (hw : s.worker = .notify) (hc : s.stateCond = [] ∨ c ∈ s.stateCond) :
      Trans s (.signal c) { s.workerAt .notifyFinished with
        stateCond := if s.isRequestShutDown then s.stateCond.erase c else s.stateCond }
  | throw {task : PriorityTask} (hw : s.worker = .running task) : Trans s .throw (s.workerAt .escaped)
  | addTask {c id : ℕ} {priority : ℤ} (hc : s.callers c = .idle) (hst : s.state ≠ .init) :
      Trans s (.addTask c id priority) (s.callerAt c (.load (.functor id priority)))
  | shutDown {c : ℕ} {now : Bool} (hc : s.callers c = .idle) (hst : s.state ≠ .init) :
      Trans s (.shutDown c now) (s.callerAt c (.cas now))
  | refuse {c : ℕ} {spurious : Bool} {task : PriorityTask} (hc : s.callers c = .load task)
      (hf : s.isRequestShutDown = true) : Trans s (.caller c spurious) (s.callerAt c .idle)
  | accept {c : ℕ} {spurious : Bool} {task : PriorityTask} (hc : s.callers c = .load task)
      (hf : s.isRequestShutDown = false) : Trans s (.caller c spurious) (s.callerAt c (.push task))
  | push {c : ℕ} {spurious : Bool} {task : PriorityTask} (hc : s.callers c = .push task) :
      Trans s (.caller c spurious) ((s.pushTask task).callerAt c .idle)
  | lose {c : ℕ} {spurious now : Bool} (hc : s.callers c = .cas now)
      (hf : s.isRequestShutDown = true ∨ spurious = true) :
      Trans s (.caller c spurious) (s.afterShutDown c now)
  | win {c : ℕ} {now : Bool} (hc : s.callers c = .cas now) (hf : s.isRequestShutDown = false) :
      Trans s (.caller c false)
        { s.callerAt c (.closing now) with isRequestShutDown := true, closer := .setStop }
  | resume {c : ℕ} {spurious now : Bool} (hc : s.callers c = .closing now) (hcl : s.closer = .returned) :
      Trans s (.caller c spurious) (s.afterShutDown c now)
  | released {c : ℕ} {spurious : Bool} (hc : s.callers c = .testState ∨ s.callers c = .waiting)
      (hst : s.state = .shutDown) :
      Trans s (.caller c spurious) { s.callerAt c .idle with stateCond := s.stateCond.erase c }
  | wait {c : ℕ} {spurious : Bool} (hc : s.callers c = .testState ∨ s.callers c = .waiting)
      (hst : s.state ≠ .shutDown) :
      Trans s (.caller c spurious) { s.callerAt c .waiting with stateCond := c :: s.stateCond.erase c }
  | setStop {spurious : Bool} (hcl : s.closer = .setStop) :
      Trans s (.closer spurious) { s with state := .stop, closer := .asyncClose }
  | asyncClose {spurious : Bool} (hcl : s.closer = .asyncClose) :
      Trans s (.closer spurious)
        { s with isRequestClose := s.isRequestClose || !spurious, closer := .pushEnd }
  | pushEnd {spurious : Bool} (hcl : s.closer = .pushEnd) :
      Trans s (.closer spurious) { s.pushTask .endTask with closer := .returned }

theorem trans_checkFunc {pc : WorkerPc} (hw : s.worker = .start ∨ s.worker = .check)
    (h : s.isRequestClose = false → Trans s .worker (s.workerAt pc)) : Trans s .worker (s.checkFunc pc) := by
  unfold checkFunc
  split_ifs with hcl
  · exact .leave hw hcl
  · exact h (Bool.eq_false_iff.2 hcl)

theorem trans_getTask (hw : s.worker.looks) : Trans s .worker s.getTask := by
  unfold getTask
  cases hq : s.queues.getTask with
  | none => exact .block hw hq
  | some r => exact .take hw hq

theorem trans_worker (h : s.workerStep = some t) : Trans s .worker t := by
  unfold workerStep at h
  cases hw : s.worker with
  | start =>
    simp only [hw, Option.some.injEq] at h
    exact h ▸ trans_checkFunc (.inl hw) (.start hw)
  | check =>
    simp only [hw, Option.some.injEq] at h
    exact h ▸ trans_checkFunc (.inr hw) (.check hw)
  | getTask =>
    simp only [hw, Option.some.injEq] at h
    exact h ▸ trans_getTask (hw ▸ trivial)
  | wait n =>
    simp only [hw, Option.some.injEq] at h
    exact h ▸ trans_getTask (hw ▸ trivial)
  | dispatch task =>
    cases task with
    | endTask =>
      simp only [hw, Option.some.injEq] at h
      exact h ▸ .stop hw
    | functor id priority =>
      simp only [hw, Option.some.injEq] at h
      exact h ▸ .run hw
  | running task =>
    simp only [hw, Option.some.injEq] at h
    exact h ▸ .runReturn hw
  | setShutDown =>
    simp only [hw, Option.some.injEq] at h
    exact h ▸ .setShutDown hw
  | notifyFinished =>
    simp only [hw, Option.some.injEq] at h
    exact h ▸ .notifyFinished hw
  | notify | ended | escaped => simp [hw] at h

theorem trans_caller {spurious : Bool} (h : s.callerStep c spurious = some t) :
    Trans s (.caller c spurious) t := by
  have hwait : s.callers c = .testState ∨ s.callers c = .waiting → s.waitState c = t →
      Trans s (.caller c spurious) t := by
    rintro hc rfl
    unfold waitState
    split_ifs with hst
    · exact .released hc hst
    · exact .wait hc hst
  unfold callerStep at h
  cases hc : s.callers c with
  | idle => simp [hc] at h
  | load task =>
    simp only [hc] at h
    split_ifs at h with hf
    · exact Option.some.inj h ▸ .refuse hc hf
    · exact Option.some.inj h ▸ .accept hc (Bool.eq_false_iff.2 hf)
  | push task =>
    simp only [hc, Option.some.injEq] at h
    exact h ▸ .push hc
  | cas now =>
    simp only [hc] at h
    split_ifs at h with hf
    · exact Option.some.inj h ▸ .lose hc (by simpa using hf)
    · simp only [Bool.or_eq_true, not_or, Bool.not_eq_true] at hf
      obtain ⟨hf, rfl⟩ := hf
      exact Option.some.inj h ▸ .win hc hf
  | closing now =>
    simp only [hc] at h
    split_ifs at h with hcl
    exact Option.some.inj h ▸ .resume hc hcl
  | testState =>
    simp only [hc, Option.some.injEq] at h
    exact hwait (.inl hc) h
  | waiting =>
    simp only [hc, Option.some.injEq] at h
    exact hwait (.inr hc) h

theorem trans_closer {spurious : Bool} (h : s.closerStep spurious = some t) :
    Trans s (.closer spurious) t := by
  unfold closerStep at h
  cases hcl : s.closer with
  | setStop =>
    simp only [hcl, Option.some.injEq] at h
    exact h ▸ .setStop hcl
  | asyncClose =>
    simp only [hcl, Option.some.injEq] at h
    exact h ▸ .asyncClose hcl
  | pushEnd =>
    simp only [hcl, Option.some.injEq] at h
    exact h ▸ .pushEnd hcl
  | idle | returned => simp [hcl] at h

theorem trans_of_step (h : step s a = some t) : Trans s a t := by
  cases a with
  | construct =>
    simp only [step] at h
    split_ifs at h with hst
    exact Option.some.inj h ▸ .construct hst
  | worker => exact trans_worker h
  | signal c =>
    simp only [step, signalStep] at h
    by_cases hw : s.worker = .notify ∧ (s.stateCond = [] ∨ c ∈ s.stateCond)
    · rw [if_pos hw] at h
      exact Option.some.inj h ▸ .signal hw.1 hw.2
    · rw [if_neg hw] at h
      cases h
  | throw =>
    simp only [step] at h
    split at h
    next task hw => exact Option.some.inj h ▸ .throw hw
    next => cases h
  | addTask c id priority =>
    simp only [step, call] at h
    split_ifs at h with hc
    exact Option.some.inj h ▸ .addTask hc.1 hc.2
  | shutDown c now =>
    simp only [step, call] at h
    split_ifs at h with hc
    exact Option.some.inj h ▸ .shutDown hc.1 hc.2
  | caller c spurious => exact trans_caller h
  | closer spurious => exact trans_closer h

/-! ## The invariant -/

/-- `SetState(STOP)` is done. -/
def CloserPc.stopped : CloserPc → Prop
  | .asyncClose | .pushEnd | .returned => True
  | _ => False

/-- `AsyncClose()` is done. -/
def CloserPc.closed : CloserPc → Prop
  | .pushEnd | .returned => True
  | _ => False

/-- The tasks of the callers are no end tasks. -/
def CallerPc.user : CallerPc → Prop
  | .load task | .push task => task ≠ .endTask
  | _ => True

/-- What the body of `ShutDown` has done so far, and what the worker may have seen of it. -/
structure Sound (s : SingleThreadPool) : Prop where
  constructed : ∀ c, s.callers c ≠ .idle → s.state ≠ .init
  user : ∀ c, (s.callers c).user
  flag : s.isRequestShutDown = false ↔ s.closer = .idle
  begun : s.closer ≠ .idle → s.state ≠ .init
  stop : s.closer.stopped ↔ s.state = .stop ∨ s.state = .shutDown
  close : s.isRequestClose = true → s.closer.closed
  marker : .endTask ∈ s.queues.tasks ∨ s.worker = .dispatch .endTask → s.closer = .returned
  left : s.worker.left → s.closer.closed
  stopped : s.state = .shutDown → s.worker.stopped
  waiting : s.worker = .wait false → s.queues.tasks = []

theorem Sound.create (mode : RunMode) : (create mode).Sound where
  constructed c hc := absurd rfl hc
  user c := trivial
  flag := ⟨fun _ => rfl, fun _ => rfl⟩
  begun hc := absurd rfl hc
  stop := ⟨False.elim, by rintro (h | h) <;> cases h⟩
  close h := by cases h
  marker h := by
    rcases h with h | h
    · rw [show (SingleThreadPool.create mode).queues.tasks = [] from TaskQueues.tasks_create mode] at h
      cases h
    · cases h
  left := False.elim
  stopped h := by cases h
  waiting h := by cases h

/-- A call of `PushTask` may signal the worker. -/
theorem pushTask_worker : (s.pushTask task).worker = s.worker ∨
    (s.worker = .wait false ∧ (s.pushTask task).worker = .wait true) := by
  by_cases hw : s.queues.empty ∧ s.worker = .wait false
  · exact .inr ⟨hw.2, if_pos hw⟩
  · exact .inl (if_neg hw)

/-- Signalling changes nothing that does not depend on the wait of the worker. -/
theorem pushTask_worker_iff {p : WorkerPc → Prop} (hp : p (.wait true) ↔ p (.wait false)) :
    p (s.pushTask task).worker ↔ p s.worker := by
  rcases @pushTask_worker s task with heq | ⟨hw, heq⟩
  · rw [heq]
  · rw [heq, hw, hp]

theorem Sound.pushTask_worker (h : s.Sound) : (s.pushTask task).worker ≠ .wait false := by
  intro heq
  by_cases hw : s.worker = .wait false
  · have hempty : s.queues.empty = true := TaskQueues.empty_iff.2 (h.waiting hw)
    rw [show (s.pushTask task).worker = .wait true from if_pos ⟨hempty, hw⟩] at heq
    cases heq
  · rcases @SingleThreadPool.pushTask_worker s task with heq' | ⟨hw', -⟩
    · exact hw (heq' ▸ heq)
    · exact hw hw'

theorem Sound.flagged (h : s.Sound) (hcl : s.closer ≠ .idle) : s.isRequestShutDown ≠ false :=
  fun hf => hcl (h.flag.1 hf)

/-! ## Each step keeps it -/

/-- The worker moves; only its program counter changes. -/
theorem Sound.workerAt (h : s.Sound) {pc : WorkerPc} (hmark : pc = .dispatch .endTask → s.closer = .returned)
    (hleft : pc.left → s.closer.closed) (hst : s.state = .shutDown → pc.stopped)
    (hwait : pc = .wait false → s.queues.tasks = []) : (s.workerAt pc).Sound :=
  { h with
    marker := fun hm => hm.elim (fun hm => h.marker (.inl hm)) hmark
    left := hleft
    stopped := hst
    waiting := hwait }

/-- A caller moves; only its program counter changes. -/
theorem Sound.callerAt (h : s.Sound) {pc : CallerPc} (hst : s.state ≠ .init) (hpc : pc.user) :
    (s.callerAt c pc).Sound := by
  refine { h with constructed := fun _ _ => hst, user := fun d => ?_ }
  exact update_of (P := CallerPc.user) (fun _ => hpc) fun _ => h.user d

/-- `PushTask` of a task that is no end task, or at the end of the body of `ShutDown`. -/
theorem Sound.pushTask (h : s.Sound) (htask : task = .endTask → s.closer = .returned) :
    (s.pushTask task).Sound where
  constructed := h.constructed
  user := h.user
  flag := h.flag
  begun := h.begun
  stop := h.stop
  close := h.close
  marker hm := by
    rcases hm with hm | hm
    · rcases TaskQueues.mem_pushTask.1 hm with hm | hm
      · exact htask hm.symm
      · exact h.marker (.inl hm)
    · exact h.marker (.inr ((pushTask_worker_iff (p := fun pc => pc = .dispatch .endTask) (by simp)).1 hm))
  left hl := h.left ((pushTask_worker_iff (p := WorkerPc.left) Iff.rfl).1 hl)
  stopped hst := (pushTask_worker_iff (p := WorkerPc.stopped) Iff.rfl).2 (h.stopped hst)
  waiting hw := absurd hw h.pushTask_worker

/-- The constructor of the pool ends. -/
theorem Sound.construct (h : s.Sound) (hst : s.state = .init) : Sound { s with state := .running } := by
  have hidle : s.closer = .idle := by
    by_contra hc
    exact h.begun hc hst
  refine { h with constructed := fun _ _ hc => (by cases hc), begun := fun _ hc => (by cases hc)
                  stop := ?_, stopped := fun hc => (by cases hc) }
  rw [hidle]
  exact ⟨False.elim, by rintro (hc | hc) <;> cases hc⟩

/-- The worker takes a task out of the queue. -/
theorem Sound.take (h : s.Sound) {queues : TaskQueues} (hw : s.worker.looks)
    (hq : s.queues.getTask = some (task, queues)) : Sound { s with worker := .dispatch task, queues := queues } := by
  have hmem := fun u => TaskQueues.mem_of_getTask (u := u) hq
  refine { h with marker := fun hm => h.marker (.inl ((hmem _).2 ?_)), left := False.elim
                  stopped := fun hst => ?_, waiting := fun hc => (by cases hc) }
  · rcases hm with hm | hm
    · exact .inr hm
    · exact .inl (WorkerPc.dispatch.inj hm).symm
  · exact absurd (h.stopped hst) fun hc => hw.not_left hc.left

/-- The finish action sets the state. -/
theorem Sound.setShutDown (h : s.Sound) (hw : s.worker = .setShutDown) :
    Sound { s.workerAt .notify with state := .shutDown } := by
  have hcl : s.closer.closed := h.left (hw ▸ trivial)
  have hpost : s.closer.stopped := by
    cases hc : s.closer <;> rw [hc] at hcl <;> trivial
  exact { h with
    constructed := fun _ _ hc => (by cases hc)
    begun := fun _ hc => (by cases hc)
    stop := ⟨fun _ => .inr rfl, fun _ => hpost⟩
    marker := fun hm => hm.elim (fun hm => h.marker (.inl hm)) fun hc => (by cases hc)
    left := fun _ => hcl
    stopped := fun _ => trivial
    waiting := fun hc => (by cases hc) }

/-- A caller gets into the body of `ShutDown`. -/
theorem Sound.win (h : s.Sound) {now : Bool} (hc : s.callers c = .cas now) (hf : s.isRequestShutDown = false) :
    Sound { s.callerAt c (.closing now) with isRequestShutDown := true, closer := .setStop } := by
  have hst := h.constructed c (by simp [hc])
  have hidle := h.flag.1 hf
  have hno := h.stop
  rw [hidle] at hno
  have hclose : ∀ {p : Prop}, s.closer.closed → p := fun hcl => by rw [hidle] at hcl; cases hcl
  have hcaller : (s.callerAt c (.closing now)).Sound := h.callerAt hst trivial
  exact { hcaller with
    flag := ⟨fun hc => (by cases hc), fun hc => (by cases hc)⟩
    begun := fun _ => hst
    stop := hno
    close := fun hcl => hclose (h.close hcl)
    marker := fun hm => (by rw [h.marker hm] at hidle; cases hidle)
    left := fun hl => hclose (h.left hl) }

/-- The body of `ShutDown` goes on to `pc`, with the state and the close flag it sets. -/
theorem Sound.closerAt (h : s.Sound) {pc : CloserPc} {st : State} {flag : Bool}
    (hold : s.closer ≠ .idle ∧ s.closer ≠ .returned) (hpc : pc ≠ .idle) (hst : st ≠ .init)
    (hstop : pc.stopped ↔ st = .stop ∨ st = .shutDown) (hclose : flag = true → pc.closed)
    (hleft : s.closer.closed → pc.closed) (hshut : st = .shutDown → s.worker.stopped) :
    Sound { s with closer := pc, state := st, isRequestClose := flag } :=
  { h with
    constructed := fun _ _ => hst
    flag := ⟨fun hf => absurd hf (h.flagged hold.1), fun hidle => absurd hidle hpc⟩
    begun := fun _ => hst
    stop := hstop
    close := hclose
    marker := fun hm => absurd (h.marker hm) hold.2
    left := fun hl => hleft (h.left hl)
    stopped := hshut }

theorem Sound.trans (h : s.Sound) (ht : Trans s a t) : t.Sound := by
  have hrun : ∀ {pc : WorkerPc}, s.worker = pc → ¬ pc.stopped → s.state ≠ .shutDown :=
    fun hw hpc hst => hpc (hw ▸ h.stopped hst)
  cases ht with
  | construct hst => exact h.construct hst
  | leave hw hcl =>
    refine h.workerAt (fun hc => by cases hc) (fun _ => h.close hcl) (fun hst => ?_) (fun hc => by cases hc)
    rcases hw with hw | hw <;> exact absurd hst (hrun hw id)
  | start hw hcl | check hw hcl | runReturn hw =>
    exact h.workerAt (fun hc => by cases hc) False.elim (fun hst => absurd hst (hrun hw id))
      (fun hc => by cases hc)
  | take hw hq => exact h.take hw hq
  | block hw hq =>
    exact h.workerAt (fun hc => by cases hc) False.elim
      (fun hst => absurd hst (hrun rfl fun hc => hw.not_left hc.left))
      fun _ => TaskQueues.getTask_eq_none.1 hq
  | stop hw =>
    have hret := h.marker (.inr hw)
    exact h.workerAt (fun hc => by cases hc) (fun _ => hret ▸ trivial)
      (fun hst => absurd hst (hrun hw id)) (fun hc => by cases hc)
  | @run id priority hw =>
    have hrunning : (s.workerAt (.running (.functor id priority))).Sound :=
      h.workerAt (fun hc => by cases hc) False.elim (fun hst => absurd hst (hrun hw fun hc => hc))
        (fun hc => by cases hc)
    exact { hrunning with }
  | setShutDown hw => exact h.setShutDown hw
  | notifyFinished hw =>
    exact h.workerAt (fun hc => by cases hc) (fun _ => h.left (hw ▸ trivial)) (fun _ => trivial)
      (fun hc => by cases hc)
  | signal hw hc =>
    have hdone : (s.workerAt .notifyFinished).Sound :=
      h.workerAt (fun hc => by cases hc) (fun _ => h.left (hw ▸ trivial)) (fun _ => trivial)
        (fun hc => by cases hc)
    exact { hdone with }
  | throw hw =>
    exact h.workerAt (fun hc => by cases hc) False.elim (fun hst => absurd hst (hrun hw id))
      (fun hc => by cases hc)
  | addTask hc hst => exact h.callerAt hst fun heq => by cases heq
  | shutDown hc hst => exact h.callerAt hst trivial
  | @refuse c spurious task hc hf => exact h.callerAt (h.constructed c (by simp [hc])) trivial
  | @accept c spurious task hc hf =>
    have huser := h.user c
    rw [hc] at huser
    exact h.callerAt (h.constructed c (by simp [hc])) huser
  | @push c spurious task hc =>
    have huser := h.user c
    rw [hc] at huser
    exact (h.pushTask fun heq => absurd heq huser).callerAt (h.constructed c (by simp [hc])) trivial
  | @lose c spurious now hc hf =>
    refine h.callerAt (h.constructed c (by simp [hc])) ?_
    cases now <;> trivial
  | win hc hf => exact h.win hc hf
  | @resume c spurious now hc hcl =>
    refine h.callerAt (h.constructed c (by simp [hc])) ?_
    cases now <;> trivial
  | @released c spurious hc hst =>
    have hcaller : (s.callerAt c .idle).Sound := h.callerAt (by simp [hst]) trivial
    exact { hcaller with }
  | @wait c spurious hc hst =>
    have hne : s.callers c ≠ .idle := by rcases hc with hc | hc <;> simp [hc]
    have hcaller : (s.callerAt c .waiting).Sound := h.callerAt (h.constructed c hne) trivial
    exact { hcaller with }
  | setStop hcl =>
    have hclosed : ¬ s.closer.closed := by
      rw [hcl]
      exact not_false
    refine h.closerAt (by simp [hcl]) (fun hc => by cases hc) (fun hc => by cases hc) ?_
      (fun hc => absurd (h.close hc) hclosed) (fun hc => absurd hc hclosed) fun hc => by cases hc
    exact ⟨fun _ => .inl rfl, fun _ => trivial⟩
  | asyncClose hcl =>
    have hst : s.state = .stop ∨ s.state = .shutDown := h.stop.1 (hcl ▸ trivial)
    exact h.closerAt (by simp [hcl]) (fun hc => by cases hc) (h.begun (by simp [hcl]))
      ⟨fun _ => hst, fun _ => trivial⟩ (fun _ => trivial) (fun _ => trivial) h.stopped
  | pushEnd hcl =>
    have hst : s.state = .stop ∨ s.state = .shutDown := h.stop.1 (hcl ▸ trivial)
    have hret : Sound { s with closer := .returned } :=
      h.closerAt (by simp [hcl]) (fun hc => by cases hc) (h.begun (by simp [hcl]))
        ⟨fun _ => hst, fun _ => trivial⟩ (fun _ => trivial) (fun _ => trivial) h.stopped
    exact hret.pushTask fun _ => rfl

theorem sound_preserved : Preserved step Free Sound := fun _ _ _ h _ hs => h.trans (trans_of_step hs)

/-! ## The worker after `ShutDown` -/

/-- What holds besides if no task throws and no `compare_exchange_weak` fails spuriously. -/
structure Armed (s : SingleThreadPool) : Prop where
  closed : s.closer.closed → s.isRequestClose = true
  alive : s.worker ≠ .escaped
  pending : s.closer = .returned →
    s.worker.left ∨ s.worker = .dispatch .endTask ∨ .endTask ∈ s.queues.tasks

theorem Armed.pushTask (h : s.Armed) : (s.pushTask task).Armed where
  closed := h.closed
  alive := (pushTask_worker_iff (p := fun pc => pc ≠ .escaped) (by simp)).2 h.alive
  pending hret := by
    rcases h.pending hret with hl | hd | hm
    · exact .inl ((pushTask_worker_iff (p := WorkerPc.left) Iff.rfl).2 hl)
    · exact .inr (.inl ((pushTask_worker_iff (p := fun pc => pc = .dispatch .endTask) (by simp)).2 hd))
    · exact .inr (.inr (TaskQueues.mem_pushTask.2 (.inr hm)))

theorem Armed.trans (h : s.Armed) (ha : Regular s a) (ht : Trans s a t) : t.Armed := by
  -- while the worker is in its loop, the end task is in the queue
  have hloop : ∀ {pc : WorkerPc}, s.worker = pc → ¬ pc.left → pc ≠ .dispatch .endTask →
      s.closer = .returned → .endTask ∈ s.queues.tasks := by
    intro pc hw hpc hne hret
    rcases h.pending hret with hl | hd | hm
    · exact absurd (hw ▸ hl) hpc
    · exact absurd (hw ▸ hd) hne
    · exact hm
  cases ht with
  | construct _ | addTask _ _ | shutDown _ _ | refuse _ _ | accept _ _ | lose _ _ | resume _ _
    | released _ _ | wait _ _ => exact ⟨h.closed, h.alive, h.pending⟩
  | leave hw hcl => exact ⟨h.closed, fun hc => (by cases hc), fun _ => .inl trivial⟩
  | start hw hcl | check hw hcl | runReturn hw =>
    exact ⟨h.closed, fun hc => (by cases hc),
      fun hret => .inr (.inr (hloop hw id (fun hc => by cases hc) hret))⟩
  | take hw hq =>
    refine ⟨h.closed, fun hc => (by cases hc), fun hret => ?_⟩
    have hm := hloop rfl hw.not_left hw.ne_dispatch hret
    rcases (TaskQueues.mem_of_getTask hq).1 hm with heq | hm
    · exact .inr (.inl (heq ▸ rfl))
    · exact .inr (.inr hm)
  | block hw hq =>
    refine ⟨h.closed, fun hc => (by cases hc), fun hret => ?_⟩
    have hm := hloop rfl hw.not_left hw.ne_dispatch hret
    rw [TaskQueues.getTask_eq_none.1 hq] at hm
    cases hm
  | stop hw => exact ⟨h.closed, fun hc => (by cases hc), fun _ => .inl trivial⟩
  | run hw =>
    exact ⟨h.closed, fun hc => (by cases hc),
      fun hret => .inr (.inr (hloop hw id (fun hc => by cases hc) hret))⟩
  | setShutDown hw | notifyFinished hw | signal hw hc =>
    exact ⟨h.closed, fun hc => (by cases hc), fun _ => .inl trivial⟩
  | throw hw => exact absurd ha id
  | @push c spurious task hc =>
    have hpush : (s.pushTask task).Armed := h.pushTask
    exact ⟨hpush.closed, hpush.alive, hpush.pending⟩
  | win hc hf => exact ⟨False.elim, h.alive, fun hret => by cases hret⟩
  | setStop hcl => exact ⟨False.elim, h.alive, fun hret => by cases hret⟩
  | @asyncClose spurious hcl =>
    cases spurious with
    | true => exact absurd ha id
    | false => exact ⟨fun _ => Bool.or_true _, h.alive, fun hret => by cases hret⟩
  | pushEnd hcl =>
    have hpush : (s.pushTask .endTask).Armed := h.pushTask
    exact ⟨fun _ => h.closed (hcl ▸ trivial), hpush.alive,
      fun _ => .inr (.inr (TaskQueues.mem_pushTask.2 (.inl rfl)))⟩

/-- The tasks the worker may still start. -/
def WorkerPc.allowance : WorkerPc → ℕ
  | .getTask | .wait _ | .dispatch (.functor _ _) => 1
  | _ => 0

theorem WorkerPc.allowance_le (pc : WorkerPc) : pc.allowance ≤ 1 := by
  unfold allowance
  split <;> decide

theorem WorkerPc.looks.allowance {pc : WorkerPc} (h : pc.looks) : pc.allowance = 1 := by
  cases pc with
  | getTask | wait => rfl
  | start | check | dispatch | running | setShutDown | notify | notifyFinished | ended | escaped => cases h

theorem pushTask_allowance : (s.pushTask task).worker.allowance = s.worker.allowance := by
  rcases @pushTask_worker s task with heq | ⟨hw, heq⟩
  · rw [heq]
  · rw [heq, hw]
    rfl

/-- The body of `ShutDown` is done. -/
structure Closed (s : SingleThreadPool) : Prop where
  sound : s.Sound
  armed : s.Armed
  returned : s.closer = .returned

theorem Closed.trans (h : s.Closed) (ha : Regular s a) (ht : Trans s a t) :
    t.Closed ∧ t.started + t.worker.allowance ≤ s.started + s.worker.allowance := by
  have hclosed : s.isRequestClose = true := h.armed.closed (h.returned ▸ trivial)
  have hret : t.closer = .returned := by
    cases ht with
    | win hc hf => exact absurd (h.sound.flag.1 hf) (by simp [h.returned])
    | setStop hcl | asyncClose hcl | pushEnd hcl => simp [h.returned] at hcl
    | _ => exact h.returned
  refine ⟨⟨h.sound.trans ht, h.armed.trans ha ht, hret⟩, ?_⟩
  cases ht with
  | start hw hcl | check hw hcl => simp [hclosed] at hcl
  | leave hw hcl =>
    exact Nat.add_le_add_left (Nat.zero_le _) _
  | @take hw task queues hq =>
    rw [hw.allowance]
    exact Nat.add_le_add_left (WorkerPc.allowance_le _) _
  | block hw hq =>
    rw [hw.allowance]
    exact Nat.le_refl _
  | run hw =>
    rw [hw]
    exact Nat.le_refl _
  | stop hw | runReturn hw | setShutDown hw | notifyFinished hw | signal hw hc | throw hw =>
    exact Nat.add_le_add_left (Nat.zero_le _) _
  | @push c spurious task hc =>
    exact Nat.add_le_add_left (Nat.le_of_eq (@pushTask_allowance s task)) _
  | win hc hf => exact Nat.le_refl _
  | setStop hcl | asyncClose hcl | pushEnd hcl => simp [h.returned] at hcl
  | _ => exact Nat.le_refl _

theorem Sound.shutDown_trans (h : s.Sound) (hst : s.state = .shutDown) (ht : Trans s a t) :
    t.state = .shutDown ∧ t.started = s.started := by
  have hstop := h.stopped hst
  cases ht with
  | construct hc => simp [hst] at hc
  | setStop hcl =>
    have := h.stop.2 (.inr hst)
    rw [hcl] at this
    cases this
  | run hw =>
    rw [hw] at hstop
    cases hstop
  | setShutDown hw => exact ⟨rfl, rfl⟩
  | _ => exact ⟨hst, rfl⟩

/-- The order of the states. -/
def State.Next : State → State → Prop
  | .init, .running | .running, .stop | .stop, .shutDown => True
  | _, _ => False

theorem Sound.state_next (h : s.Sound) (ht : Trans s a t) : t.state = s.state ∨ s.state.Next t.state := by
  cases ht with
  | construct hst => exact .inr (by rw [hst]; trivial)
  | setShutDown hw =>
    have hcl := h.left (hw ▸ trivial)
    have hpost : s.closer.stopped := by
      cases hc : s.closer <;> rw [hc] at hcl <;> trivial
    rcases h.stop.1 hpost with hst | hst
    · exact .inr (by rw [hst]; trivial)
    · exact .inl hst.symm
  | setStop hcl =>
    have hne := h.begun (by simp [hcl])
    have hno := mt h.stop.2 (by rw [hcl]; exact id)
    cases hst : s.state with
    | init => exact absurd hst hne
    | running => exact .inr trivial
    | stop => exact absurd (.inl hst) hno
    | shutDown => exact absurd (.inr hst) hno
  | _ => exact .inl rfl

/-! ## Runs -/

theorem armed_preserved : Preserved step Regular Armed :=
  fun _ _ _ h ha hst => h.trans ha (trans_of_step hst)

theorem closed_preserved : Preserved step Regular Closed :=
  fun _ _ _ h ha hst => (h.trans ha (trans_of_step hst)).1

theorem shutDown_safe {mode : RunMode} {as : List Act} (h : Run step Regular (create mode) as s) :
    (∀ a t, Regular s a → step s a = some t → t.state = s.state ∨ s.state.Next t.state) ∧
    (s.closer = .returned → ∀ bs t, Run step Regular s bs t →
      t.worker ≠ .wait false ∧ t.started ≤ s.started + 1) ∧
    (s.state = .shutDown → ∀ bs t, Run step Regular s bs t →
      t.state = .shutDown ∧ t.worker.left ∧ t.started = s.started) := by
  have hpres : Preserved step Regular Sound := sound_preserved.imp fun _ _ _ => trivial
  have hsound : s.Sound := h.invariant hpres (.create mode)
  have harmed : s.Armed := h.invariant armed_preserved
    ⟨False.elim, fun hc => (by cases hc), fun hc => (by cases hc)⟩
  refine ⟨fun a t _ hst => hsound.state_next (trans_of_step hst), ?_, ?_⟩
  · intro hret bs t hrun
    have hclosed : s.Closed := ⟨hsound, harmed, hret⟩
    have ht := hrun.invariant closed_preserved hclosed
    have hle := hrun.le_of_steps closed_preserved (f := fun s => s.started + s.worker.allowance)
      (fun _ _ _ hc ha hst => (hc.trans ha (trans_of_step hst)).2) hclosed
    refine ⟨fun hw => ?_, ?_⟩
    · have hempty := ht.sound.waiting hw
      rcases ht.armed.pending ht.returned with hl | hd | hm
      · rw [hw] at hl; exact hl
      · rw [hw] at hd; cases hd
      · rw [hempty] at hm; cases hm
    · have hone := s.worker.allowance_le
      omega
  · intro hst bs t hrun
    have hinv := hrun.invariant (I := fun t => t.Sound ∧ t.state = .shutDown ∧ t.started = s.started)
      (fun u a v hu ha hstep => by
        have htr := trans_of_step hstep
        obtain ⟨hv, heq⟩ := hu.1.shutDown_trans hu.2.1 htr
        exact ⟨hu.1.trans htr, hv, heq.trans hu.2.2⟩) ⟨hsound, hst, rfl⟩
    exact ⟨hinv.2.1, (hinv.1.stopped hinv.2.1).left, hinv.2.2⟩

/-- The worker waits in `GetTask` when a task and, behind it, the end task arrive. -/
theorem shutDown_safe_waiting : ∃ s, Run step Regular (create .priority)
    [.construct, .worker, .worker, .worker, .addTask 0 7 (-1), .caller 0 false, .caller 0 false,
      .shutDown 1 true, .caller 1 false, .closer false, .closer false, .closer false, .caller 1 false,
      .caller 1 false, .worker] s ∧
    s.worker = .dispatch (.functor 7 (-1)) ∧ ∀ bs t, Run step Regular s bs t → t.started ≤ 1 := by
  refine exists_run (I := fun s => s.worker = .dispatch (.functor 7 (-1)) ∧ s.closer = .returned ∧ s.started = 0)
    (by decide +kernel) fun s hrun ⟨hw, hcl, hnone⟩ => ⟨hw, fun bs t hrun' => ?_⟩
  have hle := ((shutDown_safe hrun).2.1 hcl bs t hrun').2
  omega

end SingleThreadPool

end Empool
