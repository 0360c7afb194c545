/-
  The task queue of a `SingleThreadPool`, one producer that adds tasks to it,
  and the worker that takes them out.

  The queue is a `std::priority_queue` over an array, once with
  `CompareFuncGreater` (modes `FIFO` and `PRIORITY`) and once with
  `CompareFuncLesser` (mode `LIFO`).  `AddTask(f)` gives a task the reading of
  `timeInSeconds()` as its priority.  Each of `DoAddTask` and `GetTask` does
  its work under `m_mutexCond`, so each is one step.

  Fields called history variables are read by no step of the code.
-/
import Empool.Lib.Heap
import Empool.Lib.Run
import Mathlib.Data.Int.Notation
import Mathlib.Data.List.Nodup
import Mathlib.Data.Int.Order.Basic

namespace Empool

open Heap Lts

/-- `enum RunMode` -/
inductive RunMode where
  | fifo | lifo | priority
deriving DecidableEq, Repr

/-- A `PriorityTask`: a `PriorityFunctorTask`, known by its address, or an `EndPriorityTask`. -/
inductive PriorityTask where
  | functor (id : ℕ) (priority : ℤ)
  | endTask
deriving DecidableEq, Repr

/-- `GetPriorityValue`; the constructor of `PriorityTask` sets `0`. -/
def PriorityTask.getPriorityValue : PriorityTask → ℤ
  | functor _ priority => priority
  | endTask => 0

/-- `SingleThreadPool::CompareFuncGreater` -/
def compareFuncGreater (left right : PriorityTask) : Bool :=
  decide (left.getPriorityValue > right.getPriorityValue)

/-- `SingleThreadPool::CompareFuncLesser` -/
def compareFuncLesser (left right : PriorityTask) : Bool :=
  !compareFuncGreater left right

/-- The comparison of the queue that a mode selects. -/
def RunMode.comp (mode : RunMode) : PriorityTask → PriorityTask → Bool :=
  if mode = .lifo then compareFuncLesser else compareFuncGreater

/-- The mode and the two queues of a `SingleThreadPool`. -/
structure TaskQueues where
  runMode : RunMode
  taskQueueGreater : List PriorityTask
  taskQueueLesser : List PriorityTask
deriving DecidableEq, Repr

namespace TaskQueues

/-- The queues of a new pool. -/
def create (mode : RunMode) : TaskQueues where
  runMode := mode
  taskQueueGreater := []
  taskQueueLesser := []

/-- `PushTask` -/
def pushTask (q : TaskQueues) (task : PriorityTask) : TaskQueues :=
  if q.runMode = .lifo then
    { q with taskQueueLesser := push compareFuncLesser q.taskQueueLesser task }
  else { q with taskQueueGreater := push compareFuncGreater q.taskQueueGreater task }

/-- `Empty` -/
def empty (q : TaskQueues) : Bool :=
  if q.runMode = .lifo then q.taskQueueLesser.isEmpty else q.taskQueueGreater.isEmpty

/-- `GetTask`, which waits while the queue is empty. -/
def getTask (q : TaskQueues) : Option (PriorityTask × TaskQueues) :=
  if q.empty then none
  else if q.runMode = .lifo then
    (top q.taskQueueLesser).map fun task =>
      (task, { q with taskQueueLesser := pop compareFuncLesser q.taskQueueLesser })
  else
    (top q.taskQueueGreater).map fun task =>
      (task, { q with taskQueueGreater := pop compareFuncGreater q.taskQueueGreater })

/-- The queue that the mode selects. -/
def tasks (q : TaskQueues) : List PriorityTask :=
  if q.runMode = .lifo then q.taskQueueLesser else q.taskQueueGreater

@[simp] theorem tasks_create (mode : RunMode) : (create mode).tasks = [] := by
  unfold create tasks
  split_ifs <;> rfl

@[simp] theorem runMode_pushTask (q : TaskQueues) (task : PriorityTask) :
    (q.pushTask task).runMode = q.runMode := by
  unfold pushTask
  split_ifs <;> rfl

theorem tasks_pushTask (q : TaskQueues) (task : PriorityTask) :
    (q.pushTask task).tasks = push q.runMode.comp q.tasks task := by
  unfold pushTask tasks RunMode.comp
  split_ifs <;> rfl

/-- `GetTask` returns the front of the queue and takes it out. -/
theorem getTask_eq_some {q q' : TaskQueues} {task : PriorityTask} (h : q.getTask = some (task, q')) :
    top q.tasks = some task ∧ q'.tasks = pop q.runMode.comp q.tasks ∧ q'.runMode = q.runMode := by
  unfold getTask at h
  split_ifs at h with hempty hmode
  · obtain ⟨u, hu, heq⟩ := Option.map_eq_some_iff.1 h
    cases heq
    simp [tasks, RunMode.comp, hmode, hu]
  · obtain ⟨u, hu, heq⟩ := Option.map_eq_some_iff.1 h
    cases heq
    simp [tasks, RunMode.comp, hmode, hu]

/-- `GetTask` waits only while the queue is empty. -/
theorem getTask_of_cons {q : TaskQueues} {task : PriorityTask} {rest : List PriorityTask}
    (h : q.tasks = task :: rest) : ∃ q', q.getTask = some (task, q') := by
  unfold tasks at h
  unfold getTask empty
  split_ifs at h ⊢ with hmode <;> simp [h, top] at *

theorem getTask_eq_none {q : TaskQueues} : q.getTask = none ↔ q.tasks = [] := by
  cases hq : q.tasks with
  | nil =>
    have hempty : q.empty = true := by
      unfold tasks at hq
      unfold empty
      split_ifs at hq ⊢ <;> simp [hq]
    simp [getTask, hempty]
  | cons task rest =>
    obtain ⟨q', hget⟩ := getTask_of_cons hq
    simp [hget]

theorem empty_iff {q : TaskQueues} : q.empty = true ↔ q.tasks = [] := by
  unfold empty tasks
  split_ifs <;> exact List.isEmpty_iff

theorem mem_pushTask {q : TaskQueues} {task u : PriorityTask} :
    u ∈ (q.pushTask task).tasks ↔ u = task ∨ u ∈ q.tasks := by
  rw [tasks_pushTask, (push_perm ..).mem_iff, List.mem_cons]

/-- What `GetTask` returns was in the queue, and the rest stays there. -/
theorem mem_of_getTask {q q' : TaskQueues} {task u : PriorityTask} (h : q.getTask = some (task, q')) :
    u ∈ q.tasks ↔ u = task ∨ u ∈ q'.tasks := by
  obtain ⟨htop, hpop, -⟩ := getTask_eq_some h
  rw [hpop, ← (top_pop_perm htop).mem_iff, List.mem_cons]

end TaskQueues

/-! ## One producer and the worker -/

/-- The pool between its producer and its worker. -/
structure Exchange where
  queues : TaskQueues
  /-- `m_isRequestShutDown` -/
  isRequestShutDown : Bool
  /-- history: the tasks added, in the order of the calls -/
  added : List PriorityTask
  /-- history: what the calls of `GetTask` have returned -/
  got : List PriorityTask
deriving DecidableEq, Repr

inductive ExchangeAct where
  /-- `AddTask(f)` at the reading `priority` of the clock, or `AddTask(f, priority)` -/
  | addTask (priority : ℤ)
  /-- the worker's `GetTask` returns -/
  | getTask
deriving DecidableEq, Repr

namespace Exchange

/-- The pool after its constructor. -/
def create (mode : RunMode) : Exchange where
  queues := .create mode
  isRequestShutDown := false
  added := []
  got := []

/-- `DoAddTask`; a task is known by the number of tasks added before it. -/
def doAddTask (s : Exchange) (task : PriorityTask) : Exchange :=
  if s.isRequestShutDown then s
  else { s with queues := s.queues.pushTask task, added := s.added ++ [task] }

/-- One call of the producer or of the worker. -/
def step (s : Exchange) : ExchangeAct → Option Exchange
  | .addTask priority => some (s.doAddTask (.functor s.added.length priority))
  | .getTask => s.queues.getTask.map fun r => { s with queues := r.2, got := s.got ++ [r.1] }

end Exchange

/-- The next call of the producer reads the clock as `ks` says. -/
def Follows (ks : List ℤ) (s : Exchange) : ExchangeAct → Prop
  | .addTask k => ks[s.added.length]? = some k
  | .getTask => True

instance (ks : List ℤ) (s : Exchange) : ∀ a, Decidable (Follows ks s a)
  | .addTask k => inferInstanceAs (Decidable (ks[s.added.length]? = some k))
  | .getTask => isTrue trivial

/-- The task of the call with number `i`. -/
def taskOf (ks : List ℤ) (i : ℕ) : PriorityTask := .functor i (ks.getD i 0)

/-- The first `m` tasks. -/
def firstTasks (ks : List ℤ) (m : ℕ) : List PriorityTask := (List.range m).map (taskOf ks)

variable {ks : List ℤ} {mode : RunMode} {s t : Exchange} {a : ExchangeAct}

@[simp] theorem getPriorityValue_taskOf (ks : List ℤ) (i : ℕ) :
    (taskOf ks i).getPriorityValue = ks.getD i 0 := rfl

theorem taskOf_injective (ks : List ℤ) : Function.Injective (taskOf ks) := by
  intro i j h
  cases h
  rfl

@[simp] theorem firstTasks_length (ks : List ℤ) (m : ℕ) : (firstTasks ks m).length = m := by
  simp [firstTasks]

theorem firstTasks_succ (ks : List ℤ) (m : ℕ) : firstTasks ks (m + 1) = firstTasks ks m ++ [taskOf ks m] := by
  simp [firstTasks, List.range_succ]

theorem getD_le (hks : ks.Pairwise (· ≤ ·)) {i j : ℕ} (hij : i ≤ j) (hj : j < ks.length) :
    ks.getD i 0 ≤ ks.getD j 0 := by
  rw [getD_of_lt (by omega), getD_of_lt hj]
  rcases Nat.eq_or_lt_of_le hij with rfl | hlt
  · exact Int.le_refl _
  · exact List.pairwise_iff_getElem.1 hks i j (by omega) hj hlt

/-! ## What a step does -/

/-- What holds of the pool as long as nobody shuts it down: the tasks added are the first ones, and
    each has been got or is in the queue. -/
structure Exchange.Ok (ks : List ℤ) (mode : RunMode) (s : Exchange) : Prop where
  runMode : s.queues.runMode = mode
  running : s.isRequestShutDown = false
  called : s.added.length ≤ ks.length
  added : s.added = firstTasks ks s.added.length
  perm : (s.got ++ s.queues.tasks).Perm s.added

theorem Exchange.Ok.create (ks : List ℤ) (mode : RunMode) : (create mode).Ok ks mode where
  runMode := rfl
  running := rfl
  called := Nat.zero_le _
  added := rfl
  perm := by simp [Exchange.create]

theorem Exchange.Ok.mem_added (hok : s.Ok ks mode) {u : PriorityTask} (hu : u ∈ s.added) :
    ∃ i < s.added.length, u = taskOf ks i := by
  rw [hok.added] at hu
  obtain ⟨i, hi, rfl⟩ := List.mem_map.1 hu
  exact ⟨i, List.mem_range.1 hi, rfl⟩

/-- A step adds the next task to the queue, or takes the front out of it. -/
theorem step_cases (hok : s.Ok ks mode) (hP : Follows ks s a) (hs : s.step a = some t) :
    (∃ k, a = .addTask k ∧ s.added.length < ks.length ∧ t.added = s.added ++ [taskOf ks s.added.length] ∧ t.got = s.got ∧
      t.queues.tasks = push mode.comp s.queues.tasks (taskOf ks s.added.length)) ∨
    (∃ u, a = .getTask ∧ top s.queues.tasks = some u ∧ t.added = s.added ∧ t.got = s.got ++ [u] ∧
      t.queues.tasks = pop mode.comp s.queues.tasks) := by
  cases a with
  | addTask k =>
    left
    obtain ⟨hlt, hk⟩ := List.getElem?_eq_some_iff.1 hP
    have htask : taskOf ks s.added.length = .functor s.added.length k := by
      rw [taskOf, List.getD_eq_getElem?_getD, hP, Option.getD_some]
    cases hs
    rw [htask, ← hok.runMode, ← TaskQueues.tasks_pushTask, Exchange.doAddTask, hok.running]
    exact ⟨k, rfl, hlt, rfl, rfl, rfl⟩
  | getTask =>
    right
    obtain ⟨⟨u, q⟩, hget, rfl⟩ := Option.map_eq_some_iff.1 hs
    obtain ⟨htop, hpop, -⟩ := TaskQueues.getTask_eq_some hget
    rw [hok.runMode] at hpop
    exact ⟨u, rfl, htop, rfl, rfl, hpop⟩

theorem Exchange.Ok.step (hok : s.Ok ks mode) (hP : Follows ks s a) (hs : s.step a = some t) :
    t.Ok ks mode := by
  have hmode : t.queues.runMode = mode ∧ t.isRequestShutDown = false := by
    cases a with
    | addTask k =>
      cases hs
      simp [Exchange.doAddTask, hok.running, hok.runMode]
    | getTask =>
      obtain ⟨⟨u, q⟩, hget, rfl⟩ := Option.map_eq_some_iff.1 hs
      exact ⟨(TaskQueues.getTask_eq_some hget).2.2.trans hok.runMode, hok.running⟩
  rcases step_cases hok hP hs with ⟨-, -, hlt, hadd, hgot, hq⟩ | ⟨u, -, htop, hadd, hgot, hq⟩
  · have hlen : t.added.length = s.added.length + 1 := by rw [hadd, List.length_append, List.length_singleton]
    refine ⟨hmode.1, hmode.2, by omega, ?_, ?_⟩
    · rw [hlen, firstTasks_succ, ← hok.added, hadd]
    · rw [hadd, hgot, hq]
      refine ((push_perm ..).append_left s.got).trans ?_
      exact (List.perm_middle.trans (hok.perm.cons _)).trans (List.perm_append_singleton _ _).symm
  · refine ⟨hmode.1, hmode.2, hadd ▸ hok.called, hadd ▸ hok.added, ?_⟩
    rw [hadd, hgot, hq, List.append_assoc]
    exact ((top_pop_perm htop).append_left s.got).trans hok.perm

theorem ok_preserved (ks : List ℤ) (mode : RunMode) :
    Preserved Exchange.step (Follows ks) (Exchange.Ok ks mode) :=
  fun _ _ _ hok hP hs => hok.step hP hs

/-! ## Particular runs -/

/-- Some interleaving of the first `m` calls of `AddTask` with calls of `GetTask` leads to the queue
    `q`, the calls of `GetTask` having returned `got`. -/
def Reaches (ks : List ℤ) (mode : RunMode) (q got : List PriorityTask) (m : ℕ) : Prop :=
  ∃ as s, Run Exchange.step (Follows ks) (.create mode) as s ∧ s.queues.tasks = q ∧ s.got = got ∧
    s.added = firstTasks ks m

variable {q got : List PriorityTask} {m : ℕ} {u : PriorityTask}

theorem Reaches.start (ks : List ℤ) (mode : RunMode) : Reaches ks mode [] [] 0 :=
  ⟨[], _, .nil _, TaskQueues.tasks_create mode, rfl, rfl⟩

theorem Reaches.add (h : Reaches ks mode q got m) (hm : m < ks.length) :
    Reaches ks mode (push mode.comp q (taskOf ks m)) got (m + 1) := by
  obtain ⟨as, s, hrun, rfl, rfl, hadd⟩ := h
  have hok := hrun.invariant (ok_preserved ks mode) (.create ks mode)
  have hlen : s.added.length = m := by rw [hadd, firstTasks_length]
  have hP : Follows ks s (.addTask ks[m]) := by
    unfold Follows
    rw [hlen, List.getElem?_eq_getElem hm]
  have hrun' := hrun.append (.single hP rfl)
  rcases step_cases hok hP rfl with ⟨-, -, -, hadd', hgot, hq⟩ | ⟨u, heq, -⟩
  · refine ⟨_, _, hrun', ?_, hgot, ?_⟩
    · rw [hq, hlen]
    · rw [hadd', hlen, hadd, firstTasks_succ]
  · cases heq

/-- The worker can take the front of a queue that is not empty. -/
theorem getTask_enabled (h : top s.queues.tasks = some u) : ∃ t, s.step .getTask = some t := by
  cases hq : s.queues.tasks with
  | nil => rw [hq] at h; cases h
  | cons v rest =>
    obtain ⟨q', hget⟩ := TaskQueues.getTask_of_cons hq
    exact ⟨_, by rw [Exchange.step, hget]; rfl⟩

theorem Reaches.get (h : Reaches ks mode q got m) (hq : top q = some u) :
    Reaches ks mode (pop mode.comp q) (got ++ [u]) m := by
  obtain ⟨as, s, hrun, rfl, rfl, hadd⟩ := h
  have hok := hrun.invariant (ok_preserved ks mode) (.create ks mode)
  obtain ⟨t, hs⟩ := getTask_enabled hq
  have hP : Follows ks s .getTask := trivial
  have hrun' := hrun.append (.single hP hs)
  rcases step_cases hok hP hs with ⟨k, heq, -⟩ | ⟨v, -, htop, hadd', hgot, hpop⟩
  · cases heq
  · cases Option.some.inj (hq.symm.trans htop)
    exact ⟨_, t, hrun', hpop, hgot, hadd'.trans hadd⟩

/-- The first `j` tasks are added and got one by one. -/
theorem Reaches.each {j : ℕ} (hj : j ≤ ks.length) : Reaches ks mode [] (firstTasks ks j) j := by
  induction j with
  | zero => exact .start ks mode
  | succ j ih =>
    have h := ((ih (by omega)).add hj).get (u := taskOf ks j) (by simp [push, siftUp, top])
    rw [firstTasks_succ]
    simpa [push, siftUp, pop_singleton] using h

end Empool
