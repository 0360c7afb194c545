/-
  `AddTask` calls that one caller makes in a row, no other thread acting in
  between: they put their tasks into the queue, and leave the rest of the pool
  as it is.  So a pool can be executed with a backlog in its queue (`execWith`)
  that makes the monitor add a worker.
-/
import Empool.Scaling.Books

namespace Empool

open Lts

variable {cfg : Config} {s : Pool} {P : Pool → Act → Prop}

/-- A step of a call of `AddTask`. -/
def CallerAct.adds : CallerAct → Bool
  | .addTask _ | .load | .push | .notify => true
  | _ => false

/-- The steps of one call of `AddTask` that accepts the task. -/
def addTaskCall (c : ℕ) (t : Task) : List Act :=
  [.caller c (.addTask (some t)), .caller c .load, .caller c .push, .caller c .notify]

/-- `AddTask` of the tasks `0, …, n - 1`. -/
def addTaskCalls (c n : ℕ) : List Act := (List.range n).flatMap fun i => addTaskCall c (.user i)

/-- The pool with the tasks `0, …, n - 1` pushed. -/
def Pool.pushTasks (s : Pool) (n : ℕ) : Pool :=
  { s with
    taskQueue := s.taskQueue ++ (List.range n).map .user
    pushed := s.pushed ++ (List.range n).map .user }

/-- A state in which a call of `AddTask` by `c` is not held up and signals nobody. -/
structure Open (s : Pool) (c : ℕ) : Prop where
  flag : s.isRequestShutDown = false
  guard : s.guard = none
  idle : s.callers c = Caller.idle
  monitor : s.monitor.pc ≠ .wait

instance (s : Pool) (c : ℕ) : Decidable (Open s c) :=
  decidable_of_iff (s.isRequestShutDown = false ∧ s.guard = none ∧ s.callers c = Caller.idle ∧
    s.monitor.pc ≠ .wait) ⟨fun ⟨a, b, c, d⟩ => ⟨a, b, c, d⟩, fun ⟨a, b, c, d⟩ => ⟨a, b, c, d⟩⟩

theorem run_addTaskCall {c : ℕ} {t : Task} (hP : ∀ s a, a.adds = true → P s (.caller c a)) (h : Open s c) :
    Run (step cfg) P s (addTaskCall c t) (s.pushTask t) := by
  obtain ⟨hf, hg, hc, hm⟩ := h
  refine .cons (hP _ _ rfl) (t := callerNext cfg s c (.addTask (some t))) ?_ <|
    .cons (hP _ _ rfl) (t := { s with callers := Function.update s.callers c ⟨.push, some t, false, false⟩ }) ?_ <|
    .cons (hP _ _ rfl) (t := { s.pushTask t with
      callers := Function.update s.callers c ⟨.notify, some t, false, false⟩ }) ?_ <|
    .single (hP _ _ rfl) ?_
  · exact step_eq_some.2 ⟨⟨by rw [hc]; rfl, by simp [CallerAct.locks], trivial⟩, rfl⟩
  · refine step_eq_some.2 ⟨⟨?_, by simp [CallerAct.locks], trivial⟩, ?_⟩
    · simp [callerNext, callerAct, CallerAct.at]
    · simp [next, callerNext, callerAct, hf, Caller.idle]
  · refine step_eq_some.2 ⟨⟨by simp [CallerAct.at], by simp [CallerAct.locks], trivial⟩, ?_⟩
    simp [next, callerNext, callerAct, Pool.pushTask]
  · refine step_eq_some.2 ⟨⟨by simp [CallerAct.at], fun _ => hg, trivial⟩, ?_⟩
    simp [next, callerNext, callerAct, Pool.pushTask, Pool.notifyMonitor, hm, ← hc]

theorem open_pushTasks {c : ℕ} (h : Open s c) (n : ℕ) : Open (s.pushTasks n) c :=
  ⟨h.flag, h.guard, h.idle, h.monitor⟩

/-- Any number of tasks can be added before another thread acts. -/
theorem run_addTaskCalls {c : ℕ} (hP : ∀ s a, a.adds = true → P s (.caller c a)) (h : Open s c) :
    ∀ n, Run (step cfg) P s (addTaskCalls c n) (s.pushTasks n)
  | 0 => by
    have : s.pushTasks 0 = s := by simp [Pool.pushTasks]
    rw [this]
    exact .nil s
  | n + 1 => by
    have hn := run_addTaskCalls hP h n
    have h1 := @run_addTaskCall cfg _ P c (.user n) hP (open_pushTasks h n)
    have hacts : addTaskCalls c (n + 1) = addTaskCalls c n ++ addTaskCall c (.user n) := by
      simp [addTaskCalls, List.range_succ]
    have hpool : s.pushTasks (n + 1) = (s.pushTasks n).pushTask (.user n) := by
      simp [Pool.pushTasks, Pool.pushTask, List.range_succ]
    rw [hacts, hpool]
    exact hn.append h1

/-- Execute `as` from the start, add `n` tasks, and execute `bs`. -/
def execWith (cfg : Config) (P : Pool → Act → Prop) [∀ s a, Decidable (P s a)] (as : List Act) (n : ℕ)
    (bs : List Act) : Option Pool :=
  (exec (step cfg) P (initPool cfg (.first _)) as).bind fun s =>
    if Open s 0 then exec (step cfg) P (s.pushTasks n) bs else none

theorem exists_runWith [∀ s a, Decidable (P s a)] {as bs : List Act} {n : ℕ} {I J : Pool → Prop}
    (hP : ∀ s a, a.adds = true → P s (.caller 0 a)) (h : ∃ t ∈ execWith cfg P as n bs, I t)
    (hJ : ∀ t, Run (step cfg) P (initPool cfg (.first _)) (as ++ addTaskCalls 0 n ++ bs) t → I t → J t) :
    ∃ t, Run (step cfg) P (initPool cfg (.first _)) (as ++ addTaskCalls 0 n ++ bs) t ∧ J t := by
  obtain ⟨t, ht, hI⟩ := h
  obtain ⟨s, hs, hst⟩ := Option.bind_eq_some_iff.1 ht
  split_ifs at hst with ho
  have hrun := ((run_of_exec hs).append (run_addTaskCalls hP ho n)).append (run_of_exec hst)
  exact ⟨t, hrun, hJ t hrun hI⟩

/-! ## A pool that has grown -/

/-- Two workers find the queue empty and wait. -/
def bothWait : List Act :=
  [.worker 0 .start, .worker 0 .check, .worker 0 .pop, .worker 1 .start, .worker 1 .check, .worker 1 .pop,
    .monitor .start, .monitor .check]

/-- The monitor finds a backlog and adds the worker 2. -/
def grow : List Act :=
  [.monitor .lock, .monitor .recheck, .monitor .grow, .monitor (.create 3), .monitor .insert,
    .monitor .clear, .monitor .check]

/-- The worker 0 retires and lists its id. -/
def retireFirst : List Act :=
  [.worker 0 .timeout, .worker 0 .judge, .worker 0 (.asyncClose false), .worker 0 .recheck,
    .worker 0 .finish, .worker 0 .subPush]

end Empool
