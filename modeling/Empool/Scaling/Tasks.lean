/-
  No task is lost or run twice: the pool hands each task over from its queue to
  one worker.

  `Pool.ledger` reads the queue, the workers and the history as a ledger of
  user tasks; each step of the pool is a step of the ledger or leaves it.
-/
import Empool.Scaling.Backlog
import Empool.Lib.Count
import Empool.Lib.Ledger

namespace Empool

open Lts Handoff

variable {cfg : Config} {s t : Pool}

/-- The number of a task that is not an `EndTask`. -/
def Task.userId : Task → Option ℕ
  | .user i => some i
  | .endTask => none

/-- The worker has popped the task, and its next step is the task's `Run` or it is inside it. -/
def Worker.Holds (wk : Worker) (u : Task) : Prop :=
  wk.runningTask = some u ∧ (wk.pc = .dispatch ∨ wk.pc = .running)

instance (wk : Worker) (u : Task) : Decidable (wk.Holds u) := inferInstanceAs (Decidable (_ ∧ _))

/-- The user task that the worker holds. -/
def Worker.holding (wk : Worker) : Option ℕ :=
  if wk.pc = .dispatch ∨ wk.pc = .running then wk.runningTask.bind Task.userId else none

theorem Worker.holding_eq_some {wk : Worker} {i : ℕ} : wk.holding = some i ↔ wk.Holds (.user i) := by
  unfold holding Holds
  split_ifs with h
  · simp only [h, and_true, Option.bind_eq_some_iff]
    constructor
    · rintro ⟨u, hu, hi⟩
      cases u with
      | user j => cases hi; exact hu
      | endTask => cases hi
    · exact fun hu => ⟨_, hu, rfl⟩
  · simp [h]

/-- The user tasks of the pool. -/
def Pool.ledger (s : Pool) : Ledger ℕ where
  entered := s.pushed.filterMap Task.userId
  waiting := s.taskQueue.filterMap Task.userId
  held := (List.range s.workerNum).filterMap (Worker.holding ∘ s.workers)
  finished := s.completed.filterMap Task.userId

theorem holding_of_pc {wk : Worker} (h : wk.pc ≠ .dispatch) (h' : wk.pc ≠ .running) : wk.holding = none := by
  unfold Worker.holding
  rw [if_neg]
  rintro (hpc | hpc)
  · exact h hpc
  · exact h' hpc

/-- A task put into the queue enters the ledger, unless it is an `EndTask`. -/
theorem ledger_pushTask (s : Pool) (u : Task) :
    (s.pushTask u).ledger = s.ledger ∨ Ledger.Step s.ledger (s.pushTask u).ledger := by
  cases u with
  | endTask => left; simp [Pool.ledger, Pool.pushTask, Task.userId]
  | user i =>
    right
    have : (s.pushTask (.user i)).ledger = { s.ledger with
        entered := s.ledger.entered ++ [i], waiting := s.ledger.waiting ++ [i] } := by
      simp [Pool.ledger, Pool.pushTask, Task.userId]
    rw [this]
    exact .enter i

/-- A worker whose step touches neither the queue nor the history nor what it holds. -/
theorem ledger_worker_same {w : ℕ} {b : WorkerAct}
    (hpool : (workerAct cfg s (s.workers w) b).2.pushed = s.pushed ∧
      (workerAct cfg s (s.workers w) b).2.taskQueue = s.taskQueue ∧
      (workerAct cfg s (s.workers w) b).2.completed = s.completed)
    (hh : (workerAct cfg s (s.workers w) b).1.holding = (s.workers w).holding) :
    (workerNext cfg s w b).ledger = s.ledger := by
  have hheld : (List.range (workerNext cfg s w b).workerNum).filterMap
      (Worker.holding ∘ (workerNext cfg s w b).workers) =
      (List.range s.workerNum).filterMap (Worker.holding ∘ s.workers) := by
    rw [workerNext_workers, workerNext_workerNum]
    exact filterMap_update_of_eq _ hh
  obtain ⟨h1, h2, h3⟩ := hpool
  unfold Pool.ledger
  rw [hheld]
  simp only [workerNext, h1, h2, h3]

/-- `PopTimeWait` takes the front of the queue, or waits. -/
theorem ledger_pop {w : ℕ} (hw : w < s.workerNum) {b : WorkerAct} (hb : b = .pop ∨ b = .wake)
    (hpc : (s.workers w).pc = b.at) :
    (workerNext cfg s w b).ledger = s.ledger ∨ Ledger.Step s.ledger (workerNext cfg s w b).ledger := by
  have hact : workerAct cfg s (s.workers w) b = (s.workers w).popTimeWait s := by
    rcases hb with rfl | rfl <;> rfl
  have hnone : (s.workers w).holding = none := by
    refine holding_of_pc ?_ ?_ <;> rw [hpc] <;> rcases hb with rfl | rfl <;> simp [WorkerAct.at]
  cases hq : s.taskQueue with
  | nil =>
    left
    refine ledger_worker_same ?_ ?_ <;> rw [hact]
    · simp [Worker.popTimeWait, hq]
    · rw [hnone]
      exact holding_of_pc (by simp [Worker.popTimeWait, hq]) (by simp [Worker.popTimeWait, hq])
  | cons u q =>
    cases u with
    | endTask =>
      left
      have hheld : (List.range s.workerNum).filterMap (Worker.holding ∘ (workerNext cfg s w b).workers) =
          (List.range s.workerNum).filterMap (Worker.holding ∘ s.workers) := by
        rw [workerNext_workers]
        refine filterMap_update_of_eq _ ?_
        rw [hnone, hact]
        simp [Worker.popTimeWait, hq, Worker.holding, Task.userId]
      unfold Pool.ledger
      rw [workerNext_workerNum, hheld]
      simp [workerNext, hact, Worker.popTimeWait, hq]
      rfl
    | user i =>
      right
      have hheld : List.Perm ((List.range s.workerNum).filterMap (Worker.holding ∘ (workerNext cfg s w b).workers))
          (i :: s.ledger.held) := by
        rw [workerNext_workers]
        refine filterMap_update_perm List.nodup_range (List.mem_range.2 hw) hnone ?_
        rw [hact]
        simp [Worker.popTimeWait, hq, Worker.holding, Task.userId]
      have hwait : s.ledger.waiting = i :: q.filterMap Task.userId := by
        simp [Pool.ledger, hq, Task.userId]
      have hledger : (workerNext cfg s w b).ledger = { s.ledger with
          waiting := q.filterMap Task.userId
          held := (List.range s.workerNum).filterMap (Worker.holding ∘ (workerNext cfg s w b).workers) } := by
        unfold Pool.ledger
        rw [workerNext_workerNum]
        simp [workerNext, hact, Worker.popTimeWait, hq]
      rw [hledger]
      exact .take hwait hheld

/-- A task that returns is finished. -/
theorem ledger_runReturn {w : ℕ} (hw : w < s.workerNum) (hpc : (s.workers w).pc = .running) :
    (workerNext cfg s w .runReturn).ledger = s.ledger ∨
      Ledger.Step s.ledger (workerNext cfg s w .runReturn).ledger := by
  have hnone : (workerAct cfg s (s.workers w) .runReturn).1.holding = none :=
    holding_of_pc (by simp [workerAct]) (by simp [workerAct])
  cases hh : (s.workers w).holding with
  | none =>
    left
    have hlist : (s.workers w).runningTask.toList.filterMap Task.userId = [] := by
      unfold Worker.holding at hh
      rw [if_pos (.inr hpc)] at hh
      cases hr : (s.workers w).runningTask with
      | none => rfl
      | some u => rw [hr] at hh; simpa using hh
    have hheld : (List.range s.workerNum).filterMap
        (Worker.holding ∘ (workerNext cfg s w .runReturn).workers) =
        (List.range s.workerNum).filterMap (Worker.holding ∘ s.workers) := by
      rw [workerNext_workers]
      exact filterMap_update_of_eq _ (hnone.trans hh.symm)
    unfold Pool.ledger
    rw [workerNext_workerNum, hheld]
    simp [workerNext, workerAct, hlist]
  | some i =>
    right
    obtain ⟨hr, -⟩ := Worker.holding_eq_some.1 hh
    have hheld : List.Perm s.ledger.held (i :: (List.range s.workerNum).filterMap
        (Worker.holding ∘ (workerNext cfg s w .runReturn).workers)) := by
      rw [workerNext_workers]
      exact filterMap_update_perm' List.nodup_range (List.mem_range.2 hw) hh hnone
    have hledger : (workerNext cfg s w .runReturn).ledger = { s.ledger with
        held := (List.range s.workerNum).filterMap (Worker.holding ∘ (workerNext cfg s w .runReturn).workers)
        finished := s.ledger.finished ++ [i] } := by
      unfold Pool.ledger
      rw [workerNext_workerNum]
      simp [workerNext, workerAct, hr, Task.userId]
    rw [hledger]
    exact .finish hheld

theorem ledger_worker {w : ℕ} {b : WorkerAct} (hen : Enabled s (.worker w b)) (hb : b ≠ .runThrow) :
    (workerNext cfg s w b).ledger = s.ledger ∨ Ledger.Step s.ledger (workerNext cfg s w b).ledger := by
  obtain ⟨hw, hpc, -⟩ := hen
  cases b with
  | pop => exact ledger_pop hw (.inl rfl) hpc
  | wake => exact ledger_pop hw (.inr rfl) hpc
  | runReturn => exact ledger_runReturn hw hpc
  | runThrow => exact absurd rfl hb
  | dispatch =>
    left
    refine ledger_worker_same ?_ ?_
    · simp only [workerAct]
      split <;> exact ⟨rfl, rfl, rfl⟩
    · have hd : (s.workers w).pc = .dispatch := hpc
      cases hr : (s.workers w).runningTask with
      | none => simp [workerAct, Worker.holding, hr]
      | some u => cases u <;> simp [workerAct, Worker.holding, hr, hd, Task.userId]
  | _ =>
    -- the worker holds nothing before the step, and nothing after it
    left
    refine ledger_worker_same ?_ ?_
    · simp only [workerAct]
      first | exact ⟨rfl, rfl, rfl⟩ | (split <;> exact ⟨rfl, rfl, rfl⟩) | simp
    · have hbefore : (s.workers w).holding = none := by
        refine holding_of_pc ?_ ?_ <;> rw [hpc] <;> simp [WorkerAct.at]
      rw [hbefore]
      refine holding_of_pc ?_ ?_ <;> simp only [workerAct, Worker.checkFunc] <;>
        first | (split <;> simp) | simp

theorem ledger_monitor (b : MonitorAct) : (monitorAct cfg s b).ledger = s.ledger := by
  have hlists : (monitorAct cfg s b).pushed = s.pushed ∧ (monitorAct cfg s b).completed = s.completed := by
    cases b with
    | lock | wake => simp only [monitorAct, Pool.timeWait]; split <;> exact ⟨rfl, rfl⟩
    | start | check | recheck | grow | insert | find => simp only [monitorAct]; split <;> exact ⟨rfl, rfl⟩
    | _ => exact ⟨rfl, rfl⟩
  have hheld : (List.range (monitorAct cfg s b).workerNum).filterMap
      (Worker.holding ∘ (monitorAct cfg s b).workers) =
      (List.range s.workerNum).filterMap (Worker.holding ∘ s.workers) := by
    by_cases hc : ∃ id, b = .create id
    · obtain ⟨id, rfl⟩ := hc
      simp only [monitorAct]
      rw [List.range_succ, List.filterMap_append, filterMap_update_of_notMem (by simp)]
      simp [Worker.holding, Worker.create]
    · obtain ⟨hw, hn⟩ := @monitorAct_workers cfg s b fun id h => hc ⟨id, h⟩
      rw [hw, hn]
  unfold Pool.ledger
  rw [hheld, hlists.1, hlists.2, monitorAct_taskQueue]

theorem ledger_closer (b : CloserAct) : (closerAct cfg s b).ledger = s.ledger := by
  cases b with
  | asyncClose w spurious =>
    unfold Pool.ledger
    rw [show (List.range (closerAct cfg s (.asyncClose w spurious)).workerNum).filterMap
      (Worker.holding ∘ (closerAct cfg s (.asyncClose w spurious)).workers) =
      (List.range s.workerNum).filterMap (Worker.holding ∘ s.workers) from filterMap_update_of_eq _ rfl]
    rfl
  | pushEnd => simp [Pool.ledger, closerAct, Pool.pushTask, Task.userId]
  | _ => rfl

theorem ledger_caller (c : ℕ) (b : CallerAct) :
    (callerNext cfg s c b).ledger = s.ledger ∨ Ledger.Step s.ledger (callerNext cfg s c b).ledger := by
  cases b with
  | push =>
    cases ht : (s.callers c).task with
    | none => left; simp [callerNext, callerAct, ht, Pool.ledger]
    | some u =>
      have := ledger_pushTask s u
      simpa [callerNext, callerAct, ht, Pool.ledger] using this
  | load | cas =>
    left
    simp only [callerNext, callerAct]
    split <;> rfl
  | _ => left; rfl

/-- Each step of the pool is a step of its ledger, or none. -/
theorem ledger_step {a : Act} (hP : NoThrow s a) (hs : step cfg s a = some t) :
    t.ledger = s.ledger ∨ Ledger.Step s.ledger t.ledger := by
  obtain ⟨hen, rfl⟩ := step_eq_some.1 hs
  cases a with
  | worker w b => exact ledger_worker hen (by rintro rfl; cases hP)
  | monitor b => exact .inl (ledger_monitor b)
  | caller c b => exact ledger_caller c b
  | closer b => exact .inl (ledger_closer b)

theorem run_balanced (ids : LiveIds cfg.corePoolSize) {as : List Act}
    (h : Run (step cfg) NoThrow (initPool cfg ids) as s) : s.ledger.Balanced := by
  have hrefine := h.refine (J := fun _ => True) (f := Pool.ledger) (fun _ _ _ _ _ _ => trivial)
    (fun _ _ _ _ hP hs => ledger_step hP hs) trivial
  refine Ledger.Balanced.steps ?_ hrefine
  have hheld : (List.range cfg.corePoolSize).filterMap
      (Worker.holding ∘ (initPool cfg ids).workers) = [] := by
    refine List.filterMap_eq_nil_iff.2 fun w _ => ?_
    simp [initPool, Worker.create, Worker.holding]
  refine ⟨[], rfl, ?_⟩
  rw [show (initPool cfg ids).ledger.held = [] from hheld]
  exact .refl _

/-! ## The order -/

/-- What has been pushed is what has been popped and what is in the queue, in order. -/
theorem pushed_preserved : Preserved (step cfg) Free fun s => s.pushed = s.popped ++ s.taskQueue := by
  intro s a t h _ hs
  obtain ⟨-, rfl⟩ := step_eq_some.1 hs
  cases a with
  | worker w b =>
    cases b with
    | pop | wake =>
      simp only [next, workerNext, workerAct, Worker.popTimeWait]
      split
      · exact h
      · rename_i u q hq
        rw [h, hq]; simp
    | dispatch | finish | notifyAll =>
      simp only [next, workerNext, workerAct]
      split <;> exact h
    | _ => exact h
  | monitor b =>
    cases b with
    | lock | wake => simp only [next, monitorAct, Pool.timeWait]; split <;> exact h
    | start | check | recheck | grow | insert | find => simp only [next, monitorAct]; split <;> exact h
    | _ => exact h
  | caller c b =>
    cases b with
    | push =>
      cases ht : (s.callers c).task with
      | none => simpa [next, callerNext, callerAct, ht] using h
      | some u => simp [next, callerNext, callerAct, ht, Pool.pushTask, h]
    | load | cas => simp only [next, callerNext, callerAct]; split <;> exact h
    | _ => exact h
  | closer b =>
    cases b with
    | pushEnd => simp [next, closerAct, Pool.pushTask, h]
    | _ => exact h

/-! ## One place for each task -/

theorem count_userId (i : ℕ) : ∀ l : List Task, (l.filterMap Task.userId).count i = l.count (.user i)
  | [] => rfl
  | .endTask :: l => by
    rw [List.filterMap_cons_none rfl, count_userId i l, List.count_cons_of_ne (by simp)]
  | .user j :: l => by
    simp only [List.filterMap_cons, Task.userId, List.count_cons, count_userId i l]
    by_cases h : j = i <;> simp [h]

/-- The worker `w` is the only one that holds the task. -/
def HeldBy (s : Pool) (u : Task) (w : ℕ) : Prop :=
  w < s.workerNum ∧ (s.workers w).Holds u ∧ ∀ v < s.workerNum, (s.workers v).Holds u → v = w

/-- The task is in the queue, in the hands of one worker, or completed: once, and nowhere else. -/
def InOnePlace (s : Pool) (u : Task) : Prop :=
  (s.taskQueue.count u = 1 ∧ (∀ w < s.workerNum, ¬ (s.workers w).Holds u) ∧ s.completed.count u = 0) ∨
  (s.taskQueue.count u = 0 ∧ (∃ w, HeldBy s u w) ∧ s.completed.count u = 0) ∨
  (s.taskQueue.count u = 0 ∧ (∀ w < s.workerNum, ¬ (s.workers w).Holds u) ∧ s.completed.count u = 1)

theorem held_count (s : Pool) (i : ℕ) :
    s.ledger.held.count i = (List.range s.workerNum).countP fun w => decide ((s.workers w).Holds (.user i)) := by
  rw [Pool.ledger, List.count_filterMap]
  refine List.countP_congr fun w _ => ?_
  simp [Worker.holding_eq_some]

/-- **No task is lost or run twice**: in every run in which no task throws, if the user tasks pushed
    are pairwise distinct, each of them is in one place, and tasks are popped in the order in
    which they were pushed. -/
theorem tasks_in_one_place (ids : LiveIds cfg.corePoolSize) {as : List Act}
    (h : Run (step cfg) NoThrow (initPool cfg ids) as s) (hnd : (s.pushed.filterMap Task.userId).Nodup) :
    s.pushed = s.popped ++ s.taskQueue ∧ ∀ i, .user i ∈ s.pushed → InOnePlace s (.user i) := by
  refine ⟨h.free.invariant pushed_preserved rfl, fun i hi => ?_⟩
  have hmem : i ∈ s.ledger.entered := List.mem_filterMap.2 ⟨_, hi, rfl⟩
  have hq : s.ledger.waiting.count i = s.taskQueue.count (.user i) := count_userId i _
  have hc : s.ledger.finished.count i = s.completed.count (.user i) := count_userId i _
  have hheld := held_count s i
  have hnobody : s.ledger.held.count i = 0 → ∀ w < s.workerNum, ¬ (s.workers w).Holds (.user i) := by
    intro h0 w hw
    rw [h0] at hheld
    simpa using List.countP_eq_zero.1 hheld.symm w (List.mem_range.2 hw)
  rcases (run_balanced ids h).one_place hnd hmem with ⟨h1, h2, h3⟩ | ⟨h1, h2, h3⟩ | ⟨h1, h2, h3⟩
  · exact .inl ⟨hq ▸ h1, hnobody h2, hc ▸ h3⟩
  · refine .inr (.inl ⟨hq ▸ h1, ?_, hc ▸ h3⟩)
    rw [h2] at hheld
    obtain ⟨w, hw, hholds, huniq⟩ := exists_unique_of_countP hheld.symm
    refine ⟨w, List.mem_range.1 hw, by simpa using hholds, fun v hv hvh => ?_⟩
    exact huniq v (List.mem_range.2 hv) (by simpa using hvh)
  · exact .inr (.inr ⟨hq ▸ h1, hnobody h2, hc ▸ h3⟩)

/-- The only worker completes the first of three tasks and takes the second. -/
def serveTwo : List Act :=
  [.worker 0 .start, .worker 0 .check, .worker 0 .pop, .worker 0 .dispatch, .worker 0 .runReturn,
    .worker 0 .check, .worker 0 .pop, .worker 0 .dispatch]

theorem tasks_in_one_place_three : ∃ s, Run (step ⟨1, 1⟩) NoThrow (initPool ⟨1, 1⟩ (.first 1))
    ([] ++ addTaskCalls 0 3 ++ serveTwo) s ∧ s.completed = [.user 0] ∧ (s.workers 0).Holds (.user 1) ∧
      s.taskQueue = [.user 2] ∧ ∀ i, .user i ∈ s.pushed → InOnePlace s (.user i) := by
  refine exists_runWith (I := fun s => s.completed = [.user 0] ∧ (s.workers 0).Holds (.user 1) ∧
    s.taskQueue = [.user 2] ∧ (s.pushed.filterMap Task.userId).Nodup) (fun _ _ _ => rfl) (by decide)
    fun s hrun ⟨hc, hh, hq, hnd⟩ => ⟨hc, hh, hq, ?_⟩
  exact (@tasks_in_one_place ⟨1, 1⟩ s (.first 1) _ hrun hnd).2

end Empool
