/-
  In which order a `SingleThreadPool` runs its tasks, in every mode.

  The queue is a server (`Server`): `GetTask` returns a task that is first among
  those in the queue, of the smallest priority in the modes `FIFO` and `PRIORITY`
  and of the greatest in `LIFO`, whatever the priorities and the interleaving
  (`serves_first`).  The comparison of the mode `LIFO` also holds of equal
  priorities, which `std::priority_queue` does not allow; it does no harm here,
  since the heap keeps the strict order behind it (`Heap.Between`).

  Every task that has been put into the queue is there or has been served, once,
  and the tasks served have been started, but for the one at hand.
-/
import Empool.Single.Closing
import Empool.Lib.HeapWeak
import Empool.Lib.Server
import Empool.Lib.History

namespace Empool

open Lts Heap

/-! ## The order of the modes -/

/-- `x` may be served while `y` waits. -/
def RunMode.First (mode : RunMode) (x y : PriorityTask) : Prop :=
  if mode = .lifo then y.getPriorityValue ≤ x.getPriorityValue else x.getPriorityValue ≤ y.getPriorityValue

/-- `x` has to wait for `y`. -/
def RunMode.after (mode : RunMode) (x y : PriorityTask) : Bool :=
  if mode = .lifo then decide (x.getPriorityValue < y.getPriorityValue)
  else decide (x.getPriorityValue > y.getPriorityValue)

theorem RunMode.after_eq_false {mode : RunMode} {x y : PriorityTask} : mode.after x y = false ↔ mode.First x y := by
  unfold RunMode.after RunMode.First
  split_ifs <;> simp

theorem RunMode.first_trans {mode : RunMode} {x y z : PriorityTask} (hxy : mode.First x y) (hyz : mode.First y z) :
    mode.First x z := by
  unfold RunMode.First at *
  split_ifs at *
  · exact Int.le_trans hyz hxy
  · exact Int.le_trans hxy hyz

theorem RunMode.first_refl (mode : RunMode) (x : PriorityTask) : mode.First x x := by
  unfold RunMode.First
  split_ifs <;> exact Int.le_refl _

theorem RunMode.after_negTrans (mode : RunMode) : NegTrans mode.after := by
  intro x y z hxy hyz
  rw [RunMode.after_eq_false] at *
  exact RunMode.first_trans hxy hyz

/-- The comparison of each mode keeps its order, also the one that is not strict. -/
theorem RunMode.between (mode : RunMode) : Between mode.after mode.comp where
  of_lt x y h := by
    unfold RunMode.after at h
    unfold RunMode.comp
    split_ifs at *
    · simp only [compareFuncLesser, compareFuncGreater, decide_eq_true_eq] at *
      simpa using Int.le_of_lt h
    · exact h
  not_gt x y h := by
    unfold RunMode.after
    unfold RunMode.comp at h
    split_ifs at *
    · simpa [compareFuncLesser, compareFuncGreater] using h
    · simp only [compareFuncGreater, decide_eq_true_eq] at h
      simpa using Int.le_of_lt h

/-- A task that is run: the worker starts no `EndPriorityTask`. -/
def PriorityTask.runs : PriorityTask → Bool
  | .functor _ _ => true
  | .endTask => false

namespace TaskQueues

/-- The array is in the order of its mode. -/
def InOrder (q : TaskQueues) : Prop := Ordered q.runMode.after q.tasks

theorem inOrder_create (mode : RunMode) : (create mode).InOrder := by
  unfold InOrder
  rw [tasks_create]
  exact .nil

theorem InOrder.pushTask {q : TaskQueues} (h : q.InOrder) (task : PriorityTask) : (q.pushTask task).InOrder := by
  unfold InOrder
  rw [runMode_pushTask, tasks_pushTask]
  exact q.runMode.between.push q.runMode.after_negTrans h

theorem InOrder.getTask {q r : TaskQueues} {task : PriorityTask} (h : q.InOrder) (hq : q.getTask = some (task, r)) :
    r.InOrder ∧ r.runMode = q.runMode ∧ (q.tasks : Multiset PriorityTask) = task ::ₘ r.tasks ∧
      ∀ u ∈ r.tasks, q.runMode.First task u := by
  obtain ⟨htop, hpop, hmode⟩ := getTask_eq_some hq
  refine ⟨?_, hmode, ?_, fun u hu => ?_⟩
  · unfold InOrder
    rw [hmode, hpop]
    exact q.runMode.between.pop q.runMode.after_negTrans h
  · rw [hpop]
    exact Multiset.coe_eq_coe.2 (top_pop_perm htop).symm
  · have hmem : u ∈ q.tasks := (mem_of_getTask hq).2 (.inr hu)
    rcases Ordered.top q.runMode.after_negTrans h htop hmem with rfl | hlt
    · exact q.runMode.first_refl u
    · exact RunMode.after_eq_false.1 hlt

end TaskQueues

namespace SingleThreadPool

variable {s t : SingleThreadPool} {a : Act} {mode : RunMode} {es : List (Server.Event PriorityTask)}

/-! ## What enters the queue and what leaves it -/

/-- `PushTask(task)` of a caller. -/
def CallerPc.seen : CallerPc → List (Server.Event PriorityTask)
  | .push task => [.enter task]
  | _ => []

/-- `PushTask(endTask)` of the body of `ShutDown`. -/
def CloserPc.seen : CloserPc → List (Server.Event PriorityTask)
  | .pushEnd => [.enter .endTask]
  | _ => []

/-- `GetTask` returns, if there is a task. -/
def WorkerPc.seen (queues : TaskQueues) : WorkerPc → List (Server.Event PriorityTask)
  | .getTask | .wait _ => (queues.getTask.map fun r => Server.Event.serve r.1).toList
  | _ => []

/-- What a step shows. -/
def seen (s : SingleThreadPool) : Act → List (Server.Event PriorityTask)
  | .caller c _ => (s.callers c).seen
  | .closer _ => s.closer.seen
  | .worker => s.worker.seen s.queues
  | _ => []

theorem WorkerPc.looks.seen {pc : WorkerPc} (h : pc.looks) (queues : TaskQueues) :
    pc.seen queues = (queues.getTask.map fun r => Server.Event.serve r.1).toList := by
  cases pc with
  | getTask | wait => rfl
  | _ => cases h

/-- The queues change as the step shows. -/
theorem seen_trans (ht : Trans s a t) : (s.seen a = [] ∧ t.queues = s.queues) ∨
    (∃ task, s.seen a = [.enter task] ∧ t.queues = s.queues.pushTask task) ∨
    ∃ task, s.seen a = [.serve task] ∧ s.queues.getTask = some (task, t.queues) := by
  have hworker : ∀ {pc : WorkerPc}, s.worker = pc → s.seen .worker = pc.seen s.queues := fun hw => hw ▸ rfl
  have hcaller : ∀ {c : ℕ} {spurious : Bool} {pc : CallerPc}, s.callers c = pc →
      s.seen (.caller c spurious) = pc.seen := fun hc => hc ▸ rfl
  have hcloser : ∀ {spurious : Bool} {pc : CloserPc}, s.closer = pc → s.seen (.closer spurious) = pc.seen :=
    fun hcl => hcl ▸ rfl
  cases ht with
  | construct | signal | throw | addTask | shutDown => exact .inl ⟨rfl, rfl⟩
  | leave hw => exact .inl ⟨hw.elim (fun hw => hworker hw) fun hw => hworker hw, rfl⟩
  | start hw | check hw | stop hw | run hw | runReturn hw | setShutDown hw | notifyFinished hw =>
    exact .inl ⟨hworker hw, rfl⟩
  | @take hw task queues hq =>
    refine .inr (.inr ⟨task, (hw.seen s.queues).trans ?_, hq⟩)
    rw [hq]
    rfl
  | block hw hq =>
    refine .inl ⟨(hw.seen s.queues).trans ?_, rfl⟩
    rw [hq]
    rfl
  | push hc => exact .inr (.inl ⟨_, hcaller hc, rfl⟩)
  | refuse hc | accept hc | lose hc | win hc | resume hc => exact .inl ⟨hcaller hc, rfl⟩
  | released hc | wait hc => exact .inl ⟨hc.elim (fun hc => hcaller hc) fun hc => hcaller hc, rfl⟩
  | setStop hcl | asyncClose hcl => exact .inl ⟨hcloser hcl, rfl⟩
  | pushEnd hcl => exact .inr (.inl ⟨_, hcloser hcl, rfl⟩)

/-! ## The pool serves the first -/

/-- The queue of the pool is in order. -/
def Arranged (mode : RunMode) (s : SingleThreadPool) : Prop := s.queues.InOrder ∧ s.queues.runMode = mode

theorem arranged_create (mode : RunMode) : (create mode).Arranged mode := ⟨TaskQueues.inOrder_create mode, rfl⟩

theorem arranged_trans (h : s.Arranged mode) (ht : Trans s a t) : t.Arranged mode := by
  obtain ⟨horder, rfl⟩ := h
  unfold Arranged
  rcases seen_trans ht with ⟨-, hq⟩ | ⟨task, -, hq⟩ | ⟨task, -, hq⟩
  · rw [hq]
    exact ⟨horder, rfl⟩
  · rw [hq]
    exact ⟨horder.pushTask task, TaskQueues.runMode_pushTask ..⟩
  · obtain ⟨horder', hmode, -⟩ := horder.getTask hq
    exact ⟨horder', hmode⟩

/-- A step is one of the server, or hidden. -/
theorem serves_step (h : s.Arranged mode) (ht : Trans s a t) :
    Shows (Server.Step mode.First) (s.queues.tasks : Multiset PriorityTask) (s.seen a) t.queues.tasks := by
  obtain ⟨horder, rfl⟩ := h
  rcases seen_trans ht with ⟨hseen, hq⟩ | ⟨task, hseen, hq⟩ | ⟨task, hseen, hq⟩
  · rw [hseen, hq]
    exact .refl _
  · rw [hseen, hq, TaskQueues.tasks_pushTask, Multiset.coe_eq_coe.2 (push_perm ..)]
    exact .single (.enter _ task)
  · obtain ⟨-, -, hperm, hfirst⟩ := horder.getTask hq
    rw [hseen, hperm]
    exact .single (.serve hfirst)

/-! ## Every task once -/

/-- The worker has got a task, and has not started it. -/
def WorkerPc.pending : WorkerPc → ℕ
  | .dispatch (.functor _ _) => 1
  | _ => 0

theorem WorkerPc.looks.pending {pc : WorkerPc} (h : pc.looks) : pc.pending = 0 := by
  cases pc with
  | getTask | wait => rfl
  | _ => cases h

theorem pushTask_pending {task : PriorityTask} : (s.pushTask task).worker.pending = s.worker.pending := by
  rcases @pushTask_worker s task with heq | ⟨hw, heq⟩
  · rw [heq]
  · rw [heq, hw]
    rfl

theorem served_caller (pc : CallerPc) : Server.served pc.seen = [] := by
  cases pc <;> rfl

theorem served_closer (pc : CloserPc) : Server.served pc.seen = [] := by
  cases pc <;> rfl

/-- The worker starts the tasks that it has got. -/
theorem started_trans (ht : Trans s a t) : t.started + t.worker.pending =
    (Server.served (s.seen a)).countP PriorityTask.runs + (s.started + s.worker.pending) := by
  have hsame : Server.served (s.seen a) = [] → t.started = s.started → t.worker.pending = s.worker.pending →
      t.started + t.worker.pending =
        (Server.served (s.seen a)).countP PriorityTask.runs + (s.started + s.worker.pending) := by
    intro hseen hst hw
    rw [hseen, hst, hw]
    exact (Nat.zero_add _).symm
  have hworker : ∀ {pc : WorkerPc}, s.worker = pc → s.seen .worker = pc.seen s.queues := fun hw => hw ▸ rfl
  cases ht with
  | construct | addTask | shutDown => exact hsame rfl rfl rfl
  | refuse | accept | lose | win | resume | released | wait => exact hsame (served_caller _) rfl rfl
  | setStop | asyncClose => exact hsame (served_closer _) rfl rfl
  | @push c spurious task hc => exact hsame (served_caller _) rfl (@pushTask_pending s task)
  | pushEnd hcl => exact hsame (served_closer _) rfl (@pushTask_pending s .endTask)
  | signal hw | throw hw => exact hsame rfl rfl (by rw [hw]; rfl)
  | leave hw =>
    rcases hw with hw | hw
    · exact hsame (by rw [hworker hw]; rfl) rfl (by rw [hw]; rfl)
    · exact hsame (by rw [hworker hw]; rfl) rfl (by rw [hw]; rfl)
  | start hw | check hw | stop hw | runReturn hw | setShutDown hw | notifyFinished hw =>
    exact hsame (by rw [hworker hw]; rfl) rfl (by rw [hw]; rfl)
  | block hw hq =>
    refine hsame ?_ rfl hw.pending.symm
    rw [show s.seen .worker = _ from hw.seen s.queues, hq]
    rfl
  | @take hw task queues hq =>
    rw [show s.seen .worker = _ from hw.seen s.queues, hq, hw.pending]
    show s.started + (WorkerPc.dispatch task).pending = [task].countP PriorityTask.runs + s.started
    cases task with
    | functor id priority => exact Nat.add_comm ..
    | endTask => exact Nat.add_comm ..
  | run hw =>
    rw [hworker hw, hw]
    exact (Nat.zero_add _).symm

/-! ## Runs -/

/-- The system with the events that its runs show. -/
abbrev seeing : List (Server.Event PriorityTask) × SingleThreadPool → Act →
    Option (List (Server.Event PriorityTask) × SingleThreadPool) := record step fun es s a => es ++ s.seen a

theorem seeing_preserved : Preserved seeing Free fun p => p.2.Arranged mode := by
  rintro ⟨es, s⟩ a ⟨es', t⟩ h - hs
  exact arranged_trans h (trans_of_step (record_eq_some.1 hs).1)

theorem shows_of_run {es es' : List (Server.Event PriorityTask)} {as : List Act}
    (h : Run seeing Free (es, s) as (es', t)) (hs : s.Arranged mode) : ∃ fs, es' = es ++ fs ∧
      Shows (Server.Step mode.First) (s.queues.tasks : Multiset PriorityTask) fs t.queues.tasks := by
  have hserves : ∀ (p : List (Server.Event PriorityTask) × SingleThreadPool) a q, p.2.Arranged mode → Free p a →
      seeing p a = some q → ∃ fs, q.1 = p.1 ++ fs ∧
        Shows (Server.Step mode.First) (p.2.queues.tasks : Multiset PriorityTask) fs q.2.queues.tasks := by
    rintro ⟨es, s⟩ a ⟨es', t⟩ harr - hs
    obtain ⟨hstep, rfl⟩ := record_eq_some.1 hs
    exact ⟨_, rfl, serves_step harr (trans_of_step hstep)⟩
  exact h.shows (f := fun p => (p.2.queues.tasks : Multiset PriorityTask)) seeing_preserved hserves hs

/-- **The pool serves the first**, and each task once. -/
theorem serves_first {as : List Act} (h : Run seeing Free ([], create mode) as (es, s)) :
    Shows (Server.Step mode.First) 0 es (s.queues.tasks : Multiset PriorityTask) ∧
    (Server.served es + s.queues.tasks : Multiset PriorityTask) = Server.entered es ∧
    (Server.served es).countP PriorityTask.runs = s.started + s.worker.pending := by
  obtain ⟨fs, hes, hshows⟩ := shows_of_run h (arranged_create mode)
  rw [List.nil_append] at hes
  subst hes
  rw [show (create mode).queues.tasks = [] from TaskQueues.tasks_create mode] at hshows
  have hcount := h.invariant (I := fun p : List (Server.Event PriorityTask) × SingleThreadPool =>
    (Server.served p.1).countP PriorityTask.runs = p.2.started + p.2.worker.pending) ?_ rfl
  · exact ⟨hshows, (Server.balance hshows).trans (Multiset.zero_add _), hcount⟩
  · rintro ⟨es, s⟩ a ⟨es', t⟩ hc - hs
    obtain ⟨hstep, rfl⟩ := record_eq_some.1 hs
    have hstarted := started_trans (trans_of_step hstep)
    show (Server.served (es ++ s.seen a)).countP PriorityTask.runs = _
    rw [Server.served_append, List.countP_append, hstarted, hc, Nat.add_comm]

/-- While nothing is put into the queue, the tasks come out in the order of their priorities. -/
theorem drains_in_order {fs : List (Server.Event PriorityTask)} {as bs : List Act}
    (h : Run seeing Free ([], create mode) as (es, s)) (h' : Run seeing Free (es, s) bs (es ++ fs, t))
    (hno : Server.entered fs = []) : (Server.served fs).Pairwise mode.First := by
  have harr : s.Arranged mode := h.invariant (I := fun p => p.2.Arranged mode) seeing_preserved (arranged_create mode)
  obtain ⟨gs, hgs, hshows⟩ := shows_of_run h' harr
  cases List.append_cancel_left hgs
  exact Server.sorted hshows hno

/-- Three tasks with the priorities 5, 5 and 7 in the mode `LIFO`, and the end task: the worker has got the
    greatest first. -/
theorem serves_first_lifo : ∃ p : List (Server.Event PriorityTask) × SingleThreadPool,
    Run seeing Free ([], create .lifo)
      [.construct, .addTask 0 1 5, .caller 0 false, .caller 0 false, .addTask 0 2 5, .caller 0 false, .caller 0 false,
        .addTask 0 3 7, .caller 0 false, .caller 0 false, .worker, .worker, .worker, .worker] p ∧
    Server.served p.1 = [.functor 3 7] ∧ p.2.started = 1 ∧
    Shows (Server.Step (RunMode.First .lifo)) 0 p.1 (p.2.queues.tasks : Multiset PriorityTask) := by
  refine exists_run (I := fun p => Server.served p.1 = [.functor 3 7] ∧ p.2.started = 1) (by decide +kernel)
    fun p hrun ⟨hserved, hst⟩ => ⟨hserved, hst, ?_⟩
  obtain ⟨es, s⟩ := p
  exact (serves_first hrun).1

/-- Two tasks wait in the mode `PRIORITY`; the worker gets both. -/
theorem drains_in_order_two : ∃ p q : List (Server.Event PriorityTask) × SingleThreadPool,
    Run seeing Free ([], create .priority)
      [.construct, .addTask 0 1 5, .caller 0 false, .caller 0 false, .addTask 0 2 3, .caller 0 false,
        .caller 0 false, .worker, .worker] p ∧
    Run seeing Free p [.worker, .worker, .worker, .worker, .worker] q ∧
    q.1 = p.1 ++ [.serve (.functor 2 3), .serve (.functor 1 5)] ∧
    [PriorityTask.functor 2 3, .functor 1 5].Pairwise (RunMode.First .priority) := by
  obtain ⟨⟨es, s⟩, hp, ⟨es', t⟩, hq, hfs⟩ : ∃ p, Run seeing Free ([], create .priority)
      [.construct, .addTask 0 1 5, .caller 0 false, .caller 0 false, .addTask 0 2 3, .caller 0 false,
        .caller 0 false, .worker, .worker] p ∧
      ∃ q ∈ exec seeing Free p [.worker, .worker, .worker, .worker, .worker],
        q.1 = p.1 ++ [.serve (.functor 2 3), .serve (.functor 1 5)] :=
    exists_run (by decide +kernel) fun _ _ h => h
  have hrun := run_of_exec hq
  refine ⟨(es, s), (es', t), hp, hrun, hfs, ?_⟩
  cases hfs
  exact drains_in_order hp hrun rfl

end SingleThreadPool

end Empool
