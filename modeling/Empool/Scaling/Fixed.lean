/-
  `FixedThreadPool`: a `ScalingThreadPool` whose two sizes are equal.

  Its monitor never adds or removes a worker, and no worker retires.  So the
  conditions under which shutdown of a `ScalingThreadPool` completes, is final
  and reaches every worker are met by all its runs.
-/
import Empool.Scaling.Reach

namespace Empool

open Lts

variable {n : ℕ} {s t : Pool}

/-- `FixedThreadPool(threadNum)` -/
def fixedThreadPool (threadNum : ℕ) : Config := ⟨threadNum, threadNum⟩

/-- No caller adds an `EndTask`, no task throws, and `compare_exchange_weak` does not fail
    spuriously. -/
def Act.regular : Act → Bool
  | .worker _ .runThrow => false
  | .worker _ (.asyncClose spurious) => !spurious
  | .caller _ (.addTask task) => task ≠ some .endTask
  | .caller _ (.cas spurious) => !spurious
  | .closer (.asyncClose _ spurious) => !spurious
  | .closer (.closeMonitor spurious) => !spurious
  | _ => true

/-- The steps of a run are regular. -/
def Regular : Pool → Act → Prop := fun _ a => a.regular = true

instance (s : Pool) (a : Act) : Decidable (Regular s a) := inferInstanceAs (Decidable (_ = _))

/-- Before the closing pass the worker is not closed, has not left its loop and holds no `EndTask`. -/
structure Worker.Untouched (wk : Worker) : Prop where
  notClosed : wk.isRequestClose = false
  inLoop : wk.finishCalls = 0
  noEnd : wk.runningTask ≠ some .endTask

/-- What distinguishes a fixed pool with `n` workers. -/
structure FixedInv (n : ℕ) (s : Pool) : Prop where
  size : s.threads.length = n
  num : s.workerNum = n
  place : s.monitor.pc ≠ .create ∧ s.monitor.pc ≠ .insert ∧ s.monitor.pc ≠ .joinNew ∧ s.monitor.pc ≠ .join
  stays : ∀ v, (s.workers v).retired = false ∧ (s.workers v).pc ≠ .asyncClose
  tasks : ∀ c, (s.callers c).task ≠ some .endTask
  queue : s.closer.pc.begun = false → .endTask ∉ s.taskQueue
  early : s.closer.pc.begun = false → ∀ v, (s.workers v).Untouched

theorem FixedInv.init (ids : LiveIds (fixedThreadPool n).corePoolSize) :
    FixedInv n (initPool (fixedThreadPool n) ids) where
  size := by simp [initPool, fixedThreadPool]
  num := rfl
  place := by simp [initPool]
  stays v := by simp [initPool, Worker.create]
  tasks c := by simp [initPool, Caller.idle]
  queue _ := by simp [initPool]
  early _ v := by constructor <;> simp [initPool, Worker.create]

/-- A fixed pool has no worker too many. -/
theorem FixedInv.not_ifMoreThan (h : FixedInv n s) : s.ifMoreThan (fixedThreadPool n) = false := by
  simp [Pool.ifMoreThan, fixedThreadPool, h.size]

theorem untouched_act {wk : Worker} {b : WorkerAct} (hpc : wk.pc = b.at) (hne : wk.pc ≠ .asyncClose)
    (hq : .endTask ∉ s.taskQueue) (h : wk.Untouched) :
    (workerAct (fixedThreadPool n) s wk b).1.Untouched := by
  obtain ⟨hr, hf, he⟩ := h
  cases b with
  | start | check | recheck => constructor <;> simp [workerAct, Worker.checkFunc, hr, hf, he]
  | pop | wake =>
    simp only [workerAct, Worker.popTimeWait]
    split
    · exact ⟨hr, hf, he⟩
    · rename_i u q hqueue
      refine ⟨hr, hf, fun heq => hq ?_⟩
      rw [hqueue, ← Option.some.inj heq]
      exact List.mem_cons_self ..
  | asyncClose => rw [hpc] at hne; exact absurd rfl hne
  | dispatch =>
    simp only [workerAct]
    split
    · rename_i hend; exact absurd hend he
    · exact ⟨hr, hf, he⟩
    · exact ⟨hr, hf, he⟩
  | finish =>
    simp only [workerAct]
    split <;> exact ⟨hr, hf, he⟩
  | _ => exact ⟨hr, hf, he⟩

theorem Locks.flag_of_begun (h : Locks s) (hbegun : s.closer.pc.begun = true) :
    s.isRequestShutDown = true := by
  cases hf : s.isRequestShutDown with
  | true => rfl
  | false => rw [h.flag.1 hf] at hbegun; cases hbegun

/-- A worker that has left its loop has done so after the closing pass began. -/
theorem FixedInv.begun (h : FixedInv n s) {w : ℕ} (hf : (s.workers w).finishCalls ≠ 0) :
    s.closer.pc.begun = true := by
  by_contra hbegun
  exact hf (h.early (by simpa using hbegun) w).inLoop

theorem stays_act {w : ℕ} {b : WorkerAct} (hpc : (s.workers w).pc = b.at) (hb : Books s) (h : FixedInv n s) :
    (workerAct (fixedThreadPool n) s (s.workers w) b).1.retired = false ∧
      (workerAct (fixedThreadPool n) s (s.workers w) b).1.pc ≠ .asyncClose := by
  obtain ⟨hr, hne⟩ := h.stays w
  constructor
  · by_cases hfin : b = .finish
    · subst hfin
      -- the worker is in its finish action, so shutdown has been requested
      have hok := hb.ok w
      unfold Worker.Ok at hok
      rw [hpc] at hok
      have hf : (s.workers w).finishCalls ≠ 0 := by rw [hok.1]; exact Nat.one_ne_zero
      have hflag := hb.locks.flag_of_begun (h.begun hf)
      simp [workerAct, hflag, hr]
    · rw [retired_act hfin]; exact hr
  · cases b with
    | judge => simp [workerAct, h.not_ifMoreThan]
    | start | check | recheck | pop | wake | dispatch | finish | compare =>
      simp only [workerAct, Worker.popTimeWait, Worker.checkFunc]
      split <;> simp
    | _ => simp [workerAct]

theorem workerNext_task (w : ℕ) (b : WorkerAct) (c : ℕ) :
    ((workerNext (fixedThreadPool n) s w b).callers c).task = (s.callers c).task := by
  by_cases hb : b = .notifyAll
  · subst hb
    simp only [workerNext, workerAct, Pool.notifyAllState]
    split
    · simp only; split <;> rfl
    · rfl
  · rw [workerNext_callers w b hb]

theorem mem_workerNext_taskQueue {w : ℕ} {b : WorkerAct} {u : Task}
    (h : u ∈ (workerNext (fixedThreadPool n) s w b).taskQueue) : u ∈ s.taskQueue := by
  cases b with
  | pop | wake =>
    simp only [workerNext, workerAct, Worker.popTimeWait] at h
    split at h
    · exact h
    · rename_i hq
      rw [hq]; exact List.mem_cons_of_mem _ h
  | dispatch | finish | notifyAll =>
    simp only [workerNext, workerAct] at h
    split at h <;> exact h
  | _ => exact h

theorem fixed_worker {w : ℕ} {b : WorkerAct} (hen : Enabled s (.worker w b)) (hb : Books s)
    (h : FixedInv n s) : FixedInv n (workerNext (fixedThreadPool n) s w b) := by
  obtain ⟨m, hm⟩ := @workerNext_monitor (fixedThreadPool n) s w b
  refine ⟨?_, ?_, ?_, fun v => ?_, fun c => ?_, fun hbegun hq => ?_, fun hbegun v => ?_⟩
  · rw [workerNext_threads]; exact h.size
  · rw [workerNext_workerNum]; exact h.num
  · rw [hm]; exact h.place
  · exact update_of (P := fun wk : Worker => wk.retired = false ∧ wk.pc ≠ .asyncClose)
      (fun _ => stays_act hen.2.1 hb h) fun _ => h.stays v
  · rw [workerNext_task]; exact h.tasks c
  · rw [workerNext_closer] at hbegun
    exact h.queue hbegun (mem_workerNext_taskQueue hq)
  · rw [workerNext_closer] at hbegun
    refine update_of (P := Worker.Untouched) (fun _ => ?_) fun _ => h.early hbegun v
    exact untouched_act hen.2.1 (h.stays w).2 (h.queue hbegun) (h.early hbegun w)

theorem fixed_monitor {b : MonitorAct} (hen : Enabled s (.monitor b)) (hb : Books s) (h : FixedInv n s) :
    FixedInv n (monitorAct (fixedThreadPool n) s b) := by
  have hpc := hen.1
  obtain ⟨hp1, hp2, hp3, hp4⟩ := h.place
  rw [hpc] at hp1 hp2 hp3 hp4
  have hc : ∀ id, b ≠ .create id := by rintro id rfl; exact hp1 rfl
  have hi : b ≠ .insert := by rintro rfl; exact hp2 rfl
  have hj : b ≠ .join := by rintro rfl; exact hp4 rfl
  obtain ⟨hw, hn⟩ := @monitorAct_workers (fixedThreadPool n) s b hc
  refine ⟨?_, hn.trans h.num, ?_, ?_, ?_, ?_, ?_⟩
  · rw [monitorAct_threads b hi hj]; exact h.size
  · cases b with
    | create id => exact absurd rfl (hc id)
    | insert => exact absurd rfl hi
    | grow => simp [monitorAct, fixedThreadPool, h.size, Pool.monitorSub]
    | find =>
      -- an id found would be the id of a worker that has retired
      have hnone : s.monitor.iter.head?.bind s.findThread = none := by
        rw [Option.bind_eq_none_iff]
        intro id hid
        by_contra hsome
        obtain ⟨e, he⟩ := Option.ne_none_iff_exists'.1 hsome
        obtain ⟨hmem, rfl⟩ := findThread_some he
        have hl := hb.pending.iter (by rw [hpc]; rfl) _ (List.mem_of_mem_head? hid) e.2 hmem
        have hr := hl.1
        rw [(h.stays e.2).1] at hr; cases hr
      simp [monitorAct, hnone, hpc, MonitorAct.at]
    | lock | wake =>
      simp only [monitorAct, Pool.timeWait]
      split <;> simp [Pool.monitorAt]
    | start | check | recheck =>
      simp only [monitorAct]
      split <;> simp [Pool.monitorAt]
    | _ => simp [monitorAct, Pool.monitorAt, Pool.monitorSub]
  · rw [hw]; exact h.stays
  · rw [monitorAct_callers]; exact h.tasks
  · rw [monitorAct_closer, monitorAct_taskQueue]; exact h.queue
  · rw [monitorAct_closer, hw]; exact h.early

theorem fixed_closer {b : CloserAct} (hen : Enabled s (.closer b)) (h : FixedInv n s) :
    FixedInv n (closerAct (fixedThreadPool n) s b) := by
  have hpc := hen.1
  have hstays : ∀ v, ((closerAct (fixedThreadPool n) s b).workers v).retired = false ∧
      ((closerAct (fixedThreadPool n) s b).workers v).pc ≠ .asyncClose := by
    intro v
    cases b with
    | asyncClose w spurious =>
      exact update_of (P := fun wk : Worker => wk.retired = false ∧ wk.pc ≠ .asyncClose)
        (fun _ => h.stays w) fun _ => h.stays v
    | _ => exact h.stays v
  refine ⟨?_, ?_, ?_, hstays, ?_, ?_, ?_⟩
  · rw [closerAct_threads]; exact h.size
  · rw [closerAct_workerNum]; exact h.num
  · have hm : (closerAct (fixedThreadPool n) s b).monitor.pc = s.monitor.pc := by cases b <;> rfl
    rw [hm]; exact h.place
  · rw [closerAct_callers]; exact h.tasks
  · cases b with
    | setStop => exact fun _ => h.queue (by rw [hpc]; rfl)
    | asyncClose | pushEnd => intro hbegun; simp [closerAct, Pool.pushTask, hpc, CloserAct.at, CloserPc.begun] at hbegun
    | _ => intro hbegun; cases hbegun
  · cases b with
    | setStop => exact fun _ => h.early (by rw [hpc]; rfl)
    | asyncClose | pushEnd => intro hbegun; simp [closerAct, Pool.pushTask, hpc, CloserAct.at, CloserPc.begun] at hbegun
    | _ => intro hbegun; cases hbegun

theorem afterShutDown_task {cl : Caller} (h : cl.task ≠ some .endTask) :
    cl.afterShutDown.task ≠ some .endTask := by
  unfold Caller.afterShutDown
  split
  · exact h
  · simp [Caller.idle]

/-- A caller adds no `EndTask`. -/
theorem callerAct_task {cfg : Config} {cl : Caller} {b : CallerAct}
    (hreg : ∀ task, b = .addTask task → task ≠ some .endTask) (h : cl.task ≠ some .endTask) : (callerAct cfg s cl b).1.task ≠ some .endTask := by
  cases b with
  | addTask task => exact hreg task rfl
  | load =>
    simp only [callerAct]
    split
    · simp [Caller.idle]
    · exact h
  | cas =>
    simp only [callerAct]
    split
    · exact afterShutDown_task h
    · exact h
  | resume => exact afterShutDown_task h
  | testState | wake =>
    simp only [callerAct, Caller.waitState]
    split
    · simp [Caller.idle]
    · exact h
  | push => exact h
  | shutDown | notify => simp [callerAct, Caller.idle]

/-- So it pushes none. -/
theorem endTask_of_callerNext {cfg : Config} {c : ℕ} {b : CallerAct} (h : (s.callers c).task ≠ some .endTask)
    (hq : Task.endTask ∈ (callerNext cfg s c b).taskQueue) : Task.endTask ∈ s.taskQueue := by
  by_cases hpush : b = .push
  · subst hpush
    cases ht : (s.callers c).task with
    | none => simpa [callerNext, callerAct, ht] using hq
    | some u =>
      simp only [callerNext, callerAct, ht, Option.elim, Pool.pushTask] at hq
      rcases List.mem_append.1 hq with hq | hq
      · exact hq
      · rw [← List.mem_singleton.1 hq] at ht
        exact absurd ht h
  · rwa [callerNext_queue c b hpush] at hq

theorem fixed_caller {c : ℕ} {b : CallerAct} (hl : Locks s) (hreg : Regular s (.caller c b))
    (h : FixedInv n s) : FixedInv n (callerNext (fixedThreadPool n) s c b) := by
  obtain ⟨m, hm⟩ := @callerNext_monitor (fixedThreadPool n) s c b
  have hbegun : (callerNext (fixedThreadPool n) s c b).closer.pc.begun = false → s.closer.pc.begun = false := by
    by_cases hw : b.Wins s
    · rw [hl.flag.1 (@callerNext_wins (fixedThreadPool n) s c b hw).1]
      exact fun _ => rfl
    · rw [(callerNext_closing c b hw).2]; exact id
  have htask : ∀ task, b = .addTask task → task ≠ some .endTask := by
    rintro task rfl
    simpa [Regular, Act.regular] using hreg
  refine ⟨?_, ?_, ?_, ?_, fun d => ?_, ?_, ?_⟩
  · rw [callerNext_threads]; exact h.size
  · rw [callerNext_workerNum]; exact h.num
  · rw [hm]; exact h.place
  · rw [callerNext_workers]; exact h.stays
  · exact update_of (P := fun cl : Caller => cl.task ≠ some .endTask)
      (fun _ => callerAct_task htask (h.tasks c)) fun _ => h.tasks d
  · exact fun hb hq => h.queue (hbegun hb) (endTask_of_callerNext (h.tasks c) hq)
  · rw [callerNext_workers]
    exact fun hb => h.early (hbegun hb)

/-! ## The conditions of the shutdown theorems -/

/-- A fixed pool in a run. -/
structure FixedPool (n : ℕ) (s : Pool) : Prop where
  accounts : Accounts s
  fixed : FixedInv n s
  stopping : Stopping s

theorem FixedPool.init (ids : LiveIds (fixedThreadPool n).corePoolSize) :
    FixedPool n (initPool (fixedThreadPool n) ids) := ⟨.init ids, .init ids, .init ids⟩

theorem FixedPool.noGrowth {a : Act} (h : FixedPool n s) (hen : Enabled s a) : NoGrowth s a := by
  rintro id rfl
  exact h.fixed.place.1 hen.1

theorem FixedPool.stopsAll {a : Act} (h : FixedPool n s) (hen : Enabled s a) : StopsAll s a := by
  cases a with
  | worker w b =>
    cases b with
    | compare =>
      intro _
      have hok := h.accounts.books.ok w
      unfold Worker.Ok at hok
      rw [hen.2.1] at hok
      exact h.fixed.begun (by rw [hok.1]; exact Nat.one_ne_zero)
    | _ => trivial
  | monitor b =>
    cases b with
    | create id => exact absurd rfl (h.noGrowth hen id)
    | _ => trivial
  | _ => trivial

theorem FixedPool.closesAll {a : Act} (h : FixedPool n s) (hen : Enabled s a) (hreg : Regular s a) :
    ClosesAll s a := by
  cases a with
  | monitor b =>
    cases b with
    | create id => exact absurd rfl (h.noGrowth hen id)
    | _ => trivial
  | closer b =>
    cases b with
    | asyncClose w spurious =>
      rintro rfl
      cases hreg
    | _ => trivial
  | _ => trivial

theorem FixedPool.countsAll {a : Act} (hn : 1 ≤ n) (h : FixedPool n s) (hen : Enabled s a) :
    CountsAll s a := by
  cases a with
  | worker w b =>
    cases b with
    | compare => exact fun _ _ e _ => (h.fixed.stays e.2).1
    | _ => trivial
  | caller c b => exact fun _ => ⟨0, by rw [h.fixed.num]; exact hn, (h.fixed.stays 0).1⟩
  | closer b =>
    cases b with
    | setStop =>
      intro hst
      have hbegun := (h.stopping.set (.inl hst)).1
      rw [hen.1] at hbegun; cases hbegun
    | _ => trivial
  | monitor b => trivial

theorem fixedPool_preserved : Preserved (step (fixedThreadPool n)) Regular (FixedPool n) := by
  intro s a t h hP hs
  have hen := (step_eq_some.1 hs).1
  refine ⟨accounts_preserved s a t h.accounts trivial hs, ?_,
    stopping_preserved s a t h.accounts h.stopping (h.stopsAll hen) hs⟩
  obtain ⟨-, rfl⟩ := step_eq_some.1 hs
  have hb := h.accounts.books
  cases a with
  | worker w b => exact fixed_worker hen hb h.fixed
  | monitor b => exact fixed_monitor hen hb h.fixed
  | caller c b => exact fixed_caller hb.locks hP h.fixed
  | closer b => exact fixed_closer hen h.fixed

theorem FixedPool.run {as : List Act} (h : FixedPool n s) (hr : Run (step (fixedThreadPool n)) Regular s as t) :
    FixedPool n t := hr.invariant fixedPool_preserved h

/-- A regular run of a fixed pool closes all workers. -/
theorem FixedPool.run_closesAll {as : List Act} (h : FixedPool n s)
    (hr : Run (step (fixedThreadPool n)) Regular s as t) : Run (step (fixedThreadPool n)) ClosesAll s as t :=
  hr.strengthen fixedPool_preserved (fun _ _ _ hf hP hs => hf.closesAll (step_eq_some.1 hs).1 hP) h

/-- A regular run of a fixed pool counts all workers that stop. -/
theorem FixedPool.run_countsAll {as : List Act} (hn : 1 ≤ n) (h : FixedPool n s)
    (hr : Run (step (fixedThreadPool n)) Regular s as t) : Run (step (fixedThreadPool n)) CountsAll s as t :=
  hr.strengthen fixedPool_preserved (fun _ _ _ hf _ hs => hf.countsAll hn (step_eq_some.1 hs).1) h

/-- `SHUTDOWN` is final. -/
theorem shutDown_final : PreservedUnder (step (fixedThreadPool n)) Regular (FixedPool n)
    fun s => s.state = .shutDown := by
  intro s a t h hst _ hs
  rcases state_step hs with heq | ⟨w, rfl⟩ | rfl
  · exact heq.trans hst
  · obtain ⟨-, rfl⟩ := step_eq_some.1 hs; rfl
  · have hbegun := (h.stopping.set (.inl hst)).1
    rw [(step_eq_some.1 hs).1.1] at hbegun; cases hbegun

/-- If all workers have completed their finish action, shutdown has been requested. -/
theorem FixedPool.requested (hn : 1 ≤ n) (h : FixedPool n s)
    (hdone : ∀ w < s.workerNum, (s.workers w).FinishDone) : s.isRequestShutDown = true := by
  have h0 := hdone 0 (by rw [h.fixed.num]; exact hn)
  exact h.accounts.books.locks.flag_of_begun (h.fixed.begun (by rw [h0.2]; exact Nat.one_ne_zero))

/-! ## The shutdown protocol -/

/-- The shutdown protocol of a fixed pool with `n` workers, in the state `s`. -/
structure FixedProtocol (n : ℕ) (s : Pool) : Prop where
  /-- `m_threads` has `n` entries, those of the `n` workers created. -/
  size : s.threads.length = n ∧ s.workerNum = n
  /-- No worker is asked to close before the closing pass. -/
  closed : ∀ w < n, (s.workers w).isRequestClose = true → s.closer.pc.begun = true
  /-- Once the winning `ShutDown` has returned, each worker starts one further task at most. -/
  further : s.closer.pc = .returned → ∀ bs t, Run (step (fixedThreadPool n)) Regular s bs t →
    ∀ w < n, (t.workers w).started ≤ (s.workers w).started + 1
  /-- When the state is `SHUTDOWN`, all workers have left their loop. -/
  left : s.state = .shutDown → ∀ w < n, (s.workers w).finishCalls = 1
  /-- The state is `SHUTDOWN` as soon as all finish actions are completed. -/
  set : (∀ w < n, (s.workers w).FinishDone) → s.state = .shutDown
  /-- `SHUTDOWN` never changes. -/
  final : s.state = .shutDown → ∀ bs t, Run (step (fixedThreadPool n)) Regular s bs t → t.state = .shutDown
  /-- Once all finish actions are completed, every caller in `ShutDownNow` that waits is notified. -/
  released : (∀ w < n, (s.workers w).FinishDone) → ∀ c, (s.callers c).pc = .waiting →
    (s.callers c).notified = true

/-- **The shutdown protocol of `FixedThreadPool`** holds in every state of every regular run. -/
theorem fixed_protocol (hn : 1 ≤ n) (ids : LiveIds (fixedThreadPool n).corePoolSize) {as : List Act}
    (h : Run (step (fixedThreadPool n)) Regular (initPool (fixedThreadPool n) ids) as s) :
    FixedProtocol n s := by
  have h₀ := FixedPool.init ids
  have hf := h₀.run h
  have hnum := hf.fixed.num
  have hok := hf.accounts.books.ok
  have hset : (∀ w < n, (s.workers w).FinishDone) → s.state = .shutDown := by
    intro hdone
    rw [← hnum] at hdone
    exact (run_owed ids (h₀.run_countsAll hn h) (hf.requested hn hdone)).shutDown hok hdone
  refine ⟨⟨hf.fixed.size, hnum⟩, fun w _ hr => ?_, fun hret bs t hr w hw => ?_, fun hst w hw => ?_, hset,
    fun hst bs t hr => hr.invariant_under fixedPool_preserved shutDown_final hf hst, fun hdone c hc => ?_⟩
  · by_contra hbegun
    rw [(hf.fixed.early (by simpa using hbegun) w).notClosed] at hr
    cases hr
  · have hstay : Run (step (fixedThreadPool n)) NoGrowth s bs t :=
      hr.strengthen fixedPool_preserved (fun s a t h _ hs => h.noGrowth (step_eq_some.1 hs).1) hf
    exact ((run_reached ids (h₀.run_closesAll h) hret).started_le hstay).2 w (hnum ▸ hw)
  · exact (hok w).finished ((hf.stopping.set (.inl hst)).2 w (by rw [hnum]; exact hw))
  · have hwait := h.free.invariant_under accounts_preserved waitersServed_preserved (.init ids)
      (waitersServed_init ids)
    by_contra hn'
    rcases hwait c hc (by simpa using hn') with hst | ⟨w, hw, hpc⟩
    · exact hst (hset hdone)
    · have := (hdone w (hnum ▸ hw)).1
      rw [hpc] at this
      simp at this

/-- A pool with two workers that is shut down. -/
def stopTwo : List Act :=
  [.caller 0 (.shutDown true), .caller 0 (.cas false), .closer .setStop, .closer .lock,
    .closer (.asyncClose 0 false), .closer (.asyncClose 1 false), .closer .threadNum, .closer .pushEnd,
    .closer .pushEnd, .closer .unlock, .closer (.closeMonitor false), .closer .subPush, .closer .notify,
    .caller 0 .resume, .caller 0 .testState, .worker 0 .start, .worker 0 .finish, .worker 0 .count,
    .worker 1 .start, .worker 1 .finish, .worker 1 .count, .worker 1 .compare, .worker 0 .compare,
    .worker 1 .setShutDown, .worker 1 .notifyAll]

theorem fixed_protocol_two : ∃ s, Run (step (fixedThreadPool 2)) Regular
    (initPool (fixedThreadPool 2) (.first 2)) stopTwo s ∧ s.state = .shutDown ∧
      (s.callers 0).notified = true ∧ FixedProtocol 2 s := by
  refine exists_run (I := fun s => s.state = .shutDown ∧ (s.callers 0).notified = true) (by decide +kernel)
    fun s hrun ⟨hst, hn⟩ => ⟨hst, hn, ?_⟩
  exact fixed_protocol Nat.two_pos (.first 2) hrun

end Empool
