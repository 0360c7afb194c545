/-
  When a timed pop gives up.

  `PopTimeWait` returns false by the expiry of its own wait and by nothing else:
  a thread that is woken tests the queue again.  But `pthread_cond_timedwait` may
  return its timeout code after an element has been pushed, and `TimeWait` then
  returns false without another test.  So nothing is left in the queue if nothing
  has been pushed since the last test, and something is if something has been
  pushed and nothing popped; and the same is so of a `WorkerThread` of a
  `ScalingThreadPool` on its way to the idle path (`gives_up_expired`).
-/
import Empool.Queue.WakeUp
import Empool.Scaling.Ends

namespace Empool

open Lts

/-! ## The idle path of a worker -/

section Worker

variable {cfg : Config} {s t : Pool} {wk : Worker} {a : Act} {b : WorkerAct} {w : ℕ}

/-- A worker waits in its pop only if it found the queue empty. -/
theorem workerAct_popWait (h : (workerAct cfg s wk b).1.pc = .popWait) :
    s.taskQueue = [] ∧ (workerAct cfg s wk b).2 = s := by
  cases b with
  | pop | wake =>
    simp only [workerAct, Worker.popTimeWait] at h ⊢
    split at h
    next hq => exact ⟨hq, rfl⟩
    next => cases h
  | start | check | recheck =>
    simp only [workerAct, Worker.checkFunc] at h
    split at h <;> cases h
  | judge | dispatch | finish | compare =>
    simp only [workerAct] at h
    split at h <;> cases h
  | _ => cases h

/-- A worker comes to the idle path by a pop that times out. -/
theorem workerAct_judge (h : (workerAct cfg s wk b).1.pc = .judge) : b = .timeout := by
  cases b with
  | timeout => rfl
  | pop | wake =>
    simp only [workerAct, Worker.popTimeWait] at h
    split at h <;> cases h
  | start | check | recheck =>
    simp only [workerAct, Worker.checkFunc] at h
    split at h <;> cases h
  | judge | dispatch | finish | compare =>
    simp only [workerAct] at h
    split at h <;> cases h
  | _ => cases h

theorem timeout_of_judge (hs : step cfg s a = some t) (ht : (t.workers w).pc = .judge)
    (hne : (s.workers w).pc ≠ .judge) : a = .worker w .timeout := by
  have hm := worker_move hs w
  generalize t.workers w = wk at hm ht
  cases hm with
  | same | close => exact absurd ht hne
  | act hen => rw [workerAct_judge ht]
  | create => cases ht

/-- Since the worker `w` last tested the queue, and found it empty, it has waited. -/
theorem run_popWait {ids : LiveIds cfg.corePoolSize} {as : List Act}
    (h : Run (step cfg) Free (initPool cfg ids) as s) (hpc : (s.workers w).pc = .popWait) :
    ∃ as₁ b as₂ u, as = as₁ ++ .worker w b :: as₂ ∧ Run (step cfg) Free (initPool cfg ids) (as₁ ++ [.worker w b]) u ∧
      Run (step cfg) Free u as₂ s ∧ (∀ b, .worker w b ∉ as₂) ∧ u.taskQueue = [] := by
  have hsince := h.since (p := fun a => ∃ b, a = .worker w b) (I := fun s => (s.workers w).pc = .popWait)
    (J := fun s => s.taskQueue = []) ?_ ?_ hpc
  · rcases hsince with ⟨hstart, -⟩ | ⟨as₁, a, as₂, u, has, ⟨b, rfl⟩, h₁, hu, h₂, hno⟩
    · cases hstart
    · exact ⟨as₁, b, as₂, u, has, h₁, h₂, fun b hb => hno _ hb ⟨b, rfl⟩, hu⟩
  · intro s a t ha hs ht
    have hm := worker_move hs w
    generalize t.workers w = wk at hm ht
    cases hm with
    | same | close => exact ht
    | @act _ b hen => exact absurd ⟨b, rfl⟩ ha
    | create => cases ht
  · rintro s _ t ⟨b, rfl⟩ hs ht
    obtain ⟨-, rfl⟩ := step_eq_some.1 hs
    have ht : ((workerNext cfg s w b).workers w).pc = .popWait := ht
    rw [workerNext_self] at ht
    obtain ⟨hq, heq⟩ := workerAct_popWait ht
    show (workerAct cfg s (s.workers w) b).2.taskQueue = []
    rw [heq, hq]

/-- No step takes back a pop. -/
theorem popped_preserved (n : ℕ) : Preserved (step cfg) Free fun s =>
    s.pushed = s.popped ++ s.taskQueue ∧ n ≤ s.popped.length := by
  rintro s a t ⟨hb, hn⟩ ha hs
  have hb' := pushed_preserved s a t hb ha hs
  refine ⟨hb', hn.trans ?_⟩
  have hlen := congrArg List.length hb
  have hlen' := congrArg List.length hb'
  rw [List.length_append] at hlen hlen'
  cases queueMove_of_step hs with
  | same hq hp =>
    rw [hq, hp] at hlen'
    omega
  | push u hq hp =>
    rw [hq, hp, List.length_append, List.length_append] at hlen'
    omega
  | pop u w hw hpc hheld hq hp =>
    rw [hp] at hlen'
    rw [hq, List.length_cons] at hlen
    omega

/-- A worker takes the idle path by the expiry of its wait.  The queue is empty then if nothing has been pushed
    since the worker last tested it, and not empty if something has been pushed and nothing popped. -/
theorem idle_expired {ids : LiveIds cfg.corePoolSize} {as : List Act}
    (h : Run (step cfg) Free (initPool cfg ids) as s) (hs : step cfg s a = some t)
    (ht : (t.workers w).pc = .judge) (hne : (s.workers w).pc ≠ .judge) : a = .worker w .timeout ∧
      t.taskQueue = s.taskQueue ∧ (t.workers w).runningTask = (s.workers w).runningTask ∧
      ∃ as₁ b as₂ u, as = as₁ ++ .worker w b :: as₂ ∧
        Run (step cfg) Free (initPool cfg ids) (as₁ ++ [.worker w b]) u ∧ Run (step cfg) Free u as₂ s ∧
        (∀ b, .worker w b ∉ as₂) ∧ u.taskQueue = [] ∧ (t.pushed.length = u.pushed.length → t.taskQueue = []) ∧
        (t.popped.length = u.popped.length → t.pushed.length ≠ u.pushed.length → t.taskQueue ≠ []) := by
  obtain rfl := timeout_of_judge hs ht hne
  obtain ⟨hen, rfl⟩ := step_eq_some.1 hs
  obtain ⟨as₁, b, as₂, u, has, h₁, h₂, hno, hu⟩ := run_popWait h hen.2.1
  have hbooks : u.pushed = u.popped ++ u.taskQueue := h₁.invariant pushed_preserved rfl
  obtain ⟨hbooks', hle⟩ := h₂.invariant (popped_preserved u.popped.length) ⟨hbooks, Nat.le_refl _⟩
  have hlen := congrArg List.length hbooks
  have hlen' := congrArg List.length hbooks'
  rw [List.length_append] at hlen hlen'
  rw [hu, List.length_nil] at hlen
  refine ⟨rfl, rfl, by rw [next, workerNext_self]; rfl, as₁, b, as₂, u, has, h₁, h₂, hno, hu, fun hpush => ?_,
    fun hpop hpush hq => ?_⟩
  · have hpush : s.pushed.length = u.pushed.length := hpush
    show s.taskQueue = []
    rw [← List.length_eq_zero_iff]
    omega
  · have hpop : s.popped.length = u.popped.length := hpop
    have hpush : s.pushed.length ≠ u.pushed.length := hpush
    have hq : s.taskQueue = [] := hq
    rw [hq, List.length_nil] at hlen'
    omega

end Worker

/-! ## The queue and the pool -/

/-- A `PopTimeWait` returns false by the expiry of its own wait, leaves `elem` alone, and no statement of the call
    has touched the queue.  The queue is empty then if nothing has been pushed since the call last tested it, and
    not empty if something has been pushed and nothing popped; so it is for a worker that takes the idle path. -/
theorem gives_up_expired {α : Type} (q : List α) (cfg : Config) (ids : LiveIds cfg.corePoolSize) :
    (∀ as s, Run BlockingQueue.step Free (.create q) as s → ∀ c,
      ((s.threads c).pc = .unlock false → (s.NoPushSince c → s.queue = []) ∧
        (s.NoPopSince c → ¬ s.NoPushSince c → s.queue ≠ []) ∧ (s.threads c).elem = (s.threads c).given) ∧
      ∀ a t, BlockingQueue.step s a = some t →
        (a.thread = c → (s.threads c).pc.before → t.queue = s.queue) ∧
        ((t.threads c).pc = .unlock false → (s.threads c).pc ≠ .unlock false →
          a = .expire c ∧ ∃ n, (s.threads c).pc = .wait .popTimeWait n)) ∧
    ∀ as s a t w, Run (step cfg) Free (initPool cfg ids) as s → step cfg s a = some t →
      (t.workers w).pc = .judge → (s.workers w).pc ≠ .judge → a = .worker w .timeout ∧
        t.taskQueue = s.taskQueue ∧ (t.workers w).runningTask = (s.workers w).runningTask ∧
        ∃ as₁ b as₂ u, as = as₁ ++ .worker w b :: as₂ ∧
          Run (step cfg) Free (initPool cfg ids) (as₁ ++ [.worker w b]) u ∧ Run (step cfg) Free u as₂ s ∧
          (∀ b, .worker w b ∉ as₂) ∧ u.taskQueue = [] ∧ (t.pushed.length = u.pushed.length → t.taskQueue = []) ∧
          (t.popped.length = u.popped.length → t.pushed.length ≠ u.pushed.length → t.taskQueue ≠ []) := by
  refine ⟨fun as s h c => ⟨fun hpc => ?_, fun a t hs => ⟨?_, ?_⟩⟩,
    fun as s a t w h hs ht hne => idle_expired h hs ht hne⟩
  · have hb : s.Booked := h.invariant BlockingQueue.booked_step (BlockingQueue.booked_create q)
    have hwaits : (s.threads c).pc.waits := by
      rw [hpc]
      exact rfl
    refine ⟨hb.empty hwaits, hb.nonempty hwaits, hb.elem c ?_⟩
    rw [hpc]
    exact rfl
  · rintro rfl hb
    exact (BlockingQueue.Trans.of_step hs).queue hb
  · exact (BlockingQueue.Trans.of_step hs).gives_up

/-! ## Runs -/

namespace BlockingQueue

/-- The thread 0 waits in `PopTimeWait`. -/
def popWaits : List (Act ℕ) := [.take 0 .popTimeWait (some 9), .next 0, .next 0]

/-- The thread 1 calls `Push(5)`. -/
def pushes : List (Act ℕ) := [.push 1 5, .next 1, .next 1, .next 1, .next 1]

end BlockingQueue

/-- The worker 0 waits in its pop. -/
def workerWaits : List Act := [.worker 0 .start, .worker 0 .check, .worker 0 .pop]

/-- A task is added. -/
def callerAdds : List Act := [.caller 0 (.addTask (some (.user 7))), .caller 0 .load, .caller 0 .push]

/-- Where nothing is pushed, a consumer gives up with an empty queue, and so does a worker. -/
theorem gives_up_expired_two :
    (∃ s, Run BlockingQueue.step Free (.create []) (BlockingQueue.popWaits ++ [.expire 0]) s ∧
      (s.threads 0).pc = .unlock false ∧ s.queue = [] ∧ (s.threads 0).elem = (s.threads 0).given) ∧
    ∃ s t, Run (step ⟨1, 1⟩) Free (initPool ⟨1, 1⟩ (.first 1)) workerWaits s ∧
      step ⟨1, 1⟩ s (.worker 0 .timeout) = some t ∧ t.taskQueue = s.taskQueue := by
  have hall := gives_up_expired ([] : List ℕ) ⟨1, 1⟩ (.first 1)
  constructor
  · refine exists_run (I := fun s => (s.threads 0).pc = .unlock false ∧ s.NoPushSince 0) (by decide)
      fun s hrun ⟨hpc, hno⟩ => ?_
    obtain ⟨hempty, -, helem⟩ := (hall.1 _ s hrun 0).1 hpc
    exact ⟨hpc, hempty hno, helem⟩
  · obtain ⟨s, hrun, hpc, hen⟩ : ∃ s, Run (step ⟨1, 1⟩) Free (initPool ⟨1, 1⟩ (.first 1)) workerWaits s ∧
        (s.workers 0).pc ≠ .judge ∧ Enabled s (.worker 0 .timeout) :=
      exists_run (by decide) fun _ _ h => h
    have hs : step ⟨1, 1⟩ s (.worker 0 .timeout) = some (workerNext ⟨1, 1⟩ s 0 .timeout) :=
      step_eq_some.2 ⟨hen, rfl⟩
    have hjudge : ((workerNext ⟨1, 1⟩ s 0 .timeout).workers 0).pc = .judge := by
      rw [workerNext_self]
      rfl
    obtain ⟨-, hq, -⟩ := hall.2 _ s _ _ 0 hrun hs hjudge hpc
    exact ⟨s, _, hrun, hs, hq⟩

/-- The wait expires, an element is pushed, and the thread that has the mutex again returns false. -/
theorem gives_up_too_early :
    (¬ ∀ as (s : BlockingQueue ℕ) c, Run BlockingQueue.step Free (.create []) as s →
      (s.threads c).pc = .unlock false → s.queue = []) ∧
    ¬ ∀ cfg ids as s a t w, Run (step cfg) Free (initPool cfg ids) as s → step cfg s a = some t →
      (t.workers w).pc = .judge → (s.workers w).pc ≠ .judge → t.taskQueue = [] := by
  refine ⟨fun hall => ?_, fun hall => ?_⟩
  · obtain ⟨s, hrun, hpc, hq⟩ : ∃ s, Run BlockingQueue.step Free (.create [])
        (BlockingQueue.popWaits ++ BlockingQueue.pushes ++ [.expire 0]) s ∧
        (s.threads 0).pc = .unlock false ∧ s.queue = [5] := exists_run (by decide) fun _ _ h => h
    have hempty := hall _ s 0 hrun hpc
    rw [hq] at hempty
    cases hempty
  · obtain ⟨s, hrun, hpc, hen, hq⟩ : ∃ s, Run (step ⟨1, 1⟩) Free (initPool ⟨1, 1⟩ (.first 1))
        (workerWaits ++ callerAdds) s ∧ (s.workers 0).pc ≠ .judge ∧ Enabled s (.worker 0 .timeout) ∧
        s.taskQueue = [.user 7] := exists_run (by decide) fun _ _ h => h
    have hjudge : ((workerNext ⟨1, 1⟩ s 0 .timeout).workers 0).pc = .judge := by
      rw [workerNext_self]
      rfl
    have hempty := hall ⟨1, 1⟩ (.first 1) _ s _ _ 0 hrun (step_eq_some.2 ⟨hen, rfl⟩) hjudge hpc
    have hkeep : (workerNext ⟨1, 1⟩ s 0 .timeout).taskQueue = s.taskQueue := rfl
    rw [show next ⟨1, 1⟩ s (.worker 0 .timeout) = workerNext ⟨1, 1⟩ s 0 .timeout from rfl, hkeep, hq] at hempty
    cases hempty

end Empool
