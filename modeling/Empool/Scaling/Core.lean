/-
  The core size: before shutdown is requested, how many workers are there that
  have not been asked to close?

  A worker decides to retire in one critical section (`IfMoreThan`) and acts on
  it in others, so the size that the next worker reads may count the first one
  still (`core_size_lost`).  Where it counts nobody that is leaving, the check
  keeps the core (`core_size_kept`): the count that shrinks with the decision is
  `staying`, and the number of workers not asked to close, `openNum`, is never
  smaller.
-/
import Empool.Scaling.Backlog
import Empool.Lib.Count

namespace Empool

open Lts

variable {cfg : Config} {s t : Pool}

/-- The worker has been asked to close, or is on its way out of its loop. -/
def Worker.leaving (wk : Worker) : Bool :=
  wk.isRequestClose || wk.pc = .asyncClose || 0 < wk.finishCalls

/-- The number of workers in `m_threads` that have not been asked to close. -/
def openNum (s : Pool) : ℕ := s.members.countP ((fun wk => !wk.isRequestClose) ∘ s.workers)

/-- The number of workers in `m_threads` that are not leaving. -/
def staying (s : Pool) : ℕ := s.members.countP ((fun wk => !wk.leaving) ∘ s.workers)

theorem staying_le_openNum (s : Pool) : staying s ≤ openNum s := by
  refine List.countP_mono_left fun w _ hw => ?_
  simp only [Function.comp_apply, Worker.leaving, Bool.not_or, Bool.and_eq_true] at hw ⊢
  exact hw.1.1

/-- No worker in `m_threads` is leaving. -/
def NoneLeaving (s : Pool) : Prop := ∀ w ∈ s.members, (s.workers w).leaving = false

instance (s : Pool) : Decidable (NoneLeaving s) := inferInstanceAs (Decidable (∀ w ∈ _, _))

/-- Until shutdown is requested, `IfMoreThan` says yes to a worker only while the size it reads counts no worker
    that is leaving already, and no worker takes an `EndTask`, which only a caller could have added. -/
def KeepsCore (cfg : Config) (s : Pool) : Act → Prop
  | .worker _ .judge => s.isRequestShutDown = false → s.ifMoreThan cfg = true → NoneLeaving s
  | .worker w .dispatch => s.isRequestShutDown = false → (s.workers w).runningTask ≠ some .endTask
  | _ => True

instance (s : Pool) : (a : Act) → Decidable (KeepsCore cfg s a)
  | .worker _ .judge => inferInstanceAs (Decidable (_ → _ → _))
  | .worker _ .dispatch => inferInstanceAs (Decidable (_ → _))
  | .worker _ .start | .worker _ .check | .worker _ .pop | .worker _ .wake | .worker _ .timeout
  | .worker _ (.asyncClose _) | .worker _ .recheck | .worker _ .runReturn | .worker _ .runThrow
  | .worker _ .finish | .worker _ .subPush | .worker _ .subNotify | .worker _ .count
  | .worker _ .compare | .worker _ .setShutDown | .worker _ .notifyAll | .worker _ .notifyFinished
  | .monitor _ | .caller _ _ | .closer _ =>
    inferInstanceAs (Decidable True)

/-- Only these two steps take a worker out of its loop that was not leaving. -/
theorem leaving_act {w : ℕ} {b : WorkerAct} (hok : (s.workers w).Ok) (hpc : (s.workers w).pc = b.at)
    (hj : b = .judge → s.ifMoreThan cfg = false)
    (hd : b = .dispatch → (s.workers w).runningTask ≠ some .endTask)
    (h : (s.workers w).leaving = false) : (workerAct cfg s (s.workers w) b).1.leaving = false := by
  generalize s.workers w = wk at *
  simp only [Worker.leaving, Bool.or_eq_false_iff, decide_eq_false_iff_not, Nat.not_lt, Nat.le_zero] at h
  obtain ⟨⟨hr, ha⟩, h0⟩ := h
  unfold Worker.Ok at hok
  rw [hpc] at hok ha
  cases b with
  | start | check | recheck => simp [workerAct, Worker.checkFunc, hr, h0, Worker.leaving]
  | pop | wake =>
    simp only [workerAct, Worker.popTimeWait]
    split <;> simp [Worker.leaving, hr, h0]
  | judge => simp [workerAct, hj rfl, Worker.leaving, hr, h0]
  | asyncClose => simp [WorkerAct.at] at ha
  | dispatch =>
    simp only [workerAct]
    split
    · rename_i hend
      exact absurd hend (hd rfl)
    · simp [Worker.leaving, hr, h0]
    · simp [Worker.leaving, hr, h0]
  | timeout | runReturn | runThrow => simp [workerAct, Worker.leaving, hr, h0]
  | _ => simp [h0, WorkerAct.at] at hok

/-- What `IfMoreThan` tests, if the size counts no worker that is leaving. -/
theorem lt_staying (h : NoneLeaving s) (hj : s.ifMoreThan cfg = true) : cfg.corePoolSize < staying s := by
  have hall : staying s = s.members.length := List.countP_eq_length.2 fun w hw => by
    simp only [Function.comp_apply, h w hw, Bool.not_false]
  rw [hall, Pool.members, List.length_map]
  exact of_decide_eq_true hj

theorem staying_worker {w : ℕ} {b : WorkerAct} (hen : Enabled s (.worker w b)) (hb : Books s)
    (hP : KeepsCore cfg s (.worker w b)) (hf : s.isRequestShutDown = false)
    (h : cfg.corePoolSize ≤ staying s) : cfg.corePoolSize ≤ staying (workerNext cfg s w b) := by
  have hmem : (workerNext cfg s w b).members = s.members := by simp [Pool.members]
  have hnd := hb.entries.nodup
  unfold staying at h ⊢
  rw [hmem, workerNext_workers]
  by_cases hj : b = .judge ∧ s.ifMoreThan cfg = true
  · obtain ⟨rfl, hj⟩ := hj
    -- all workers that `IfMoreThan` has counted are staying, one more than the core
    have hlt : cfg.corePoolSize < s.members.countP ((fun wk => !wk.leaving) ∘ s.workers) :=
      lt_staying (hP hf hj) hj
    exact Nat.le_of_lt_succ (Nat.lt_of_lt_of_le hlt (countP_le_update hnd))
  refine Nat.le_trans h (countP_le_update_of_imp fun hw => ?_)
  have hw : (s.workers w).leaving = false := by simpa using hw
  have := @leaving_act cfg s w b (hb.ok w) hen.2.1 (fun hb' => by simpa [hb'] using hj)
    (fun hb' => by subst hb'; exact hP hf) hw
  simp [this]

/-- A worker whose id is listed has left its loop. -/
theorem Worker.Listed.leaving {wk : Worker} (hok : wk.Ok) (h : wk.Listed) : wk.leaving = true := by
  obtain ⟨hr, hne⟩ := h
  unfold Worker.Ok at hok
  cases hpc : wk.pc <;> simp_all [Worker.leaving]

theorem staying_monitor {b : MonitorAct} (hen : Enabled s (.monitor b)) (hb : Books s) :
    staying s ≤ staying (monitorAct cfg s b) := by
  unfold staying Pool.members
  by_cases hc : ∃ id, b = .create id
  · obtain ⟨id, rfl⟩ := hc
    -- the new worker is in no entry
    have hnew : s.workerNum ∉ s.threads.map Prod.snd := by
      intro hmem
      obtain ⟨e, he, heq⟩ := List.mem_map.1 hmem
      exact Nat.lt_irrefl _ (heq ▸ (hb.entries.entry e he).2.1)
    rw [monitorAct_threads _ (by simp) (by simp)]
    exact Nat.le_of_eq (countP_update_of_notMem hnew).symm
  rw [(monitorAct_workers b fun id h => hc ⟨id, h⟩).1]
  by_cases hi : b = .insert
  · subst hi
    simp only [monitorAct]
    split
    · exact Nat.le_refl _
    · simp only [List.map_append, List.countP_append]
      exact Nat.le_add_right _ _
  by_cases hj : b = .join
  · subst hj
    -- the entry that is erased belongs to a worker that has left
    obtain ⟨hmem, hiter⟩ := hb.pending.joining hen.1
    have hsubs : s.monitor.pc.subs = true := by rw [hen.1]; rfl
    have hl := hb.pending.iter hsubs _ hiter s.monitor.victim.2 hmem
    have hlv := hl.leaving (hb.ok _)
    have hperm := (List.perm_cons_erase hmem).map Prod.snd
    rw [hperm.countP_eq]
    simp [monitorAct, hlv]
  exact Nat.le_of_eq (by rw [monitorAct_threads b hi hj])

/-- Under `KeepsCore` the core keeps staying until shutdown is requested. -/
theorem staying_preserved : PreservedUnder (step cfg) (KeepsCore cfg) Books
    fun s => s.isRequestShutDown = false → cfg.corePoolSize ≤ staying s := by
  intro s a t hb h hP hs hf
  have hf₀ := flag_mono hs hf
  obtain ⟨hen, rfl⟩ := step_eq_some.1 hs
  cases a with
  | worker w b => exact staying_worker hen hb hP hf₀ (h hf₀)
  | caller c b =>
    have : staying (callerNext cfg s c b) = staying s := by simp [staying, Pool.members]
    rw [next, this]
    exact h hf₀
  | monitor b => exact Nat.le_trans (h hf₀) (staying_monitor hen hb)
  | closer b => exact absurd hen (hb.locks.no_closer hf₀ b)

theorem staying_init (ids : LiveIds cfg.corePoolSize) :
    staying (initPool cfg ids) = cfg.corePoolSize := by
  simp [staying, Pool.members, initPool, Worker.leaving, Worker.create, Function.comp_def]

/-- **The pool keeps its core size**: in every run whose steps meet `KeepsCore`, until shutdown is
    requested at least `m_corePoolSize` workers in `m_threads` have not been asked to close. -/
theorem core_size_kept (ids : LiveIds cfg.corePoolSize) {as : List Act}
    (h : Run (step cfg) (KeepsCore cfg) (initPool cfg ids) as s) (hf : s.isRequestShutDown = false) :
    cfg.corePoolSize ≤ openNum s := by
  have hbooks : Preserved (step cfg) (KeepsCore cfg) Books := books_preserved.imp fun _ _ _ => trivial
  have := h.invariant_under hbooks staying_preserved (.init ids) fun _ =>
    Nat.le_of_eq (staying_init ids).symm
  exact Nat.le_trans (this hf) (staying_le_openNum s)

/-! ## A stale answer of `IfMoreThan` -/

/-- Both waits end by their time limit, and both workers see three threads. -/
def bothRetire : List Act :=
  [.worker 0 .timeout, .worker 1 .timeout, .worker 0 .judge, .worker 1 .judge,
    .worker 0 (.asyncClose false), .worker 1 (.asyncClose false)]

/-- With two workers at least and three at most, one is left that is not asked to close. -/
theorem core_size_lost : ∃ s, Run (step ⟨2, 3⟩) Free (initPool ⟨2, 3⟩ (.first 2))
    (bothWait ++ addTaskCalls 0 1025 ++ (grow ++ bothRetire)) s ∧
      s.isRequestShutDown = false ∧ openNum s = 1 :=
  exists_runWith (fun _ _ _ => trivial) (by decide +kernel) fun _ _ h => h

/-- Where only one worker retires on the size of three, the core is kept. -/
theorem core_size_kept_one : ∃ s, Run (step ⟨2, 3⟩) (KeepsCore ⟨2, 3⟩) (initPool ⟨2, 3⟩ (.first 2))
    (bothWait ++ addTaskCalls 0 1025 ++ (grow ++
      [.worker 0 .timeout, .worker 0 .judge, .worker 0 (.asyncClose false), .worker 0 .recheck])) s ∧
      (s.workers 0).pc = .finish ∧ 2 ≤ openNum s := by
  refine exists_runWith (I := fun s => (s.workers 0).pc = .finish ∧ s.isRequestShutDown = false)
    (fun _ _ _ => trivial) (by decide +kernel) fun s hrun ⟨hpc, hf⟩ => ⟨hpc, ?_⟩
  exact @core_size_kept ⟨2, 3⟩ s (.first 2) _ hrun hf

end Empool
