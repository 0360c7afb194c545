/-
  Retiring a worker and removing it: can the monitor, which holds the guard
  while it joins, wait for a worker that waits for the guard?

  A retiring worker locks the guard twice, to list its id and to signal the
  monitor.  If the monitor locks it in between, it finds the id and joins a
  worker that cannot go on (`join_blocked`, `entangled_forever`).
-/
import Empool.Scaling.Backlog

namespace Empool

open Lts

variable {cfg : Config} {s t : Pool}

/-- A retiring worker at this statement has still to lock the guard before it ends. -/
def Worker.locksLater (wk : Worker) : Bool := wk.pc ≠ .notifyFinished && wk.pc ≠ .ended

/-- The monitor joins the worker `w`. -/
def Joins (s : Pool) (w : ℕ) : Prop :=
  (s.monitor.pc = .join ∧ s.monitor.victim.2 = w) ∨ (s.monitor.pc = .joinNew ∧ s.monitor.newWorker = w)

instance (s : Pool) (w : ℕ) : Decidable (Joins s w) := inferInstanceAs (Decidable (_ ∧ _ ∨ _ ∧ _))

/-- The monitor holds the guard and joins a worker that has still to lock it. -/
def JoinBlocked (s : Pool) : Prop :=
  s.guard = some .monitor ∧ ∃ w, Joins s w ∧ (s.workers w).locksLater = true

/-- The monitor takes the guard only when no worker is between its two acquisitions of it, and the
    id of a worker it starts is not the id of an entry. -/
def TakesGuardLate (s : Pool) : Act → Prop
  | .monitor (.create id) => s.isRequestShutDown = false → FreshId s id
  | .monitor b => b.locks = true → s.isRequestShutDown = false →
      ∀ w < s.workerNum, (s.workers w).pc ≠ .subNotify
  | _ => True

instance (s : Pool) : (a : Act) → Decidable (TakesGuardLate s a)
  | .monitor (.create _) => inferInstanceAs (Decidable (_ → _))
  | .monitor .start | .monitor .check | .monitor .lock | .monitor .wake | .monitor .timeout
  | .monitor .recheck | .monitor .grow | .monitor .insert | .monitor .joinNew | .monitor .find
  | .monitor .join | .monitor .clear | .monitor .finish =>
    inferInstanceAs (Decidable (_ → _ → ∀ w < _, _))
  | .worker _ _ | .caller _ _ | .closer _ => inferInstanceAs (Decidable True)

/-- While the monitor holds the guard, no worker is between its two acquisitions, and no new
    worker is refused by `m_threads`. -/
structure JoinsFreely (s : Pool) : Prop where
  between : s.monitor.pc.holds = true → ∀ w < s.workerNum, (s.workers w).pc ≠ .subNotify
  accepts : Accepts s

/-- A worker that is between its two acquisitions is there before the step, unless the step is
    its first acquisition. -/
theorem subNotify_of_step {a : Act} (hs : step cfg s a = some t) {v : ℕ}
    (h : (t.workers v).pc = .subNotify) (ha : a ≠ .worker v .subPush) :
    (s.workers v).pc = .subNotify := by
  have hm := worker_move hs v
  generalize t.workers v = wk at hm h
  cases hm with
  | same => exact h
  | @act _ b hen =>
    revert h
    cases b with
    | subPush => exact absurd rfl ha
    | start | check | recheck | pop | wake | judge | dispatch | finish | compare =>
      simp only [workerAct, Worker.popTimeWait, Worker.checkFunc]
      split <;> intro h <;> cases h
    | _ => intro h; cases h
  | close => exact h
  | create => cases h

theorem between_monitor {b : MonitorAct} (hen : Enabled s (.monitor b))
    (hP : TakesGuardLate s (.monitor b)) (hf : s.isRequestShutDown = false) (h : JoinsFreely s)
    (hh : (monitorAct cfg s b).monitor.pc.holds = true) :
    ∀ w < s.workerNum, (s.workers w).pc ≠ .subNotify := by
  have hpc := hen.1
  cases b with
  | lock | wake | timeout => exact hP rfl hf
  | start | check =>
    -- the monitor does not hold the guard afterwards
    simp only [monitorAct, Pool.monitorAt] at hh
    split at hh <;> cases hh
  | finish => cases hh
  | _ => exact h.between (by rw [hpc]; rfl)

/-- Under `TakesGuardLate` the monitor joins freely until shutdown is requested. -/
theorem joinsFreely_preserved : PreservedUnder (step cfg) TakesGuardLate Books
    fun s => s.isRequestShutDown = false → JoinsFreely s := by
  intro s a t hb h hP hs hf
  have hf₀ := flag_mono hs hf
  obtain ⟨hbetween, hacc⟩ := h hf₀
  refine ⟨fun hh w hw hsub => ?_, accepts_step hb hacc (fun id ha => by subst ha; exact hP hf₀) hs⟩
  rcases worker_new hs hw with hlt | ⟨id, -, -, hnew⟩
  swap
  · rw [hnew] at hsub; cases hsub
  have hs' := hs
  obtain ⟨hen, rfl⟩ := step_eq_some.1 hs
  cases a with
  | worker v b =>
    obtain ⟨n, hm⟩ := @workerNext_monitor cfg s v b
    rw [next, hm] at hh
    refine hbetween hh w hlt (subNotify_of_step hs' hsub ?_)
    -- the first acquisition has to wait for the monitor
    rintro ⟨⟩
    have hg := hb.locks.monitor.2 hh
    rw [hen.2.2 rfl] at hg; cases hg
  | caller c b =>
    obtain ⟨n, hm⟩ := @callerNext_monitor cfg s c b
    rw [next, hm] at hh
    exact hbetween hh w hlt (subNotify_of_step hs' hsub (by simp))
  | monitor b =>
    exact between_monitor hen hP hf₀ ⟨hbetween, hacc⟩ hh w hlt (subNotify_of_step hs' hsub (by simp))
  | closer b => exact absurd hen (hb.locks.no_closer hf₀ b)

theorem JoinsFreely.not_blocked (hb : Books s) (h : JoinsFreely s) : ¬ JoinBlocked s := by
  rintro ⟨-, w, ⟨hj, rfl⟩ | ⟨hj, -⟩, hw⟩
  · obtain ⟨hmem, hid⟩ := hb.pending.joining hj
    obtain ⟨hr, hne⟩ := hb.pending.iter (by rw [hj]; rfl) _ hid s.monitor.victim.2 hmem
    have hnot := h.between (by rw [hj]; rfl) _ (hb.entries.entry _ hmem).2.1
    -- a worker that is listed and past its second acquisition
    have hok := hb.ok s.monitor.victim.2
    unfold Worker.Ok at hok
    simp only [Worker.locksLater, Bool.and_eq_true, decide_eq_true_eq] at hw
    cases hpc : (s.workers s.monitor.victim.2).pc <;> simp_all
  · exact h.accepts.accepted hj

/-- **Removing a retired worker does not deadlock**: in every run whose steps meet
    `TakesGuardLate`, until shutdown is requested the monitor never holds the guard while it
    joins a worker that has still to lock it. -/
theorem never_join_blocked (ids : LiveIds cfg.corePoolSize) {as : List Act}
    (h : Run (step cfg) TakesGuardLate (initPool cfg ids) as s) (hf : s.isRequestShutDown = false) :
    ¬ JoinBlocked s := by
  have hbooks : Preserved (step cfg) TakesGuardLate Books := books_preserved.imp fun _ _ _ => trivial
  have hj := h.invariant_under hbooks joinsFreely_preserved (.init ids) fun _ =>
    ⟨by simp [initPool, MonitorPc.holds], .init ids⟩
  exact (hj hf).not_blocked (run_books ids h.free)

/-! ## The deadlock -/

/-- The monitor joins `w`, which waits for the guard. -/
def Entangled (w : ℕ) (s : Pool) : Prop :=
  s.monitor.pc = .join ∧ s.monitor.victim.2 = w ∧ (s.workers w).pc = .subNotify ∧ w < s.workerNum

theorem entangled_worker {w : ℕ} (hb : Books s) (h : Entangled w s) {a : Act}
    (hs : step cfg s a = some t) : (t.workers w).pc = .subNotify := by
  obtain ⟨hpc, -, hw, hlt⟩ := h
  have hguard : s.guard = some .monitor := hb.locks.monitor.2 (by rw [hpc]; rfl)
  have hm := worker_move hs w
  generalize t.workers w = wk at hm ⊢
  cases hm with
  | same => exact hw
  | @act _ b hen =>
    obtain ⟨-, hat, hg⟩ := hen
    rw [hw] at hat
    cases b <;> cases hat
    rw [hguard] at hg
    cases hg rfl
  | close => exact hw
  | create => exact absurd hlt (Nat.lt_irrefl _)

/-- No step of any thread resolves it. -/
theorem entangled_preserved (w : ℕ) : PreservedUnder (step cfg) Free Books (Entangled w) := by
  intro s a t hb h _ hs
  have hw := entangled_worker hb h hs
  obtain ⟨hpc, hv, hsub, hlt⟩ := h
  have hlt' := Nat.lt_of_lt_of_le hlt (workerNum_le hs)
  suffices hm : t.monitor.pc = s.monitor.pc ∧ t.monitor.victim = s.monitor.victim from
    ⟨hm.1.trans hpc, by rw [hm.2]; exact hv, hw, hlt'⟩
  obtain ⟨hen, rfl⟩ := step_eq_some.1 hs
  cases a with
  | worker v b =>
    obtain ⟨n, hm⟩ := @workerNext_monitor cfg s v b
    rw [next, hm]; exact ⟨rfl, rfl⟩
  | caller c b =>
    obtain ⟨n, hm⟩ := @callerNext_monitor cfg s c b
    rw [next, hm]; exact ⟨rfl, rfl⟩
  | monitor b =>
    -- the join waits for the end of the worker
    obtain ⟨hat, -, hr⟩ := hen
    rw [hpc] at hat
    cases b <;> cases hat
    rw [MonitorAct.ready, hv, hsub] at hr; cases hr
  | closer b => cases b <;> exact ⟨rfl, rfl⟩

/-- Once the monitor joins a worker that waits for the guard, it does so forever. -/
theorem entangled_forever {w : ℕ} (hb : Books s) (h : Entangled w s) {as : List Act}
    (hr : Run (step cfg) Free s as t) : JoinBlocked t := by
  have hbt := hr.invariant books_preserved hb
  obtain ⟨hpc, hv, hsub, -⟩ := hr.invariant_under books_preserved (entangled_preserved w) hb h
  refine ⟨hbt.locks.monitor.2 (by rw [hpc]; rfl), w, .inl ⟨hpc, hv⟩, ?_⟩
  simp [Worker.locksLater, hsub]

/-- The monitor takes the guard and finds the id. -/
def joinFirst : List Act := [.monitor .lock, .monitor .recheck, .monitor .grow, .monitor .find]

/-- The monitor joins a worker that waits for the guard. -/
theorem join_blocked : ∃ s, Run (step ⟨2, 3⟩) Free (initPool ⟨2, 3⟩ (.first 2))
    (bothWait ++ addTaskCalls 0 1025 ++ (grow ++ retireFirst ++ joinFirst)) s ∧
      s.isRequestShutDown = false ∧ JoinBlocked s :=
  exists_runWith (I := fun s => s.isRequestShutDown = false ∧ s.guard = some .monitor ∧ Joins s 0 ∧
    (s.workers 0).locksLater = true) (fun _ _ _ => trivial) (by decide +kernel)
    fun _ _ ⟨hf, hg, hj, hl⟩ => ⟨hf, hg, 0, hj, hl⟩

/-- Where the worker has ended before the monitor takes the guard, the join is free. -/
theorem never_join_blocked_one : ∃ s, Run (step ⟨2, 3⟩) TakesGuardLate (initPool ⟨2, 3⟩ (.first 2))
    (bothWait ++ addTaskCalls 0 1025 ++ (grow ++ retireFirst ++ [.worker 0 .subNotify] ++ joinFirst)) s ∧
      Joins s 0 ∧ ¬ JoinBlocked s := by
  refine exists_runWith (I := fun s => Joins s 0 ∧ s.isRequestShutDown = false) (fun _ _ _ => trivial)
    (by decide +kernel) fun s hrun ⟨hj, hf⟩ => ⟨hj, ?_⟩
  exact @never_join_blocked ⟨2, 3⟩ s (.first 2) _ hrun hf

end Empool
