/-
  The tasks of a `FixedThreadPool` are run.

  A task that has been pushed is popped by some worker, as long as shutdown is
  not requested: until the queue is empty the worker 0 comes to its next pop
  (`loop_rank`), and each pop brings the task nearer to the front.  The worker
  that has popped it runs it.  So every task that is pushed is completed, or
  shutdown is requested (`fixed_tasks_run`).
-/
import Empool.Scaling.Terminate
import Empool.Scaling.Tasks
import Empool.Scaling.Ends

namespace Empool

open Lts Handoff

variable {cfg : Config} {n : ℕ} {s t : Pool} {a : Act} {w : ℕ}

/-- A fixed pool with the account of its tasks. -/
structure FixedAccount (n : ℕ) (s : Pool) : Prop where
  fixed : FixedPool n s
  live : s.Live
  order : s.pushed = s.popped ++ s.taskQueue
  balanced : s.ledger.Balanced

theorem ledger_init (ids : LiveIds cfg.corePoolSize) : (initPool cfg ids).ledger.Balanced := by
  have hheld : (List.range cfg.corePoolSize).filterMap (Worker.holding ∘ (initPool cfg ids).workers) = [] := by
    refine List.filterMap_eq_nil_iff.2 fun w _ => ?_
    simp [initPool, Worker.create, Worker.holding]
  refine ⟨[], rfl, ?_⟩
  rw [show (initPool cfg ids).ledger.held = [] from hheld]
  exact .refl _

theorem FixedAccount.init (ids : LiveIds (fixedThreadPool n).corePoolSize) :
    FixedAccount n (initPool (fixedThreadPool n) ids) := ⟨.init ids, .init ids, rfl, ledger_init ids⟩

theorem fixedAccount_preserved (hn : 1 ≤ n) : Preserved (step (fixedThreadPool n)) Regular (FixedAccount n) := by
  intro s a t h hreg hs
  have hP := h.fixed.unspoiled hn hreg (step_eq_some.1 hs).1
  refine ⟨fixedPool_preserved s a t h.fixed hreg hs, live_preserved s a t h.live hP hs,
    pushed_preserved s a t h.order trivial hs, ?_⟩
  rcases ledger_step hreg.noThrow hs with heq | hstep
  · rw [heq]
    exact h.balanced
  · exact h.balanced.step hstep

/-! ## The pops -/

/-- A step pops the front of the queue, or it pops nothing. -/
theorem popped_step (h : s.pushed = s.popped ++ s.taskQueue) (hs : step cfg s a = some t) :
    (∃ u, t.popped = s.popped ++ [u]) ∨ t.popped = s.popped ∧ ∃ us, t.taskQueue = s.taskQueue ++ us := by
  have h' : t.pushed = t.popped ++ t.taskQueue := pushed_preserved s a t h trivial hs
  cases queueMove_of_step hs with
  | same hq hp =>
    rw [hp, h, hq] at h'
    exact .inr ⟨(List.append_cancel_right h').symm, [], by rw [hq, List.append_nil]⟩
  | push u hq hp =>
    rw [hp, h, hq, ← List.append_assoc] at h'
    exact .inr ⟨(List.append_cancel_right (List.append_cancel_right h')).symm, [u], hq⟩
  | pop u w hw hpc hheld hq hp =>
    rw [hp, h, hq, ← List.singleton_append, ← List.append_assoc] at h'
    exact .inl ⟨u, (List.append_cancel_right h').symm⟩

/-! ## The worker comes to its next pop -/

/-- The statements of a worker in its loop until it takes a task, if there is one. -/
def WorkerPc.popRank : WorkerPc → ℕ
  | .popWait | .dispatch => 4
  | .start | .recheck | .judge | .running => 3
  | .check => 2
  | .pop => 1
  | _ => 0

/-- The worker is in its loop and stays there. -/
structure Worker.Serving (wk : Worker) : Prop where
  untouched : wk.Untouched
  ok : wk.Ok
  reported : wk.Reported
  stays : wk.pc ≠ .asyncClose

/-- Each of its statements takes a task, or brings it nearer to its next pop. -/
theorem loop_rank {wk : Worker} {b : WorkerAct} (h : wk.Serving) (hpc : wk.pc = b.at) (hb : b ≠ .runThrow)
    (hmore : s.ifMoreThan cfg = false) (hq : s.taskQueue ≠ []) :
    (∃ u, (workerAct cfg s wk b).2.popped = s.popped ++ [u]) ∨
      (workerAct cfg s wk b).1.pc.popRank < wk.pc.popRank := by
  obtain ⟨⟨hr, h0, hend⟩, hok, hrep, hne⟩ := h
  unfold Worker.Ok at hok
  rw [hpc] at hok hne ⊢
  cases b with
  | start | check | recheck =>
    right
    simp [workerAct, Worker.checkFunc, hr, WorkerPc.popRank, WorkerAct.at]
  | pop | wake =>
    left
    obtain ⟨u, q, hq⟩ := List.exists_cons_of_ne_nil hq
    exact ⟨u, by simp [workerAct, Worker.popTimeWait, hq]⟩
  | timeout | runReturn => exact .inr (Nat.lt_succ_self _)
  | judge =>
    right
    simp [workerAct, hmore, WorkerPc.popRank, WorkerAct.at]
  | asyncClose => exact absurd rfl hne
  | dispatch =>
    right
    cases hrun : wk.runningTask with
    | none => simp [workerAct, hrun, WorkerPc.popRank, WorkerAct.at]
    | some u =>
      cases u with
      | endTask => exact absurd hrun hend
      | user i => simp [workerAct, hrun, WorkerPc.popRank, WorkerAct.at]
  | runThrow => exact absurd rfl hb
  | _ => simp [h0, WorkerAct.at] at hok

/-- Before shutdown is requested, the workers of a fixed pool serve. -/
theorem FixedAccount.serving (h : FixedAccount n s) (hf : s.isRequestShutDown = false) (w : ℕ) :
    (s.workers w).Serving := by
  have hidle := h.fixed.accounts.books.locks.flag.1 hf
  exact ⟨h.fixed.fixed.early (by rw [hidle]; rfl) w, h.fixed.accounts.books.ok w, (h.live.reported w).2,
    (h.fixed.fixed.stays w).2⟩

theorem pushed_grows (hs : step cfg s a = some t) : s.pushed <+: t.pushed := by
  cases queueMove_of_step hs with
  | same hq hp => rw [hp]
  | push u hq hp => exact hp ▸ List.prefix_append s.pushed [u]
  | pop u w hw hpc hheld hq hp => rw [hp]

/-- A worker that holds a task can go on. -/
theorem can_held {i : ℕ} (hlt : w < s.workerNum) (h : (s.workers w).Holds (.user i)) :
    Can (step cfg) (WorkerActs w) s := by
  obtain ⟨-, hpc | hpc⟩ := h
  · exact can_step (a := .worker w .dispatch) ⟨rfl, nofun⟩ ⟨hlt, hpc, nofun⟩
  · exact can_step (a := .worker w .runReturn) ⟨rfl, nofun⟩ ⟨hlt, hpc, nofun⟩

/-- A task that is popped is held by a worker, or completed. -/
theorem FixedAccount.held_or_completed (h : FixedAccount n s) {i : ℕ} (hi : .user i ∈ s.popped) :
    (∃ w < s.workerNum, (s.workers w).Holds (.user i)) ∨ .user i ∈ s.completed := by
  obtain ⟨taken, hent, hperm⟩ := h.balanced
  have htaken : s.popped.filterMap Task.userId = taken := by
    have heq : s.popped.filterMap Task.userId ++ s.ledger.waiting = taken ++ s.ledger.waiting := by
      rw [← hent]
      show _ = s.pushed.filterMap Task.userId
      rw [h.order, List.filterMap_append]
      rfl
    exact List.append_cancel_right heq
  have hmem : i ∈ taken := htaken ▸ List.mem_filterMap.2 ⟨_, hi, rfl⟩
  rcases List.mem_append.1 (hperm.mem_iff.1 hmem) with hheld | hfin
  · obtain ⟨w, hw, hh⟩ := List.mem_filterMap.1 hheld
    exact .inl ⟨w, List.mem_range.1 hw, Worker.holding_eq_some.1 hh⟩
  · obtain ⟨u, hu, hui⟩ := List.mem_filterMap.1 hfin
    cases u with
    | user j => cases hui; exact .inr hu
    | endTask => cases hui

section
variable {p : Path (step (fixedThreadPool n)) Regular} (hV : ∀ k, FixedAccount n (p.state k))
  (hfree : p.LeadsTo (fun _ => True) fun s => s.guard = none)
include hV hfree

/-- If there is a task in the queue, one is popped. -/
theorem leadsTo_popped (hn : 1 ≤ n) (hworker : p.StronglyFair (WorkerActs 0)) (j : ℕ) :
    p.LeadsTo (fun s => s.isRequestShutDown = false ∧ s.taskQueue ≠ [] ∧ s.popped.length = j)
      fun s => s.isRequestShutDown = true ∨ j < s.popped.length := by
  refine hworker.leadsTo_again hV (fun s => (s.workers 0).pc.popRank) (fun s a t h hI hreg hs => ?_) hfree
    fun s h hI hg => ?_
  · obtain ⟨hf, hq, hlen⟩ := hI
    have hlt : 0 < s.workerNum := h.fixed.fixed.num ▸ hn
    cases hf' : t.isRequestShutDown with
    | true => exact .inl (.inl rfl)
    | false =>
      rcases popped_step h.order hs with ⟨u, hu⟩ | ⟨hsame, us, hus⟩
      · left
        right
        rw [hu, List.length_append, hlen]
        exact Nat.lt_succ_self j
      · have hkeep : false = false ∧ t.taskQueue ≠ [] ∧ t.popped.length = j := by
          refine ⟨rfl, fun hnil => ?_, by rw [hsame, hlen]⟩
          rw [hus] at hnil
          exact hq (List.append_eq_nil_iff.1 hnil).1
        right
        by_cases ha : ∃ b, a = .worker 0 b
        · obtain ⟨b, rfl⟩ := ha
          have hb : b ≠ .runThrow := by
            rintro rfl
            cases hreg
          obtain ⟨hen, rfl⟩ := step_eq_some.1 hs
          have hrank := loop_rank (h.serving hf 0) hen.2.1 hb h.fixed.fixed.not_ifMoreThan hq
          rw [← workerNext_self] at hrank
          rcases hrank with ⟨u, hu⟩ | hlt
          · have hnew : s.popped = s.popped ++ [u] := hsame.symm.trans hu
            have := congrArg List.length hnew
            rw [List.length_append, List.length_singleton] at this
            omega
          · exact ⟨hkeep, Nat.le_of_lt hlt, fun _ => hlt⟩
        · obtain ⟨r, hr⟩ := worker_other hs hlt fun b hb => ha ⟨b, hb⟩
          refine ⟨hkeep, Nat.le_of_eq (by rw [hr]), fun hown => ?_⟩
          cases a with
          | worker v b => exact absurd ⟨b, by rw [hown.1]⟩ ha
          | _ => cases hown
  · rcases @can_worker (fixedThreadPool n) s 0 (h.fixed.fixed.num ▸ hn) hg with hend | hcan
    · -- a worker that has ended has finished
      have hserving := h.serving hI.1 0
      have h1 := hserving.reported hend
      rw [hserving.untouched.inLoop] at h1
      cases h1
    · exact .inr hcan

/-- So all that has been pushed is popped. -/
theorem leadsTo_all_popped (hn : 1 ≤ n) (hworker : p.StronglyFair (WorkerActs 0)) (k : ℕ) :
    ∃ m, k ≤ m ∧ ((p.state m).isRequestShutDown = true ∨ (p.state k).pushed <+: (p.state m).popped) := by
  have hgrow : ∀ m, k ≤ m → (p.state k).pushed <+: (p.state m).pushed := fun m hm =>
    Path.stays (V := FixedAccount n) (I := fun s : Pool => (p.state k).pushed <+: s.pushed) hV
      (fun s a t _ hpre _ hs => hpre.trans (pushed_grows hs)) (List.prefix_refl _) hm
  have hlen : ∀ j, j ≤ (p.state k).pushed.length →
      ∃ m, k ≤ m ∧ ((p.state m).isRequestShutDown = true ∨ j ≤ (p.state m).popped.length) := by
    intro j hj
    induction j with
    | zero => exact ⟨k, Nat.le_refl k, .inr (Nat.zero_le _)⟩
    | succ j ih =>
      obtain ⟨m, hkm, hm⟩ := ih (Nat.le_of_succ_le hj)
      cases hf : (p.state m).isRequestShutDown with
      | true => exact ⟨m, hkm, .inl hf⟩
      | false =>
        have hm := hm.resolve_left (by rw [hf]; exact Bool.false_ne_true)
        rcases Nat.eq_or_lt_of_le hm with heq | hlt
        · -- the queue is not empty
          have hq : (p.state m).taskQueue ≠ [] := by
            intro hnil
            have hle := (hgrow m hkm).length_le
            rw [(hV m).order, hnil, List.append_nil, ← heq] at hle
            omega
          obtain ⟨i, hmi, hi⟩ := leadsTo_popped hV hfree hn hworker j m ⟨hf, hq, heq.symm⟩
          exact ⟨i, Nat.le_trans hkm hmi, hi⟩
        · exact ⟨m, hkm, .inr hlt⟩
  obtain ⟨m, hkm, hm⟩ := hlen _ (Nat.le_refl _)
  refine ⟨m, hkm, hm.imp id fun hle => ?_⟩
  have hpop : (p.state m).popped <+: (p.state m).pushed := (hV m).order ▸ List.prefix_append _ _
  exact List.prefix_of_prefix_length_le (hgrow m hkm) hpop hle

omit hfree in
/-- The worker that holds a task runs it. -/
theorem leadsTo_completed (hworker : p.StronglyFair (WorkerActs w)) (i : ℕ) :
    p.LeadsTo (fun s => w < s.workerNum ∧ (s.workers w).Holds (.user i)) fun s => .user i ∈ s.completed := by
  refine hworker.fair.leadsTo hV (fun s => (s.workers w).pc.popRank) (fun s a t h hI hreg hs => ?_)
    fun s h hI => .inr ?_
  · obtain ⟨hlt, hrun, hpc⟩ := hI
    have hlt' := Nat.lt_of_lt_of_le hlt (workerNum_le hs)
    by_cases ha : ∃ b, a = .worker w b
    · obtain ⟨b, rfl⟩ := ha
      obtain ⟨hen, rfl⟩ := step_eq_some.1 hs
      rcases hpc with hpc | hpc <;> have hat := hen.2.1 <;> rw [hpc] at hat
      · cases b <;> cases hat
        right
        rw [next, workerNext_self, hpc]
        simp only [workerAct, hrun]
        exact ⟨⟨hlt', rfl, .inr rfl⟩, by decide, fun _ => by decide⟩
      · cases b <;> cases hat
        · left
          simp [next, workerNext, workerAct, hrun]
        · cases hreg
    · obtain ⟨r, hr⟩ := worker_other hs hlt fun b hb => ha ⟨b, hb⟩
      refine .inr ⟨⟨hlt', by rw [hr]; exact ⟨hrun, hpc⟩⟩, Nat.le_of_eq (by rw [hr]), fun hown => ?_⟩
      cases a with
      | worker v b => exact absurd ⟨b, by rw [hown.1]⟩ ha
      | _ => cases hown
  · exact can_held hI.1 hI.2

/-- A task that has been pushed is popped, and then run by the worker that has popped it. -/
theorem leadsTo_served (hn : 1 ≤ n) (hworkers : ∀ w, p.StronglyFair (WorkerActs w)) (i : ℕ) :
    p.LeadsTo (fun s => .user i ∈ s.pushed) fun s => s.isRequestShutDown = true ∨ .user i ∈ s.completed := by
  intro k hi
  obtain ⟨m, hkm, hf | hpop⟩ := leadsTo_all_popped hV hfree hn (hworkers 0) k
  · exact ⟨m, hkm, .inl hf⟩
  · rcases (hV m).held_or_completed (hpop.subset hi) with ⟨w, hw, hh⟩ | hc
    · obtain ⟨m', hm', hc⟩ := leadsTo_completed hV (hworkers w) i m ⟨hw, hh⟩
      exact ⟨m', Nat.le_trans hkm hm', .inr hc⟩
    · exact ⟨m, hkm, .inr hc⟩

end

/-- **Every task is run**: a task that has been pushed is completed in the end, or shutdown is requested. -/
theorem fixed_tasks_run (hn : 1 ≤ n) {ids : LiveIds (fixedThreadPool n).corePoolSize}
    {p : Path (step (fixedThreadPool n)) Regular} (h₀ : p.state 0 = initPool (fixedThreadPool n) ids)
    (hworkers : ∀ w, p.StronglyFair (WorkerActs w)) (hmonitor : p.StronglyFair MonitorActs)
    (hcloser : p.StronglyFair CloserActs) {k i : ℕ} (hi : .user i ∈ (p.state k).pushed) :
    ∃ m, k ≤ m ∧ ((p.state m).isRequestShutDown = true ∨ .user i ∈ (p.state m).completed) := by
  have hV : ∀ k, FixedAccount n (p.state k) := Path.invariant (fixedAccount_preserved hn) (h₀ ▸ .init ids)
  exact leadsTo_served hV (leadsTo_guard_free (fun k => (hV k).live.guarded) hworkers hmonitor hcloser) hn hworkers
    i k hi

/-- The task is run, and the pool is shut down after it. -/
def runsAndEnds : List Act :=
  [.caller 0 .notify, .worker 0 .start, .worker 0 .check, .worker 0 .pop, .worker 0 .dispatch, .worker 0 .runReturn,
    .caller 0 (.shutDown true), .caller 0 (.cas false), .closer .setStop, .closer .lock,
    .closer (.asyncClose 0 false), .closer .threadNum, .closer .pushEnd, .closer .unlock,
    .closer (.closeMonitor false), .closer .subPush, .closer .notify, .caller 0 .resume, .caller 0 .testState,
    .worker 0 .check, .worker 0 .finish, .worker 0 .count, .worker 0 .compare, .worker 0 .setShutDown,
    .worker 0 .notifyAll, .worker 0 .notifyFinished, .monitor .start, .monitor .finish, .caller 0 .wake]

/-- A task of `FixedThreadPool(1)`. -/
theorem fixed_tasks_run_one : ∃ p : Path (step (fixedThreadPool 1)) Regular,
    p.state 0 = initPool (fixedThreadPool 1) (.first 1) ∧ (p.state 3).taskQueue = [.user 7] ∧
      ∃ m, 3 ≤ m ∧ ((p.state m).isRequestShutDown = true ∨ .user 7 ∈ (p.state m).completed) := by
  obtain ⟨t, ht, ⟨hq, hpushed⟩, u, hu, h1, h2, h3, h4, h5⟩ : ∃ t, Run (step (fixedThreadPool 1)) Regular
      (initPool (fixedThreadPool 1) (.first 1))
      [.caller 0 (.addTask (some (.user 7))), .caller 0 .load, .caller 0 .push] t ∧
      (t.taskQueue = [.user 7] ∧ .user 7 ∈ t.pushed) ∧
      ∃ u ∈ exec (step (fixedThreadPool 1)) Regular t runsAndEnds, u.closer.pc = .returned ∧
        u.monitor.pc = .ended ∧ (∀ w < u.workerNum, (u.workers w).pc = .ended) ∧ u.state = .shutDown ∧
        (u.callers 0).pc = .idle :=
    exists_run (by decide +kernel) fun _ _ h => h
  obtain ⟨p, h₀, hmid, hworkers, hmonitor, hcloser, -⟩ :=
    Terminated.exists_path ht (run_of_exec hu) ⟨h1, h2, h3, h4⟩ h5
  exact ⟨p, h₀, hmid ▸ hq, fixed_tasks_run Nat.one_pos h₀ hworkers hmonitor hcloser (hmid ▸ hpushed)⟩

end Empool
