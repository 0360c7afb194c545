/-
  `ShutDown` reaches every worker: how many tasks can a worker start after it
  has returned?

  A worker that is closed starts one task at most, the one it may be about to
  take (`Worker.budget`).  The closing pass closes all workers of `m_threads`;
  a worker that the monitor adds after it is not closed (`backlog_drained`).
-/
import Empool.Scaling.Quiet

namespace Empool

open Lts

variable {cfg : Config} {s t : Pool}

/-- The worker is asked to close, or has left its loop. -/
def Worker.Settled (wk : Worker) : Prop :=
  wk.isRequestClose = true ∨ wk.finishCalls ≠ 0 ∨ wk.pc = .ended

instance (wk : Worker) : Decidable wk.Settled := inferInstanceAs (Decidable (_ ∨ _ ∨ _))

/-- The monitor starts workers only before the closing pass, and the closing pass does not miss a
    worker by a spurious failure of `compare_exchange_weak`. -/
def ClosesAll (s : Pool) : Act → Prop
  | .monitor (.create _) => s.closer.pc.begun = false
  | .closer (.asyncClose w spurious) => spurious = true → (s.workers w).Settled
  | _ => True

instance (s : Pool) : (a : Act) → Decidable (ClosesAll s a)
  | .monitor (.create _) => inferInstanceAs (Decidable (_ = _))
  | .closer (.asyncClose _ _) => inferInstanceAs (Decidable (_ → _))
  | .monitor .start | .monitor .check | .monitor .lock | .monitor .wake | .monitor .timeout
  | .monitor .recheck | .monitor .grow | .monitor .insert | .monitor .joinNew | .monitor .find
  | .monitor .join | .monitor .clear | .monitor .finish | .closer .setStop | .closer .lock
  | .closer .threadNum | .closer .pushEnd | .closer .unlock | .closer (.closeMonitor _)
  | .closer .subPush | .closer .notify | .caller _ _ | .worker _ _ =>
    inferInstanceAs (Decidable True)

theorem Worker.Settled.act {wk : Worker} {b : WorkerAct} (hpc : wk.pc = b.at) (h : wk.Settled) :
    (workerAct cfg s wk b).1.Settled := by
  rcases h with hr | hf | he
  · left
    cases b with
    | start | check | recheck | pop | wake | dispatch | finish =>
      simp only [workerAct, Worker.popTimeWait, Worker.checkFunc]
      split <;> exact hr
    | asyncClose => simp [workerAct, hr]
    | _ => exact hr
  · right; left
    cases b with
    | start | check | recheck | pop | wake | dispatch | finish =>
      simp only [workerAct, Worker.popTimeWait, Worker.checkFunc]
      split <;> first | exact hf | exact Nat.succ_ne_zero _
    | _ => exact hf
  · rw [he] at hpc
    cases b <;> cases hpc

theorem settled_stays {a : Act} (hs : step cfg s a = some t) {v : ℕ} (hv : v < s.workerNum)
    (h : (s.workers v).Settled) : (t.workers v).Settled := by
  have hm := worker_move hs v
  generalize t.workers v = wk at hm ⊢
  cases hm with
  | same => exact h
  | act hen => exact h.act hen.2.1
  | close => exact h.imp (fun hr => by simp [hr]) id
  | create => exact absurd hv (Nat.lt_irrefl _)

/-! ## The closing pass -/

/-- Since the closing pass has begun, every worker is settled or still to be visited. -/
structure Closing (s : Pool) : Prop where
  reached : s.closer.pc.begun = true → ∀ w < s.workerNum, (s.workers w).Settled ∨ w ∈ s.closer.rest
  rest : s.closer.pc.begun = true → s.closer.pc = .asyncClose ∨ s.closer.rest = []

theorem Closing.init (ids : LiveIds cfg.corePoolSize) : Closing (initPool cfg ids) :=
  ⟨by simp [initPool, CloserPc.begun], by simp [initPool, CloserPc.begun]⟩

theorem closing_closer {b : CloserAct} (hen : Enabled s (.closer b)) (hb : Books s)
    (hP : ClosesAll s (.closer b)) (h : Closing s) : Closing (closerAct cfg s b) := by
  obtain ⟨hpc, hg, hr⟩ := hen
  obtain ⟨hreach, hrest⟩ := h
  rw [hpc] at hreach hrest
  cases b with
  | setStop => exact ⟨nofun, nofun⟩
  | lock =>
    -- the guard is free, so every worker that has not ended has its entry
    refine ⟨fun _ w hw => ?_, fun _ => .inl rfl⟩
    by_cases he : (s.workers w).pc = .ended
    · exact .inl (.inr (.inr he))
    · exact .inr (List.mem_map.2 ⟨_, hb.entry_of_free (hg rfl) hw he, rfl⟩)
  | asyncClose v spurious =>
    refine ⟨fun _ w hw => ?_, fun _ => .inl hpc⟩
    by_cases hwv : w = v
    · subst hwv
      left
      simp only [closerAct, Function.update_self]
      cases spurious with
      | false => left; simp
      | true => exact (hP rfl).imp (fun hr => by simp [hr]) id
    · simp only [closerAct, Function.update_of_ne hwv]
      exact (hreach rfl w hw).imp id fun hmem => (List.mem_erase_of_ne hwv).2 hmem
  | threadNum => exact ⟨fun _ => hreach rfl, fun _ => .inr hr⟩
  | pushEnd | unlock | closeMonitor | subPush | notify =>
    refine ⟨fun _ => hreach rfl, fun _ => .inr ?_⟩
    exact (hrest rfl).resolve_left (by simp [CloserAct.at])

theorem closing_preserved : PreservedUnder (step cfg) ClosesAll Books Closing := by
  intro s a t hb h hP hs
  have hs' := hs
  obtain ⟨hen, rfl⟩ := step_eq_some.1 hs
  -- steps of the other threads leave the closing sequence and settle what is settled
  have hother : (next cfg s a).closer = s.closer →
      (∀ w < (next cfg s a).workerNum, s.closer.pc.begun = true → w < s.workerNum) →
      Closing (next cfg s a) := by
    intro hc hn
    refine ⟨fun hbegun w hw => ?_, fun hbegun => by rw [hc] at hbegun ⊢; exact h.rest hbegun⟩
    rw [hc] at hbegun ⊢
    have hlt := hn w hw hbegun
    exact (h.reached hbegun w hlt).imp (settled_stays hs' hlt) id
  cases a with
  | closer b => exact closing_closer hen hb hP h
  | worker w b => exact hother (workerNext_closer w b) fun v hv _ => by simpa [next] using hv
  | caller c b =>
    by_cases hw : b.Wins s
    · have hc := (@callerNext_wins cfg s c b hw).2.2
      constructor <;> rw [next, hc] <;> intro hbegun <;> cases hbegun
    · exact hother (callerNext_closing c b hw).2 fun v hv _ => by simpa [next] using hv
  | monitor b =>
    refine hother (monitorAct_closer b) fun v hv hbegun => ?_
    rcases worker_new hs' hv with hlt | ⟨id, hid, -⟩
    · exact hlt
    · cases hid
      rw [hP] at hbegun; cases hbegun

/-! ## The budget of a worker -/

/-- A worker at this statement may start a task before it looks at its close flag. -/
def WorkerPc.mayStart : WorkerPc → ℕ
  | .pop | .popWait | .dispatch => 1
  | _ => 0

/-- The tasks that the worker has started and may start before it looks at its close flag. -/
def Worker.budget (wk : Worker) : ℕ := wk.started + wk.pc.mayStart

theorem WorkerPc.mayStart_le (pc : WorkerPc) : pc.mayStart ≤ 1 := by
  unfold mayStart; split <;> omega

/-- A settled worker spends its budget and gets no new one. -/
theorem budget_act {wk : Worker} {b : WorkerAct} (hok : wk.Ok) (hpc : wk.pc = b.at) (h : wk.Settled) :
    (workerAct cfg s wk b).1.budget ≤ wk.budget := by
  unfold Worker.Ok at hok
  unfold Worker.budget
  rw [hpc] at hok ⊢
  cases b with
  | start | check | recheck =>
    -- the worker looks at its close flag, and leaves the loop
    have hr : wk.isRequestClose = true := by
      rcases h with hr | hf | he
      · exact hr
      · exact absurd hok.1 hf
      · rw [he] at hpc; cases hpc
    simp [workerAct, Worker.checkFunc, hr, WorkerPc.mayStart]
  | pop | wake =>
    simp only [workerAct, Worker.popTimeWait]
    split <;> exact Nat.le_refl _
  | dispatch =>
    simp only [workerAct]
    split <;> simp [WorkerAct.at, WorkerPc.mayStart]
  | judge | compare =>
    simp only [workerAct]
    split <;> exact Nat.le_refl _
  | finish =>
    simp only [workerAct]
    split <;> exact Nat.le_refl _
  | _ => simp [workerAct, WorkerAct.at, WorkerPc.mayStart]

/-- The closing sequence is over, and every worker is settled. -/
structure Reached (n : ℕ) (s : Pool) : Prop where
  books : Books s
  returned : s.closer.pc = .returned
  settled : ∀ w < s.workerNum, (s.workers w).Settled
  workerNum : s.workerNum = n

theorem ClosesAll.noGrowth {a : Act} (hP : ClosesAll s a) (hbegun : s.closer.pc.begun = true) : NoGrowth s a := by
  rintro id rfl
  exact Bool.noConfusion (hbegun.symm.trans hP)

/-- Where no worker is started all stay settled. -/
theorem reached_preserved (n : ℕ) : Preserved (step cfg) NoGrowth (Reached n) := by
  rintro s a t ⟨hb, hret, hset, hn⟩ hno hs
  have hnum := hno.workerNum hs
  refine ⟨books_preserved s a t hb trivial hs, ?_,
    fun w hw => settled_stays hs (hnum ▸ hw) (hset w (hnum ▸ hw)), hnum.trans hn⟩
  obtain ⟨hen, rfl⟩ := step_eq_some.1 hs
  cases a with
  | worker w b => rwa [next, workerNext_closer]
  | monitor b => rwa [next, monitorAct_closer]
  | caller c b =>
    by_cases hw : b.Wins s
    · have hidle := hb.locks.flag.1 (@callerNext_wins cfg s c b hw).1
      rw [hidle] at hret; cases hret
    · rwa [next, (callerNext_closing c b hw).2]
  | closer b =>
    have hpc := hen.1
    rw [hret] at hpc
    cases b <;> cases hpc

theorem run_reached (ids : LiveIds cfg.corePoolSize) {as : List Act}
    (h : Run (step cfg) ClosesAll (initPool cfg ids) as s) (hret : s.closer.pc = .returned) :
    Reached s.workerNum s := by
  have hb := run_books ids h.free
  have hc := h.invariant_under (books_preserved.imp fun _ _ _ => trivial) closing_preserved (.init ids)
    (.init ids)
  have hbegun : s.closer.pc.begun = true := by rw [hret]; rfl
  have hrest := (hc.rest hbegun).resolve_left (by simp [hret])
  refine ⟨hb, hret, fun w hw => (hc.reached hbegun w hw).resolve_right ?_, rfl⟩
  simp [hrest]

theorem Reached.budget_le {n : ℕ} (h : Reached n s) {a : Act} (hs : step cfg s a = some t) {w : ℕ} (hw : w < n) :
    (t.workers w).budget ≤ (s.workers w).budget := by
  have hlt : w < s.workerNum := by rw [h.workerNum]; exact hw
  have hm := worker_move hs w
  generalize t.workers w = wk at hm ⊢
  cases hm with
  | same => exact Nat.le_refl _
  | act hen => exact budget_act (h.books.ok w) hen.2.1 (h.settled w hlt)
  | close => exact Nat.le_refl _
  | create => exact absurd hlt (Nat.lt_irrefl _)

/-- Each worker starts one further task at most, if no worker is started. -/
theorem Reached.started_le {n : ℕ} (h : Reached n s) {bs : List Act} (hr : Run (step cfg) NoGrowth s bs t) :
    t.workerNum = n ∧ ∀ w < n, (t.workers w).started ≤ (s.workers w).started + 1 := by
  refine ⟨(hr.invariant (reached_preserved n) h).workerNum, fun w hw => ?_⟩
  have hbudget := hr.le_of_steps (f := fun s => (s.workers w).budget) (reached_preserved n)
    (fun s a t hJ _ hs => hJ.budget_le hs hw) h
  have := (s.workers w).pc.mayStart_le
  unfold Worker.budget at hbudget
  omega

/-- **`ShutDown` reaches every worker**: in every run whose steps meet `ClosesAll`, once the
    closing sequence has returned each worker starts one further task at most.  Once the monitor is
    closed and its iteration over, nothing is asked of the steps that follow. -/
theorem one_further_task (ids : LiveIds cfg.corePoolSize) {as bs : List Act}
    (h : Run (step cfg) ClosesAll (initPool cfg ids) as s) (hret : s.closer.pc = .returned)
    (hr : Run (step cfg) ClosesAll s bs t ∨ MonitorShut s ∧ Run (step cfg) Free s bs t) :
    ∀ w < t.workerNum, (t.workers w).started ≤ (s.workers w).started + 1 := by
  have hreached := run_reached ids h hret
  obtain ⟨hnum, hle⟩ := hreached.started_le
    (run_noGrowth (fun _ _ => ClosesAll.noGrowth) hreached.books (by rw [hret]; rfl) hr)
  exact fun w hw => hle w (hnum ▸ hw)

/-! ## A worker that the closing pass misses -/

/-- The monitor adds the worker 1 after the closing pass, and is closed then. -/
def missedGrowth : List Act :=
  [.monitor .lock, .monitor .recheck, .monitor .grow, .monitor (.create 2), .monitor .insert,
    .monitor .clear, .closer (.closeMonitor false), .closer .subPush, .closer .notify]

/-- One turn of a worker's loop. -/
def serve (w : ℕ) : List Act :=
  [.worker w .check, .worker w .pop, .worker w .dispatch, .worker w .runReturn]

/-- The worker 1 serves the backlog after `ShutDown` has returned. -/
theorem backlog_drained : ∃ s t, Run (step ⟨1, 2⟩) Free (initPool ⟨1, 2⟩ (.first 1))
    ([.monitor .start, .monitor .check] ++ addTaskCalls 0 1025 ++ (closingPass ++ missedGrowth)) s ∧
      s.closer.pc = .returned ∧
      Run (step ⟨1, 2⟩) Free s (.worker 1 .start :: serve 1 ++ serve 1 ++ serve 1) t ∧
      (s.workers 1).started = 0 ∧ (t.workers 1).started = 3 := by
  obtain ⟨s, hrun, hpc, hnone, hlater⟩ : ∃ s, Run (step ⟨1, 2⟩) Free (initPool ⟨1, 2⟩ (.first 1))
      ([.monitor .start, .monitor .check] ++ addTaskCalls 0 1025 ++ (closingPass ++ missedGrowth)) s ∧
      s.closer.pc = .returned ∧ (s.workers 1).started = 0 ∧
      ∃ t ∈ exec (step ⟨1, 2⟩) Free s (.worker 1 .start :: serve 1 ++ serve 1 ++ serve 1),
        (t.workers 1).started = 3 := exists_runWith (fun _ _ _ => trivial) (by decide +kernel) fun _ _ h => h
  obtain ⟨t, hrun', hthree⟩ := exists_run hlater fun _ _ h => h
  exact ⟨s, t, hrun, hpc, hrun', hnone, hthree⟩

/-- A worker that is woken from its timed wait starts its last task. -/
theorem one_further_task_last : ∃ s t, Run (step ⟨2, 3⟩) ClosesAll (initPool ⟨2, 3⟩ (.first 2))
    (bothWait ++ addTaskCalls 0 1025 ++ (grow ++ shutDownThree)) s ∧
      Run (step ⟨2, 3⟩) ClosesAll s [.worker 0 .wake, .worker 0 .dispatch] t ∧
      (t.workers 0).started = 1 ∧ ∀ w < t.workerNum, (t.workers w).started ≤ (s.workers w).started + 1 := by
  obtain ⟨s, hrun, hpc, hlater⟩ : ∃ s, Run (step ⟨2, 3⟩) ClosesAll (initPool ⟨2, 3⟩ (.first 2))
      (bothWait ++ addTaskCalls 0 1025 ++ (grow ++ shutDownThree)) s ∧ s.closer.pc = .returned ∧
      ∃ t ∈ exec (step ⟨2, 3⟩) ClosesAll s [.worker 0 .wake, .worker 0 .dispatch], (t.workers 0).started = 1 :=
    exists_runWith (fun _ _ _ => trivial) (by decide +kernel) fun _ _ h => h
  obtain ⟨t, hrun', hone⟩ := exists_run hlater fun _ _ h => h
  exact ⟨s, t, hrun, hrun', hone, @one_further_task ⟨2, 3⟩ s t (.first 2) _ _ hrun hpc (.inl hrun')⟩

end Empool
