/-
  A `Cancel` of a task of a `FixedThreadPool` returns.

  A path of the pool with its tasks is a path of the pool (`orderly_maps`), and
  it is as fair: a worker inside `Run` comes to the end of it, because each of
  its statements is nearer to it (`fair_worker`).  So a task that is pushed is
  run (`leadsTo_served`).  Then nobody holds it any more, it is in a stop state,
  and whoever waits for it has been notified (`Serves.settled`); so every
  `Cancel` of the task returns, unless shutdown is requested
  (`fixed_cancel_returns`).
-/
import Empool.Scaling.Served
import Empool.Scaling.Silent

namespace Empool

open Lts TaskBase Handoff

/-- A worker inside `Run` has its task. -/
def Supplied (s : Pool) : Prop := ∀ w, (s.workers w).pc = .running → ∃ i, (s.workers w).runningTask = some (.user i)

theorem supplied_preserved {cfg : Config} : Preserved (step cfg) Free Supplied := by
  intro s a t h _ hs w hpc
  have hm := worker_move hs w
  generalize t.workers w = wk at hm hpc ⊢
  cases hm with
  | same | close => exact h w hpc
  | create => cases hpc
  | @act _ b hen =>
    cases b with
    | dispatch =>
      cases htask : (s.workers w).runningTask with
      | none => simp [workerAct, htask] at hpc
      | some u =>
        cases u with
        | endTask => simp [workerAct, htask] at hpc
        | user i => exact ⟨i, by simp [workerAct, htask]⟩
    | start | check | recheck =>
      simp only [workerAct, Worker.checkFunc] at hpc
      split at hpc <;> cases hpc
    | pop | wake =>
      simp only [workerAct, Worker.popTimeWait] at hpc
      split at hpc <;> cases hpc
    | judge | finish | compare =>
      simp only [workerAct] at hpc
      split at hpc <;> cases hpc
    | _ => cases hpc

namespace TaskPool

variable {cfg : Config} {s t : TaskPool} {a : Act} {w i c n : ℕ}

/-! ## The path of the pool -/

/-- The steps of the pool are regular. -/
def PoolRegular (s : TaskPool) : Act → Prop
  | .pool b => Empool.Regular s.pool b
  | _ => True

instance (s : TaskPool) : (a : Act) → Decidable (PoolRegular s a)
  | .pool b => inferInstanceAs (Decidable (Empool.Regular s.pool b))
  | .run .. | .cancel .. | .canceller _ => isTrue trivial

/-- No task object is added twice, no task throws, and the steps of the pool are regular. -/
def Orderly (s : TaskPool) (a : Act) : Prop := SingleUse s a ∧ PoolRegular s a

instance (s : TaskPool) (a : Act) : Decidable (Orderly s a) := inferInstanceAs (Decidable (_ ∧ _))

/-- The step of the pool, if it takes one: the last statement of `Run` is its `runReturn`. -/
def poolAct (s : TaskPool) : Act → Option Empool.Act
  | .pool b => some b
  | .run w _ => if s.runs w = .notify then some (.worker w .runReturn) else none
  | .cancel .. | .canceller _ => none

theorem orderly_maps : Path.Maps (step cfg) Orderly (Empool.step cfg) Empool.Regular TaskPool.pool poolAct := by
  intro s a t ha hs
  cases trans_of_step hs with
  | pool hb hp => exact .inr ⟨_, rfl, ha.2, hp⟩
  | goto hin hr =>
    refine .inl ⟨if_neg fun hn => ?_, rfl⟩
    rw [hn] at hr
    cases hr
  | returned hin hr hp => exact .inr ⟨_, if_pos hr.at_notify, rfl, hp⟩
  | thrown => exact absurd rfl ha.1
  | cancel | store | wait => exact .inl ⟨rfl, rfl⟩

/-- The steps `own` of the pool. -/
def PoolSteps (own : Pool → Empool.Act → Prop) : TaskPool → Act → Prop
  | s, .pool b => own s.pool b
  | _, _ => False

/-- The next statement of the worker `w`, inside `Run` or not. -/
def WorkerSteps (w : ℕ) : TaskPool → Act → Prop
  | s, .pool b => WorkerActs w s.pool b
  | _, .run v _ => v = w
  | _, _ => False

/-- The next statement of the caller `c` of `Cancel`; the end of its wait counts only if it has been notified. -/
def CancellerActs (c : ℕ) : TaskPool → Act → Prop
  | s, .canceller d => d = c ∧ ∀ id, ¬ s.Blocked c id
  | _, _ => False

theorem can_pool {own : TaskPool → Act → Prop} {b : Empool.Act} {p : Pool} (hb : b.leavesRun = false)
    (hs : Empool.step cfg s.pool b = some p) (hown : own s (.pool b)) : Can (step cfg) own s :=
  ⟨.pool b, s.poolNext p, hown, by simp [step, hb, hs]⟩

/-- A worker inside `Run` can go on. -/
theorem can_run (hin : s.Inside w i) : Can (step cfg) (WorkerSteps w) s := by
  have hrun : step cfg s (.run w .returns) =
      ((s.tasks i).run .returns (s.runs w)).bind fun r => s.runNext cfg w i r.1 r.2 := by
    simp only [step, run, hin.2.2, if_pos hin]
  suffices h : ∃ t, step cfg s (.run w .returns) = some t from
    h.elim fun t ht => ⟨.run w .returns, t, rfl, ht⟩
  rw [hrun]
  cases s.runs w with
  | notify =>
    have hstep : Empool.step cfg s.pool (.worker w .runReturn) = some (next cfg s.pool (.worker w .runReturn)) :=
      step_eq_some.2 ⟨⟨hin.1, hin.2.1, by simp [WorkerAct.locks]⟩, rfl⟩
    refine Option.isSome_iff_exists.1 ?_
    simp [TaskBase.run, runNext, leaveRun, hstep]
  | _ => exact ⟨_, rfl⟩

/-- The monitor and the closing sequence are scheduled as fairly. -/
theorem fair_pool {own : Pool → Empool.Act → Prop} (hown : ∀ s b, own s b → b.leavesRun = false)
    {p : Path (step cfg) Orderly} (hfair : p.StronglyFair (PoolSteps own)) :
    (p.map orderly_maps).StronglyFair own := by
  refine hfair.map (V := fun _ => True) (r := fun _ => 0) (fun _ => trivial) (fun s _ ⟨b, q, hb, hs⟩ => ?_)
    fun s a t _ _ _ => ?_
  · exact can_pool (hown _ _ hb) hs hb
  · by_cases h : PoolSteps own s a
    · cases a with
      | pool b => exact .inl ⟨b, rfl, h⟩
      | _ => exact h.elim
    · exact .inr ⟨Nat.le_refl 0, fun hown => absurd hown h⟩

/-- So is a worker: it does not stay inside `Run`. -/
theorem fair_worker {p : Path (step cfg) Orderly} (hV : ∀ k, Supplied (p.state k).pool)
    (hfair : p.StronglyFair (WorkerSteps w)) : (p.map orderly_maps).StronglyFair (WorkerActs w) := by
  refine hfair.map (V := fun s => Supplied s.pool) (r := fun s => (s.runs w).togo) hV (fun s h ⟨b, q, hb, hs⟩ => ?_)
    fun s a t _ ha hs => ?_
  · by_cases hleave : b.leavesRun = false
    · exact can_pool hleave hs hb
    · have hen := (step_eq_some.1 hs).1
      cases b with
      | worker v b =>
        obtain ⟨rfl, -⟩ := hb
        have hpc : (s.pool.workers v).pc = .running := by
          rw [hen.2.1]
          cases b <;> first | rfl | exact absurd rfl hleave
        obtain ⟨i, hi⟩ := h v hpc
        exact can_run ⟨hen.1, hpc, hi⟩
      | _ => exact hb.elim
  · have hother : ∀ {v : ℕ} {pc : RunPc}, v ≠ w → (Function.update s.runs v pc w).togo ≤ (s.runs w).togo :=
      fun hv => Nat.le_of_eq (congrArg RunPc.togo (Function.update_of_ne hv.symm ..))
    cases trans_of_step hs with
    | @pool b q hb hs =>
      by_cases h : WorkerActs w s.pool b
      · exact .inl ⟨b, rfl, h⟩
      · exact .inr ⟨Nat.le_refl _, fun hown => absurd hown h⟩
    | @goto v j e b pc hin hr =>
      right
      by_cases hvw : v = w
      · subst hvw
        have hlt : (Function.update s.runs v pc v).togo < (s.runs v).togo := by
          rw [Function.update_self]
          exact hr.togo.1
        exact ⟨Nat.le_of_lt hlt, fun _ => hlt⟩
      · exact ⟨hother hvw, fun hown => absurd hown hvw⟩
    | @returned v j e b q hin hr hs =>
      by_cases hvw : v = w
      · subst hvw
        exact .inl ⟨.worker v .runReturn, if_pos hr.at_notify, rfl, by simp⟩
      · exact .inr ⟨hother hvw, fun hown => absurd hown hvw⟩
    | thrown => exact absurd rfl ha.1
    | cancel | store | wait => exact .inr ⟨Nat.le_refl _, False.elim⟩

/-! ## A task that has been run -/

/-- Nobody holds a task that is completed. -/
theorem Tracked.gone (h : Tracked s) (hi : .user i ∈ s.pool.completed) : Past (fun _ => False) s i := by
  have hcount := h.balanced.count i
  have hfin : 0 < s.pool.ledger.finished.count i := List.count_pos_iff.2 (mem_filterMap_userId.2 hi)
  have hent : i ∈ s.pool.ledger.entered := List.count_pos_iff.1 (by omega)
  have hone := List.count_eq_one_of_mem h.nodup hent
  refine ⟨mem_filterMap_userId.1 hent, fun hq => ?_, fun w hw hh => ?_⟩
  · have hwait : i ∈ s.pool.ledger.waiting := mem_filterMap_userId.2 hq
    have := List.count_pos_iff.2 hwait
    omega
  · have hheld : i ∈ s.pool.ledger.held :=
      List.mem_filterMap.2 ⟨w, List.mem_range.2 hw, Worker.holding_eq_some.2 hh⟩
    have := List.count_pos_iff.2 hheld
    omega

/-- A task that nobody holds is in a stop state, and nobody waits for it. -/
theorem Serves.settled (h : Serves s) (hgone : Past (fun _ => False) s i) :
    (s.tasks i).state.stopped ∧ ∀ c, c ∉ (s.tasks i).cancelCondition := by
  have hnobody : ∀ w < s.pool.workerNum, ¬ (s.pool.workers w).Holds (.user i) := fun w hw hh => (hgone.place w hw hh).2
  have hstop : (s.tasks i).state.stopped := by
    by_contra hst
    rcases h.provided i hgone.pushed hst with hmem | ⟨w, hw, hh, -⟩
    · exact hgone.taken hmem
    · exact hnobody w hw hh
  refine ⟨hstop, fun c hc => ?_⟩
  obtain ⟨w, hin, -⟩ := (h.woken i c hc).2 hstop
  exact hnobody w hin.1 ⟨hin.2.2, .inr hin.2.1⟩

/-- A `Cancel` goes on, or returns; it returns if the task is in a stop state. -/
theorem Trans.requested (hc : (s.cancellers c).requested = some i) (ha : SingleUse s a) (ht : Trans cfg s a t) :
    t.cancellers c = .idle ∨
      (t.cancellers c).requested = some i ∧ (a = .canceller c → ¬ (s.tasks i).state.stopped) := by
  have hbusy : ∀ {d : ℕ}, (s.cancellers d).requested = none → d ≠ c := by
    rintro d hd rfl
    cases hd.symm.trans hc
  have hkeep : ∀ {d : ℕ} {pc : CancelPc}, d ≠ c → (Function.update s.cancellers d pc c).requested = some i :=
    fun hdc => (congrArg CancelPc.requested (Function.update_of_ne hdc.symm ..)).trans hc
  cases ht with
  | pool | goto | returned => exact .inr ⟨hc, by simp⟩
  | thrown => exact absurd rfl ha
  | @cancel d j hd =>
    have hdc : d ≠ c := hbusy (by rw [hd]; rfl)
    exact .inr ⟨hkeep hdc, by simp⟩
  | @store d j hd =>
    have hdc : d ≠ c := hbusy (by rw [hd]; rfl)
    exact .inr ⟨hkeep hdc, fun heq => absurd (Act.canceller.inj heq) hdc⟩
  | @wait d j hd =>
    by_cases hdc : d = c
    · subst hdc
      obtain rfl : j = i := Option.some.inj (hd.symm.trans hc)
      have hnext : (s.cancelWait d j).cancellers d = if (s.tasks j).state.stopped then .idle else .waiting j :=
        Function.update_self ..
      by_cases hst : (s.tasks j).state.stopped
      · exact .inl (hnext.trans (if_pos hst))
      · refine .inr ⟨?_, fun _ => hst⟩
        rw [hnext, if_neg hst]
        rfl
    · exact .inr ⟨hkeep hdc, fun heq => absurd (Act.canceller.inj heq) hdc⟩

/-! ## Runs -/

/-- Before shutdown is requested the last thread does not end. -/
theorem cleared (hm : MonitorAsked s.pool) (hf : s.pool.isRequestShutDown = false) (ha : SingleUse s a)
    (hs : step cfg s a = some t) : Cleared s a := by
  cases a with
  | pool b =>
    rintro ⟨hlast, -⟩
    have hover : s.pool.monitor.pc = .finish ∨ s.pool.monitor.pc = .ended := by
      refine hlast.imp ?_ fun hpc => hpc
      rintro rfl
      cases trans_of_step hs with
      | pool hb hp => exact (step_eq_some.1 hp).1.1
    exact absurd ((hm.closed (hm.left hover)).symm.trans hf) Bool.noConfusion
  | run w e => exact ha
  | cancel | canceller => trivial

/-- A `Cancel` of a task that nobody holds returns. -/
theorem leadsTo_idle {p : Path (step cfg) Orderly} (hV : ∀ k, Serves (p.state k)) (hfair : p.Fair (CancellerActs c)) :
    p.LeadsTo (fun s => Past (fun _ => False) s i ∧ (s.cancellers c).requested = some i)
      fun s => s.cancellers c = .idle := by
  refine hfair.leadsTo hV (fun _ => 0) (fun s a t h ⟨hgone, hc⟩ ha hs => ?_) fun s h ⟨hgone, hc⟩ => .inr ?_
  · have ht := trans_of_step hs
    refine (ht.requested hc ha.1).imp_right fun ⟨hc', hown⟩ =>
      ⟨⟨hgone.trans (fun _ h => h) ha.1 ht, hc'⟩, Nat.le_refl 0, fun hact => ?_⟩
    cases a with
    | canceller d => exact absurd (h.settled hgone).1 (hown (by rw [hact.1]))
    | _ => exact hact.elim
  · have hfree : ∀ j, ¬ s.Blocked c j := by
      rintro j ⟨hpc, hmem⟩
      rw [hpc] at hc
      obtain rfl : j = i := Option.some.inj hc
      exact (h.settled hgone).2 c hmem
    refine ⟨.canceller c, s.cancelWait c i, ⟨rfl, hfree⟩, ?_⟩
    show s.cancellerNext c = _
    unfold cancellerNext
    cases hpc : s.cancellers c <;> rw [hpc] at hc <;> cases hc <;> rfl

/-- **Every `Cancel` returns**: a call of `Cancel` of a task that has been pushed returns, or shutdown is
    requested. -/
theorem fixed_cancel_returns (hn : 1 ≤ n) {ids : LiveIds (fixedThreadPool n).corePoolSize}
    {p : Path (step (fixedThreadPool n)) Orderly} (h₀ : p.state 0 = .create (fixedThreadPool n) ids)
    (hworkers : ∀ w, p.StronglyFair (WorkerSteps w)) (hmonitor : p.StronglyFair (PoolSteps MonitorActs))
    (hcloser : p.StronglyFair (PoolSteps CloserActs)) (hcanceller : p.Fair (CancellerActs c)) {k : ℕ}
    (hi : .user i ∈ (p.state k).pool.pushed) (hc : ((p.state k).cancellers c).requested = some i) :
    ∃ m, k ≤ m ∧ ((p.state m).pool.isRequestShutDown = true ∨ (p.state m).cancellers c = .idle) := by
  -- the path of the pool
  let q := p.map orderly_maps
  have hq₀ : q.state 0 = initPool (fixedThreadPool n) ids := congrArg TaskPool.pool h₀
  have hpool : ∀ {I : Pool → Prop}, Preserved (Empool.step (fixedThreadPool n)) Free I →
      I (initPool (fixedThreadPool n) ids) → ∀ k, I (p.state k).pool := fun hI h =>
    Path.invariant (p := q) (fun s a t h _ hs => hI s a t h trivial hs) (hq₀ ▸ h)
  have hasked := hpool (monitorAsked_preserved.and locks_preserved) ⟨.init ids, .init ids⟩
  have hsupplied := hpool supplied_preserved fun w hpc => (by cases hpc)
  by_contra hno
  -- no shutdown is requested at any time
  have hf : ∀ m, (p.state m).pool.isRequestShutDown = false := by
    intro m
    by_contra hreq
    have hlater : ∀ m', m ≤ m' → (p.state m').pool.isRequestShutDown = true := fun m' hmm' =>
      Path.stays (p := q) (V := fun _ => True) (I := fun s : Pool => s.isRequestShutDown = true) (fun _ => trivial)
        (fun s a t _ hs _ hst => by_contra fun ht =>
          absurd ((flag_mono hst (Bool.eq_false_iff.2 ht)).symm.trans hs) Bool.noConfusion)
        (Bool.not_eq_false _ ▸ hreq) hmm'
    exact hno ⟨max m k, Nat.le_max_right m k, .inl (hlater _ (Nat.le_max_left m k))⟩
  have hserves : ∀ m, (Locks (p.state m).pool ∧ MonitorAsked (p.state m).pool) ∧ Serves (p.state m) :=
    Path.invariant (p := p.strengthen fun m a _ ha hs => cleared (hasked m).2 (hf m) ha.1 hs)
      (I := fun s => (Locks s.pool ∧ MonitorAsked s.pool) ∧ Serves s)
      (fun s a t h ha hs => ⟨asked_preserved s a t h.1 ha hs, h.2.trans h.1.2 ha (trans_of_step hs)⟩)
      (show _ ∧ Serves (p.state 0) from h₀ ▸ ⟨⟨.init ids, .init ids⟩, .create ids⟩)
  have htracked : ∀ m, Tracked (p.state m) ∧ Stopped (p.state m) :=
    Path.invariant (fun s a t h ha hs => tracked_preserved s a t h ha.1 hs) (h₀ ▸ ⟨.create ids, stopped_create ids⟩)
  have haccount : ∀ k, FixedAccount n (q.state k) :=
    Path.invariant (fixedAccount_preserved hn) (hq₀ ▸ .init ids)
  have hworkers' : ∀ w, q.StronglyFair (WorkerActs w) := fun w => fair_worker hsupplied (hworkers w)
  have hfree := leadsTo_guard_free (fun k => (haccount k).live.guarded) hworkers'
    (fair_pool (fun s b hb => by cases b <;> first | rfl | exact hb.elim) hmonitor)
    (fair_pool (fun s b hb => by cases b <;> first | rfl | exact hb.elim) hcloser)
  obtain ⟨m, hkm, hreq | hdone⟩ := leadsTo_served haccount hfree hn hworkers' i k hi
  · exact hno ⟨m, hkm, .inl hreq⟩
  -- until the task has been run, the caller waits
  have hkept := Path.kept (p := p) (V := fun _ => True) (I := fun s => (s.cancellers c).requested = some i)
    (J := fun s => s.cancellers c = .idle) (f := fun _ => 0) (fun _ => trivial)
    (fun s a t _ hc ha hs => ((trans_of_step hs).requested hc ha.1).imp_right fun h => ⟨h.1, Nat.le_refl 0⟩) hc hkm
  rcases hkept with ⟨m', hkm', hidle⟩ | ⟨hc', -⟩
  · exact hno ⟨m', hkm', .inr hidle⟩
  · obtain ⟨m', hmm', hidle⟩ := leadsTo_idle (fun k => (hserves k).2) hcanceller m ⟨(htracked m).1.gone hdone, hc'⟩
    exact hno ⟨m', Nat.le_trans hkm hmm', .inr hidle⟩

theorem can_of_pool {own : Pool → Empool.Act → Prop} (h : Can (step cfg) (PoolSteps own) s) :
    Can (Empool.step cfg) own s.pool := by
  obtain ⟨a, t, hown, hs⟩ := h
  cases a with
  | pool b =>
    cases trans_of_step hs with
    | pool hb hp => exact ⟨b, _, hown, hp⟩
  | _ => exact hown.elim

/-- Nobody but the callers has anything left to do. -/
theorem cannot (h : Terminated s.pool) : (∀ w, ¬ Can (step cfg) (WorkerSteps w) s) ∧
    ¬ Can (step cfg) (PoolSteps MonitorActs) s ∧ ¬ Can (step cfg) (PoolSteps CloserActs) s := by
  obtain ⟨hworker, hmonitor, hcloser⟩ := @Terminated.cannot cfg s.pool h
  refine ⟨?_, fun hm => hmonitor (can_of_pool hm), fun hc => hcloser (can_of_pool hc)⟩
  rintro w ⟨a, t, hown, hs⟩
  cases a with
  | pool b => exact hworker w (can_of_pool ⟨.pool b, t, hown, hs⟩)
  | run v e =>
    have hs : s.run cfg v e = some t := hs
    unfold run at hs
    split at hs
    · split_ifs at hs with hin
      cases (h.workers v hin.1).symm.trans hin.2.1
    · cases hs
  | _ => exact hown

/-- The worker finds the task cancelled, notifies the caller, and the pool is shut down after it. -/
def cancelsAndEnds : List Act :=
  [.pool (.caller 0 .notify), .pool (.worker 0 .start), .pool (.worker 0 .check), .pool (.worker 0 .pop),
    .pool (.worker 0 .dispatch), .run 0 .returns, .run 0 .returns, .run 0 .returns, .canceller 1] ++
    (runsAndEnds.drop 6).map .pool

/-- The caller waits for a task that no worker has taken. -/
theorem fixed_cancel_returns_one : ∃ p : Path (step (fixedThreadPool 1)) Orderly,
    p.state 0 = .create (fixedThreadPool 1) (.first 1) ∧ (p.state 6).Blocked 1 7 ∧
      ∃ m, 6 ≤ m ∧ ((p.state m).pool.isRequestShutDown = true ∨ (p.state m).cancellers 1 = .idle) := by
  obtain ⟨t, ht, ⟨hb, hpushed⟩, u, hu, h1, h2, h3, h4, h5⟩ : ∃ t, Run (step (fixedThreadPool 1)) Orderly
      (.create (fixedThreadPool 1) (.first 1))
      [.pool (.caller 0 (.addTask (some (.user 7)))), .pool (.caller 0 .load), .pool (.caller 0 .push), .cancel 1 7,
        .canceller 1, .canceller 1] t ∧ (t.Blocked 1 7 ∧ .user 7 ∈ t.pool.pushed) ∧
      ∃ u ∈ exec (step (fixedThreadPool 1)) Orderly t cancelsAndEnds, u.pool.closer.pc = .returned ∧
        u.pool.monitor.pc = .ended ∧ (∀ w < u.pool.workerNum, (u.pool.workers w).pc = .ended) ∧
        u.pool.state = .shutDown ∧ u.cancellers 1 = .idle := exists_run (by decide +kernel) fun _ _ h => h
  obtain ⟨p, h₀, hmid, hend⟩ := ht.exists_path (run_of_exec hu)
  obtain ⟨hw, hm, hcl⟩ := @cannot (fixedThreadPool 1) u ⟨h1, h2, h3, h4⟩
  have hb' : (p.state 6).Blocked 1 7 := hmid ▸ hb
  refine ⟨p, h₀, hb', fixed_cancel_returns (i := 7) Nat.one_pos h₀ (fun w => Path.stronglyFair_of_rest hend (hw w))
    (Path.stronglyFair_of_rest hend hm) (Path.stronglyFair_of_rest hend hcl) (Path.fair_of_rest hend ?_)
    (hmid ▸ hpushed) (congrArg CancelPc.requested hb'.1)⟩
  rintro ⟨a, v, hown, hs⟩
  cases a with
  | canceller d =>
    obtain ⟨rfl, -⟩ := hown
    simp [step, cancellerNext, h5] at hs
  | _ => exact hown

end TaskPool

end Empool
