/-
  Shutdown of a `ScalingThreadPool` comes to its end.

  What a fair scheduler brings about, tasks that return provided: once shutdown
  is requested, the closing sequence returns, every worker and the monitor end,
  the state is `SHUTDOWN`, and all of this is final (`shutDown_terminates`); and
  every call of `AddTask`, `ShutDown` and `ShutDownNow` returns, as the guard of
  the worker table is free again and again (`pool_calls_return`).  The steps are
  those that do not spoil the shutdown (`Unspoiled`); what these exclude is shown
  by `shutDown_missed`, `backlog_drained` and `join_blocked`.  A `FixedThreadPool`
  has no other steps (`fixed_terminates`).
-/
import Empool.Scaling.Progress

namespace Empool

open Lts

variable {cfg : Config} {s t : Pool} {a : Act} {c w : ℕ}

/-! ## The end -/

/-- All threads of the pool have ended, and the state is `SHUTDOWN`. -/
structure Terminated (s : Pool) : Prop where
  closer : s.closer.pc = .returned
  monitor : s.monitor.pc = .ended
  workers : ∀ w < s.workerNum, (s.workers w).pc = .ended
  state : s.state = .shutDown

/-- The closing sequence has returned, and `n` workers have been created. -/
structure SeenOff (n : ℕ) (s : Pool) : Prop where
  closer : s.closer.pc = .returned
  workerNum : s.workerNum = n

theorem seenOff_step {n : ℕ} (hl : Locks s) (h : SeenOff n s) (hP : ClosesAll s a) (hs : step cfg s a = some t) :
    SeenOff n t := by
  obtain ⟨hret, hn⟩ := h
  have hc : t.closer = s.closer := by
    refine closer_other hl (hret ▸ nofun) hs ?_
    rintro b rfl
    have hpc := (step_eq_some.1 hs).1.1
    rw [hret] at hpc
    cases b <;> cases hpc
  exact ⟨hc ▸ hret, ((hP.noGrowth (by rw [hret]; rfl)).workerNum hs).trans hn⟩

theorem monitor_ended_step (h : s.monitor.pc = .ended) (hs : step cfg s a = some t) : t.monitor.pc = .ended := by
  have hno : ∀ b, a ≠ .monitor b := by
    rintro b rfl
    have hpc := (step_eq_some.1 hs).1.1
    rw [h] at hpc
    cases b <;> cases hpc
  obtain ⟨n, r, hm⟩ := monitor_other hs hno
  rw [hm]
  exact h

/-- Once everything has ended, `SHUTDOWN` has been set. -/
theorem Pool.Live.terminated (h : s.Live) {n : ℕ} (hc : SeenOff n s) (hm : s.monitor.pc = .ended)
    (hw : ∀ w < n, w < s.workerNum ∧ (s.workers w).pc = .ended) : Terminated s := by
  have hall : ∀ w < s.workerNum, (s.workers w).pc = .ended := fun w hlt => (hw w (hc.workerNum ▸ hlt)).2
  have hf : s.isRequestShutDown = true :=
    h.accounts.books.locks.flag_of_begun (by rw [hc.closer]; rfl)
  refine ⟨hc.closer, hm, hall, (h.owed hf).shutDown h.accounts.books.ok fun w hlt => ?_⟩
  exact ⟨.inr (hall w hlt), (h.reported w).2 (hall w hlt)⟩

section
variable {p : Path (step cfg) Unspoiled} (hV : ∀ n, (p.state n).Live)
  (hworkers : ∀ w, p.StronglyFair (WorkerActs w)) (hmonitor : p.StronglyFair MonitorActs)
  (hcloser : p.StronglyFair CloserActs)
include hV hworkers hmonitor hcloser

theorem leadsTo_free : p.LeadsTo (fun _ => True) fun s => s.guard = none :=
  leadsTo_guard_free (fun n => (hV n).guarded) hworkers hmonitor hcloser

/-- The closing sequence returns. -/
theorem leadsTo_returned : p.LeadsTo (fun s => s.closer.pc ≠ .idle) fun s => s.closer.pc = .returned := by
  have hfree := leadsTo_free hV hworkers hmonitor hcloser
  have hidle : ∀ {s : Pool}, s.closer.pc.before ∨ s.closer.pc.after → s.closer.pc ≠ .idle := by
    intro s h hidle
    rw [hidle] at h
    exact (h.elim id id).elim
  have hafter : p.LeadsTo (fun s => s.closer.pc.after) fun s => s.closer.pc = .returned := by
    refine hcloser.leadsTo_again hV (fun s => s.closer.pc.rank) (fun s a t h hI _ hs => ?_) hfree
      fun s _ hI hg => .inr (can_closer_free hg (.inr hI))
    by_cases ha : ∃ b, a = .closer b
    · obtain ⟨b, rfl⟩ := ha
      obtain ⟨hen, rfl⟩ := step_eq_some.1 hs
      exact (closer_after hen.1 hI).imp id fun ⟨hh, hlt⟩ => ⟨hh, Nat.le_of_lt hlt, fun _ => hlt⟩
    · have hc := closer_other h.accounts.books.locks (hidle (.inr hI)) hs fun b hb => ha ⟨b, hb⟩
      refine .inr ⟨hc ▸ hI, Nat.le_of_eq (by rw [hc]), fun hown => ?_⟩
      cases a with
      | closer b => exact absurd ⟨b, rfl⟩ ha
      | _ => cases hown
  have hholds : p.LeadsTo (fun s => s.closer.pc.holds = true) fun s => s.closer.pc = .returned := by
    refine ((leadsTo_closer_releases (fun n => (hV n).guarded) hcloser).trans
      (Path.leadsTo_of_imp fun s h => ?_)).trans hafter
    rw [h.1]
    trivial
  have hbefore : p.LeadsTo (fun s => s.closer.pc.before) fun s => s.closer.pc.holds = true := by
    refine hcloser.leadsTo_again hV (fun s => s.closer.pc.rank) (fun s a t h hI _ hs => ?_) hfree
      fun s _ hI hg => .inr (can_closer_free hg (.inl hI))
    by_cases ha : ∃ b, a = .closer b
    · obtain ⟨b, rfl⟩ := ha
      obtain ⟨hen, rfl⟩ := step_eq_some.1 hs
      exact (closer_before hen.1 hI).imp id fun ⟨hh, hlt⟩ => ⟨hh, Nat.le_of_lt hlt, fun _ => hlt⟩
    · have hc := closer_other h.accounts.books.locks (hidle (.inl hI)) hs fun b hb => ha ⟨b, hb⟩
      refine .inr ⟨hc ▸ hI, Nat.le_of_eq (by rw [hc]), fun hown => ?_⟩
      cases a with
      | closer b => exact absurd ⟨b, rfl⟩ ha
      | _ => cases hown
  intro n hn
  cases hpc : (p.state n).closer.pc with
  | idle => exact absurd hpc hn
  | returned => exact ⟨n, Nat.le_refl n, hpc⟩
  | setStop | lock => exact (hbefore.trans hholds) n (show (p.state n).closer.pc.before by rw [hpc]; trivial)
  | asyncClose | pushEnd => exact hholds n (show (p.state n).closer.pc.holds = true by rw [hpc]; rfl)
  | closeMonitor | subPush | notify => exact hafter n (show (p.state n).closer.pc.after by rw [hpc]; trivial)

/-- A worker that is closed ends. -/
theorem leadsTo_ended : p.LeadsTo (fun s => w < s.workerNum ∧ (s.workers w).Settled)
    fun s => w < s.workerNum ∧ (s.workers w).pc = .ended := by
  refine (hworkers w).leadsTo_again hV (fun s => (s.workers w).pc.rank) (fun s a t h hI _ hs => ?_)
    (leadsTo_free hV hworkers hmonitor hcloser) fun s _ hI hg => (can_worker hI.1 hg).imp (fun h => ⟨hI.1, h⟩) id
  obtain ⟨hlt, hset⟩ := hI
  have hkeep := And.intro (Nat.lt_of_lt_of_le hlt (workerNum_le hs)) (settled_stays hs hlt hset)
  right
  by_cases ha : ∃ b, a = .worker w b
  · obtain ⟨b, rfl⟩ := ha
    obtain ⟨hen, rfl⟩ := step_eq_some.1 hs
    have hrank := @settled_rank cfg s _ b (h.accounts.books.ok w) hen.2.1 hset
    rw [← workerNext_self] at hrank
    exact ⟨hkeep, hrank.1, fun hown => hrank.2 hown.2⟩
  · obtain ⟨r, hr⟩ := worker_other hs hlt fun b hb => ha ⟨b, hb⟩
    refine ⟨hkeep, Nat.le_of_eq (by rw [hr]), fun hown => ?_⟩
    cases a with
    | worker v b => exact absurd ⟨b, by rw [hown.1]⟩ ha
    | _ => cases hown

/-- The monitor ends once it is closed. -/
theorem leadsTo_monitor_ended :
    p.LeadsTo (fun s => s.monitor.isRequestClose = true) fun s => s.monitor.pc = .ended := by
  have hfree := leadsTo_free hV hworkers hmonitor hcloser
  have hout : p.LeadsTo (fun s => s.monitor.isRequestClose = true ∧ s.monitor.pc.outside)
      fun s => s.monitor.pc = .ended := by
    refine hmonitor.leadsTo_again hV (fun s => s.monitor.pc.rank) (fun s a t h hI hP hs => ?_) hfree
      fun s h _ hg => can_monitor_free hg h.accounts.books.locks
    obtain ⟨hr, ho⟩ := hI
    have hr' := monitor_closed_stays hs hr
    by_cases ha : ∃ b, a = .monitor b
    · obtain ⟨b, rfl⟩ := ha
      obtain ⟨hen, rfl⟩ := step_eq_some.1 hs
      exact (monitor_closed hen.1 hr ho).imp id fun ⟨ho', hrank⟩ => ⟨⟨hr', ho'⟩, hrank⟩
    · obtain ⟨n, r, hm⟩ := monitor_other hs fun b hb => ha ⟨b, hb⟩
      refine .inr ⟨⟨hr', by rw [hm]; exact ho⟩, Nat.le_of_eq (by rw [hm]), fun hown => ?_⟩
      cases a with
      | monitor b => exact absurd ⟨b, rfl⟩ ha
      | _ => cases hown
  -- an iteration comes to its end first
  intro n hn
  obtain ⟨m, hnm, hm⟩ := hfree n trivial
  obtain ⟨k, hmk, hk⟩ := hout m ⟨Path.stays hV (fun s a t _ hr _ hs => monitor_closed_stays hs hr) hn hnm, (hV m).accounts.books.locks.outside_of_free hm⟩
  exact ⟨k, Nat.le_trans hnm hmk, hk⟩

/-- Everything ends, and stays so. -/
theorem leadsTo_terminated {n : ℕ} (hf : (p.state n).isRequestShutDown = true) :
    ∃ m, n ≤ m ∧ ∀ k, m ≤ k → Terminated (p.state k) := by
  have hbegun : (p.state n).closer.pc ≠ .idle := by
    intro hidle
    rw [(hV n).accounts.books.locks.flag.2 hidle] at hf
    cases hf
  obtain ⟨k, hnk, hret⟩ := leadsTo_returned hV hworkers hmonitor hcloser n hbegun
  -- from `k` on, the closing sequence has returned and no worker is created
  have hclosed : ∀ m, k ≤ m → SeenOff (p.state k).workerNum (p.state m) := fun m hkm =>
    Path.stays hV (fun s a t h hc hP hs => seenOff_step h.accounts.books.locks hc hP.2.2.1 hs) ⟨hret, rfl⟩ hkm
  have hsettled : ∀ w < (p.state k).workerNum, ((p.state k).workers w).Settled := by
    have hb : (p.state k).closer.pc.begun = true := by rw [hret]; rfl
    have hrest := ((hV k).closing.rest hb).resolve_left (by rw [hret]; nofun)
    intro w hw
    refine ((hV k).closing.reached hb w hw).resolve_right ?_
    rw [hrest]
    exact List.not_mem_nil
  have hworker : ∀ s a t, ∀ w, s.Live → (w < s.workerNum ∧ (s.workers w).pc = .ended) → Unspoiled s a →
      step cfg s a = some t → w < t.workerNum ∧ (t.workers w).pc = .ended := fun s a t w _ hI _ hs =>
    ⟨Nat.lt_of_lt_of_le hI.1 (workerNum_le hs), ended_stays hs hI.1 hI.2⟩
  obtain ⟨i, hki, hi⟩ := Path.LeadsTo.all (p := p) (I := fun s => ∀ w < (p.state k).workerNum,
    w < s.workerNum ∧ (s.workers w).Settled) (Q := fun w s => w < s.workerNum ∧ (s.workers w).pc = .ended) hV
    (fun w s a t => hworker s a t w)
    (fun w hw n hn => leadsTo_ended hV hworkers hmonitor hcloser n (hn w hw)) k fun w hw => ⟨hw, hsettled w hw⟩
  obtain ⟨j, hkj, hj⟩ := leadsTo_monitor_ended hV hworkers hmonitor hcloser k
    ((hV k).monitor (by rw [hret]; trivial))
  refine ⟨max i j, by omega, fun m hm => ?_⟩
  refine (hV m).terminated (hclosed m (by omega)) ?_ fun w hw => ?_
  · exact Path.stays hV (fun s a t _ h _ hs => monitor_ended_step h hs) hj (by omega)
  · exact Path.stays hV (fun s a t hl hI hP hs => hworker s a t w hl hI hP hs) (hi w hw) (by omega)

/-- A call that has not come past `compare_exchange_weak` returns or comes past it. -/
theorem leadsTo_entered (hcaller : p.StronglyFair (CallerActs c)) : p.LeadsTo (fun s => (s.callers c).pc.enters)
    fun s => (s.callers c).pc = .idle ∨ (s.callers c).pc.late := by
  refine hcaller.leadsTo_again hV (fun s => (s.callers c).pc.rank) (fun s a t h hI _ hs => ?_)
    (leadsTo_free hV hworkers hmonitor hcloser) fun s _ hI hg => .inr (can_caller_free hg hI)
  by_cases ha : ∃ b, a = .caller c b
  · obtain ⟨b, rfl⟩ := ha
    have hact := @callerAct_enters cfg s _ b (step_eq_some.1 hs).1.1 hI
    rw [← caller_self hs] at hact
    exact hact.imp id fun ⟨he, hlt⟩ => ⟨he, Nat.le_of_lt hlt, fun _ => hlt⟩
  · have hpc := caller_other hs fun b hb => ha ⟨b, hb⟩
    refine .inr ⟨hpc ▸ hI, Nat.le_of_eq (by rw [hpc]), fun hown => ?_⟩
    cases a with
    | caller d b => exact absurd ⟨b, by rw [hown.1]⟩ ha
    | _ => cases hown

omit hworkers hmonitor hcloser in
/-- When everything has ended, a call that waits for it returns. -/
theorem leadsTo_released (hcaller : p.StronglyFair (CallerActs c)) {n : ℕ}
    (hend : ∀ k, n ≤ k → Terminated (p.state k)) (hlate : ((p.state n).callers c).pc.late) :
    ∃ m, n ≤ m ∧ ((p.state m).callers c).pc = .idle := by
  -- the path from here on
  have hV' : ∀ k, ((p.drop n).state k).Live ∧ Terminated ((p.drop n).state k) := fun k =>
    ⟨hV (n + k), hend (n + k) (Nat.le_add_right n k)⟩
  have hback : (p.drop n).LeadsTo (fun s => (s.callers c).pc.late) fun s => (s.callers c).pc = .idle := by
    refine (hcaller.drop n).fair.leadsTo (V := fun s => s.Live ∧ Terminated s) hV' (fun s => (s.callers c).pc.rank)
      (fun s a t h hI _ hs => ?_) fun s h hI => .inr ?_
    · by_cases ha : ∃ b, a = .caller c b
      · obtain ⟨b, rfl⟩ := ha
        have hact := @callerAct_shutDown cfg s _ b h.2.state (step_eq_some.1 hs).1.1 hI
        rw [← caller_self hs] at hact
        exact hact.imp id fun ⟨he, hlt⟩ => ⟨he, Nat.le_of_lt hlt, fun _ => hlt⟩
      · have hpc := caller_other hs fun b hb => ha ⟨b, hb⟩
        refine .inr ⟨hpc ▸ hI, Nat.le_of_eq (by rw [hpc]), fun hown => ?_⟩
        cases a with
        | caller d b => exact absurd ⟨b, by rw [hown.1]⟩ ha
        | _ => cases hown
    · have hown : ∀ {b : CallerAct}, b.at ≠ .idle → (b = .wake → (s.callers c).notified = true) → b.locks = false →
          (s.callers c).pc = b.at → b.ready s → Can (step cfg) (CallerActs c) s := by
        intro b hi hb hlocks hpc hr
        refine can_step (a := .caller c b) ⟨rfl, hi, hb⟩ ⟨hpc, fun hl => ?_, hr⟩
        rw [hlocks] at hl
        cases hl
      cases hpc : (s.callers c).pc with
      | closing => exact hown (b := .resume) nofun nofun rfl hpc h.2.closer
      | testState => exact hown (b := .testState) nofun nofun rfl hpc trivial
      | waiting =>
        refine hown (b := .wake) nofun (fun _ => ?_) rfl hpc trivial
        -- nobody is left to broadcast
        by_contra hnot
        rcases h.1.waiters c hpc (by simpa using hnot) with hst | ⟨w, hw, hall⟩
        · exact hst h.2.state
        · cases (h.2.workers w hw).symm.trans hall
      | idle | load | push | notify | cas => rw [hpc] at hI; exact hI.elim
  obtain ⟨m, -, hm⟩ := hback 0 hlate
  exact ⟨n + m, Nat.le_add_right n m, hm⟩

theorem leadsTo_returns (hcaller : p.StronglyFair (CallerActs c)) :
    p.LeadsTo (fun _ => True) fun s => (s.callers c).pc = .idle := by
  have hlate : p.LeadsTo (fun s => (s.callers c).pc.late) fun s => (s.callers c).pc = .idle := by
    intro n hn
    obtain ⟨m, hnm, hend⟩ := leadsTo_terminated hV hworkers hmonitor hcloser ((hV n).late c hn)
    have hkept := Path.kept (f := fun _ => 0) (I := fun s => (s.callers c).pc.late)
      (J := fun s => (s.callers c).pc = .idle) hV (fun s a t _ hI _ hs => ?_) hn hnm
    · rcases hkept with hidle | ⟨hm, -⟩
      · exact hidle
      · obtain ⟨k, hmk, hk⟩ := leadsTo_released hV hcaller hend hm
        exact ⟨k, Nat.le_trans hnm hmk, hk⟩
    · by_cases ha : ∃ b, a = .caller c b
      · obtain ⟨b, rfl⟩ := ha
        have hact := @callerAct_inShutDown cfg s _ b (step_eq_some.1 hs).1.1 hI
        rw [← caller_self hs] at hact
        exact hact.imp id fun h => ⟨h, Nat.le_refl 0⟩
      · have hpc := caller_other hs fun b hb => ha ⟨b, hb⟩
        exact .inr ⟨hpc ▸ hI, Nat.le_refl 0⟩
  have henters := (leadsTo_entered hV hworkers hmonitor hcloser hcaller).trans
    ((Path.leadsTo_of_imp fun _ h => h).or hlate)
  intro n _
  rcases ((p.state n).callers c).pc.stages with h | h | h
  · exact ⟨n, Nat.le_refl n, h⟩
  · exact henters n h
  · exact hlate n h

end

/-- **Shutdown terminates**: once it is requested, every thread of the pool ends and the state is `SHUTDOWN`,
    and this is final. -/
theorem shutDown_terminates {ids : LiveIds cfg.corePoolSize} {p : Path (step cfg) Unspoiled}
    (h₀ : p.state 0 = initPool cfg ids) (hworkers : ∀ w, p.StronglyFair (WorkerActs w))
    (hmonitor : p.StronglyFair MonitorActs) (hcloser : p.StronglyFair CloserActs) {n : ℕ}
    (hf : (p.state n).isRequestShutDown = true) : ∃ m, n ≤ m ∧ ∀ k, m ≤ k → Terminated (p.state k) :=
  leadsTo_terminated (Path.invariant live_preserved (h₀ ▸ .init ids)) hworkers hmonitor hcloser hf

/-- **Every call returns**, and the guard of the worker table is free again and again. -/
theorem pool_calls_return {ids : LiveIds cfg.corePoolSize} {p : Path (step cfg) Unspoiled}
    (h₀ : p.state 0 = initPool cfg ids) (hworkers : ∀ w, p.StronglyFair (WorkerActs w))
    (hmonitor : p.StronglyFair MonitorActs) (hcloser : p.StronglyFair CloserActs) (n : ℕ) :
    (∃ m, n ≤ m ∧ (p.state m).guard = none) ∧
      ∀ c, p.StronglyFair (CallerActs c) → ∃ m, n ≤ m ∧ ((p.state m).callers c).pc = .idle := by
  have hV : ∀ k, (p.state k).Live := Path.invariant live_preserved (h₀ ▸ .init ids)
  exact ⟨leadsTo_free hV hworkers hmonitor hcloser n trivial,
    fun c hcaller => leadsTo_returns hV hworkers hmonitor hcloser hcaller n trivial⟩

/-! ## A path to the end -/

theorem Terminated.cannot (h : Terminated s) :
    (∀ w, ¬ Can (step cfg) (WorkerActs w) s) ∧ ¬ Can (step cfg) MonitorActs s ∧ ¬ Can (step cfg) CloserActs s := by
  refine ⟨?_, ?_, ?_⟩
  · rintro w ⟨a, t, hown, hs⟩
    obtain ⟨hen, -⟩ := step_eq_some.1 hs
    cases a with
    | worker v b =>
      have hpc := hen.2.1
      rw [h.workers v hen.1] at hpc
      cases b <;> cases hpc
    | _ => cases hown
  · rintro ⟨a, t, hown, hs⟩
    have hen := (step_eq_some.1 hs).1
    cases a with
    | monitor b =>
      have hpc := hen.1
      rw [h.monitor] at hpc
      cases b <;> cases hpc
    | _ => cases hown
  · rintro ⟨a, t, hown, hs⟩
    have hen := (step_eq_some.1 hs).1
    cases a with
    | closer b =>
      have hpc := hen.1
      rw [h.closer] at hpc
      cases b <;> cases hpc
    | _ => cases hown

theorem idle_cannot (h : (s.callers c).pc = .idle) : ¬ Can (step cfg) (CallerActs c) s := by
  rintro ⟨a, t, hown, hs⟩
  have hen := (step_eq_some.1 hs).1
  cases a with
  | caller d b =>
    obtain ⟨rfl, hne, -⟩ := hown
    exact hne (hen.1.symm.trans h)
  | _ => cases hown

/-- A run to the end is a path on which everybody is scheduled fairly. -/
theorem Terminated.exists_path {P : Pool → Act → Prop} {as bs : List Act} {u : Pool}
    (h : Run (step cfg) P s as t) (h' : Run (step cfg) P t bs u) (hu : Terminated u)
    (hidle : (u.callers c).pc = .idle) : ∃ p : Path (step cfg) P, p.state 0 = s ∧ p.state as.length = t ∧
      (∀ w, p.StronglyFair (WorkerActs w)) ∧ p.StronglyFair MonitorActs ∧ p.StronglyFair CloserActs ∧
      p.StronglyFair (CallerActs c) := by
  obtain ⟨p, h₀, hmid, hend⟩ := h.exists_path h'
  obtain ⟨hw, hm, hcl⟩ := @Terminated.cannot cfg u hu
  exact ⟨p, h₀, hmid, fun w => Path.stronglyFair_of_rest hend (hw w), Path.stronglyFair_of_rest hend hm,
    Path.stronglyFair_of_rest hend hcl, Path.stronglyFair_of_rest hend (idle_cannot hidle)⟩

/-- The one worker of the pool, the monitor and the caller of `ShutDownNow` come to the end. -/
def oneEnds : List Act :=
  [.closer .setStop, .closer .lock, .closer (.asyncClose 0 false), .closer .threadNum, .closer .pushEnd,
    .closer .unlock, .closer (.closeMonitor false), .closer .subPush, .closer .notify, .caller 0 .resume,
    .caller 0 .testState, .worker 0 .start, .worker 0 .finish, .worker 0 .count, .worker 0 .compare,
    .worker 0 .setShutDown, .worker 0 .notifyAll, .worker 0 .notifyFinished, .monitor .start, .monitor .finish,
    .caller 0 .wake]

/-- Shutdown of a pool that may grow to two workers. -/
theorem shutDown_terminates_one : ∃ p : Path (step ⟨1, 2⟩) Unspoiled, p.state 0 = initPool ⟨1, 2⟩ (.first 1) ∧
    ∃ m, 2 ≤ m ∧ ∀ k, m ≤ k → Terminated (p.state k) := by
  obtain ⟨t, ht, hf, u, hu, h1, h2, h3, h4, h5⟩ : ∃ t, Run (step ⟨1, 2⟩) Unspoiled (initPool ⟨1, 2⟩ (.first 1))
      [.caller 0 (.shutDown true), .caller 0 (.cas false)] t ∧ t.isRequestShutDown = true ∧
      ∃ u ∈ exec (step ⟨1, 2⟩) Unspoiled t oneEnds, u.closer.pc = .returned ∧ u.monitor.pc = .ended ∧
        (∀ w < u.workerNum, (u.workers w).pc = .ended) ∧ u.state = .shutDown ∧ (u.callers 0).pc = .idle :=
    exists_run (by decide +kernel) fun _ _ h => h
  obtain ⟨p, h₀, hmid, hworkers, hmonitor, hcloser, -⟩ :=
    Terminated.exists_path ht (run_of_exec hu) ⟨h1, h2, h3, h4⟩ h5
  exact ⟨p, h₀, @shutDown_terminates ⟨1, 2⟩ (.first 1) p h₀ hworkers hmonitor hcloser 2 (hmid ▸ hf)⟩

/-- There `ShutDownNow` returns. -/
theorem pool_calls_return_one : ∃ p : Path (step ⟨1, 2⟩) Unspoiled, p.state 0 = initPool ⟨1, 2⟩ (.first 1) ∧
    ((p.state 2).callers 0).pc = .closing ∧ ∃ m, 2 ≤ m ∧ ((p.state m).callers 0).pc = .idle := by
  obtain ⟨t, ht, hpc, u, hu, h1, h2, h3, h4, h5⟩ : ∃ t, Run (step ⟨1, 2⟩) Unspoiled (initPool ⟨1, 2⟩ (.first 1))
      [.caller 0 (.shutDown true), .caller 0 (.cas false)] t ∧ (t.callers 0).pc = .closing ∧
      ∃ u ∈ exec (step ⟨1, 2⟩) Unspoiled t oneEnds, u.closer.pc = .returned ∧ u.monitor.pc = .ended ∧
        (∀ w < u.workerNum, (u.workers w).pc = .ended) ∧ u.state = .shutDown ∧ (u.callers 0).pc = .idle :=
    exists_run (by decide +kernel) fun _ _ h => h
  obtain ⟨p, h₀, hmid, hworkers, hmonitor, hcloser, hcaller⟩ :=
    Terminated.exists_path ht (run_of_exec hu) ⟨h1, h2, h3, h4⟩ h5
  exact ⟨p, h₀, hmid ▸ hpc, (@pool_calls_return ⟨1, 2⟩ (.first 1) p h₀ hworkers hmonitor hcloser 2).2 0 hcaller⟩

/-! ## A fixed pool -/

section
variable {n : ℕ}

/-- No step of a fixed pool spoils its shutdown. -/
theorem FixedPool.unspoiled (hn : 1 ≤ n) (h : FixedPool n s) (hreg : Regular s a) (hen : Enabled s a) :
    Unspoiled s a := by
  refine ⟨hreg, h.countsAll hn hen, h.closesAll hen hreg, ?_⟩
  cases a with
  | monitor b =>
    cases b with
    | create id => exact absurd rfl (h.noGrowth hen id)
    | find =>
      -- no worker has retired, so no id is found
      intro e hfind
      obtain ⟨id, hid, hfound⟩ := Option.bind_eq_some_iff.1 hfind
      obtain ⟨he, rfl⟩ := findThread_some hfound
      have hlisted := h.accounts.books.pending.iter (by rw [hen.1]; rfl) _ (List.mem_of_mem_head? hid) _ he
      cases (h.fixed.stays e.2).1.symm.trans hlisted.1
    | _ => trivial
  | _ => trivial

/-- **A fixed pool shuts down and its calls return**, in every regular run that is fair. -/
theorem fixed_terminates (hn : 1 ≤ n) {ids : LiveIds (fixedThreadPool n).corePoolSize}
    {p : Path (step (fixedThreadPool n)) Regular} (h₀ : p.state 0 = initPool (fixedThreadPool n) ids)
    (hworkers : ∀ w, p.StronglyFair (WorkerActs w)) (hmonitor : p.StronglyFair MonitorActs)
    (hcloser : p.StronglyFair CloserActs) :
    (∀ k, (p.state k).isRequestShutDown = true → ∃ m, k ≤ m ∧ ∀ k', m ≤ k' → Terminated (p.state k')) ∧
    ∀ c, p.StronglyFair (CallerActs c) → ∀ k, ∃ m, k ≤ m ∧ ((p.state m).callers c).pc = .idle := by
  have hfixed : ∀ k, FixedPool n (p.state k) := Path.invariant fixedPool_preserved (h₀ ▸ .init ids)
  -- the same path, as one of unspoiled steps
  have hunspoiled : ∀ k a, p.act k = some a → Regular (p.state k) a →
      step (fixedThreadPool n) (p.state k) a = some (p.state (k + 1)) → Unspoiled (p.state k) a :=
    fun k a _ hreg hs => (hfixed k).unspoiled hn hreg (step_eq_some.1 hs).1
  have hV : ∀ k, ((p.strengthen hunspoiled).state k).Live :=
    Path.invariant live_preserved (show (p.state 0).Live from h₀ ▸ .init ids)
  exact ⟨fun k hf => leadsTo_terminated hV hworkers hmonitor hcloser hf,
    fun c hcaller k => leadsTo_returns hV hworkers hmonitor hcloser hcaller k trivial⟩

/-- Shutdown of `FixedThreadPool(1)`. -/
theorem fixed_terminates_one : ∃ p : Path (step (fixedThreadPool 1)) Regular,
    p.state 0 = initPool (fixedThreadPool 1) (.first 1) ∧ (p.state 2).isRequestShutDown = true ∧
      (∃ m, 2 ≤ m ∧ ∀ k, m ≤ k → Terminated (p.state k)) ∧ ∃ m, 2 ≤ m ∧ ((p.state m).callers 0).pc = .idle := by
  obtain ⟨t, ht, hf, u, hu, h1, h2, h3, h4, h5⟩ : ∃ t, Run (step (fixedThreadPool 1)) Regular
      (initPool (fixedThreadPool 1) (.first 1)) [.caller 0 (.shutDown true), .caller 0 (.cas false)] t ∧
      t.isRequestShutDown = true ∧ ∃ u ∈ exec (step (fixedThreadPool 1)) Regular t oneEnds, u.closer.pc = .returned ∧
        u.monitor.pc = .ended ∧ (∀ w < u.workerNum, (u.workers w).pc = .ended) ∧ u.state = .shutDown ∧
        (u.callers 0).pc = .idle :=
    exists_run (by decide +kernel) fun _ _ h => h
  obtain ⟨p, h₀, hmid, hworkers, hmonitor, hcloser, hcaller⟩ :=
    Terminated.exists_path ht (run_of_exec hu) ⟨h1, h2, h3, h4⟩ h5
  have hf' : (p.state 2).isRequestShutDown = true := hmid ▸ hf
  obtain ⟨hends, hreturns⟩ := fixed_terminates Nat.one_pos h₀ hworkers hmonitor hcloser
  exact ⟨p, h₀, hf', hends 2 hf', hreturns 0 hcaller 2⟩

end

end Empool
