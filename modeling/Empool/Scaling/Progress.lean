/-
  What brings a `ScalingThreadPool` nearer to the end of its shutdown.

  `Unspoiled` excludes the steps that spoil a shutdown, `Pool.Live` is what is
  kept without them.  Then each thread has a rank that its own statements
  lower: the closing sequence before and after its pass, a worker that is
  closed (`settled_rank`), a monitor that is closed (`monitor_closed`), and a
  caller.  The guard apart, each of them can go on at all times.
-/
import Empool.Scaling.Fixed
import Empool.Scaling.Guard

namespace Empool

open Lts

variable {cfg : Config} {s t : Pool} {a : Act} {c w : ℕ}

/-- No step spoils the shutdown: nothing throws or fails spuriously, and no caller adds an `EndTask`; a worker that
    has not retired is left when the request wins and when `STOP` comes after a `SHUTDOWN`, and the last one that
    stops finds no retired one in `m_threads`; the monitor adds no worker after the closing pass has begun, and none
    whose id is still a key, and it joins only a worker that has signalled it. -/
def Unspoiled (s : Pool) (a : Act) : Prop := Regular s a ∧ CountsAll s a ∧ ClosesAll s a ∧ JoinsSignalled s a

instance (s : Pool) (a : Act) : Decidable (Unspoiled s a) := inferInstanceAs (Decidable (_ ∧ _))

/-- The next statement of the caller `c` in its call; a wake-up counts only if it has been signalled. -/
def CallerActs (c : ℕ) : Pool → Act → Prop
  | s, .caller d b => d = c ∧ b.at ≠ .idle ∧ (b = .wake → (s.callers c).notified = true)
  | _, _ => False

/-! ## What holds at all times -/

/-- The call has come past its `compare_exchange_weak`. -/
def CallerPc.late : CallerPc → Prop
  | .closing | .testState | .waiting => True
  | _ => False

/-- The monitor has been asked to close. -/
def CloserPc.monitorClosed : CloserPc → Prop
  | .subPush | .notify | .returned => True
  | _ => False

structure Pool.Live (s : Pool) : Prop where
  guarded : Guarded s
  accounts : Accounts s
  reported : ∀ v, (s.workers v).Ok ∧ (s.workers v).Reported
  closing : Closing s
  owed : s.isRequestShutDown = true → Owed s
  waiters : WaitersServed s
  monitor : s.closer.pc.monitorClosed → s.monitor.isRequestClose = true
  late : ∀ c, (s.callers c).pc.late → s.isRequestShutDown = true

theorem Pool.Live.init (ids : LiveIds cfg.corePoolSize) : (initPool cfg ids).Live where
  guarded := .init ids
  accounts := .init ids
  reported v := ⟨init_ok ids v, by simp [Worker.Reported, initPool, Worker.create]⟩
  closing := .init ids
  owed hf := by cases hf
  waiters := waitersServed_init ids
  monitor := False.elim
  late _ := False.elim

theorem Regular.noThrow (h : Regular s a) : NoThrow s a := by
  cases a with
  | worker w b =>
    cases b with
    | runThrow => cases h
    | _ => rfl
  | _ => rfl

theorem monitorClosed_step (hl : Locks s) (hreg : Regular s a) (hs : step cfg s a = some t)
    (h : s.closer.pc.monitorClosed → s.monitor.isRequestClose = true) (ht : t.closer.pc.monitorClosed) :
    t.monitor.isRequestClose = true := by
  by_cases ha : ∃ b, a = .closer b
  · obtain ⟨b, rfl⟩ := ha
    obtain ⟨hen, rfl⟩ := step_eq_some.1 hs
    rw [hen.1] at h
    cases b with
    | closeMonitor spurious =>
      cases spurious with
      | false => exact Bool.or_true _
      | true => cases hreg
    | asyncClose | pushEnd =>
      exfalso
      simp only [next, closerAct, hen.1] at ht
      exact ht
    | subPush | notify => exact h trivial
    | _ => exact ht.elim
  have hidle : s.closer.pc = .idle ∨ t.closer = s.closer := by
    by_cases hidle : s.closer.pc = .idle
    · exact .inl hidle
    · exact .inr (closer_other hl hidle hs fun b hb => ha ⟨b, hb⟩)
  rcases hidle with hidle | hc
  · -- the closing sequence has at most begun
    exfalso
    obtain ⟨hen, rfl⟩ := step_eq_some.1 hs
    cases a with
    | worker w b =>
      rw [next, workerNext_closer, hidle] at ht
      exact ht
    | monitor b =>
      rw [next, monitorAct_closer, hidle] at ht
      exact ht
    | caller c b =>
      by_cases hw : b.Wins s
      · rw [next, (@callerNext_wins cfg s c b hw).2.2] at ht
        exact ht
      · rw [next, (callerNext_closing c b hw).2, hidle] at ht
        exact ht
    | closer b => exact ha ⟨b, rfl⟩
  · rw [hc] at ht
    exact monitor_closed_stays hs (h ht)

/-- What a caller's own step makes of its place. -/
theorem callerAct_late {cl : Caller} {b : CallerAct} (hpc : cl.pc = b.at)
    (h : (callerAct cfg s cl b).1.pc.late) : cl.pc.late ∨ ∃ spurious, b = .cas spurious := by
  rw [hpc]
  cases b with
  | cas spurious => exact .inr ⟨spurious, rfl⟩
  | resume | testState | wake => exact .inl trivial
  | load =>
    simp only [callerAct] at h
    split at h <;> exact h.elim
  | _ => exact h.elim

theorem late_step (hreg : Regular s a) (hs : step cfg s a = some t)
    (h : ∀ c, (s.callers c).pc.late → s.isRequestShutDown = true) (c : ℕ) (hc : (t.callers c).pc.late) :
    t.isRequestShutDown = true := by
  have hmono : s.isRequestShutDown = true → t.isRequestShutDown = true := by
    intro hf
    by_contra hf'
    rw [flag_mono hs (by simpa using hf')] at hf
    cases hf
  obtain ⟨hen, rfl⟩ := step_eq_some.1 hs
  cases a with
  | worker w b =>
    rw [next, workerNext_callers_pc] at hc
    exact hmono (h c hc)
  | monitor b =>
    rw [next, monitorAct_callers] at hc
    exact hmono (h c hc)
  | closer b =>
    rw [next, closerAct_callers] at hc
    exact hmono (h c hc)
  | caller d b =>
    by_cases hcd : c = d
    · subst hcd
      simp only [next, callerNext, Function.update_self] at hc
      rcases callerAct_late hen.1 hc with hlate | ⟨spurious, rfl⟩
      · exact hmono (h c hlate)
      · cases spurious with
        | true => cases hreg
        | false =>
          cases hf : s.isRequestShutDown with
          | true => exact hmono hf
          | false => exact (callerNext_wins c (.cas false) ⟨hf, rfl⟩).2.1
    · simp only [next, callerNext, Function.update_of_ne hcd] at hc
      exact hmono (h c hc)

theorem live_preserved : Preserved (step cfg) Unspoiled Pool.Live := by
  intro s a t h hP hs
  obtain ⟨hreg, hcounts, hcloses, hjoins⟩ := hP
  have hl := h.accounts.books.locks
  exact ⟨guarded_preserved s a t h.guarded hjoins hs, accounts_preserved s a t h.accounts trivial hs,
    workers_reported s a t h.reported hreg.noThrow hs,
    closing_preserved s a t h.accounts.books h.closing hcloses hs,
    owed_preserved s a t h.accounts h.owed hcounts hs,
    waitersServed_preserved s a t h.accounts h.waiters trivial hs,
    monitorClosed_step hl hreg hs h.monitor, late_step hreg hs h.late⟩

/-! ## The closing sequence -/

/-- The statements of the closing sequence before and after its pass. -/
def CloserPc.rank : CloserPc → ℕ
  | .setStop => 2
  | .lock => 1
  | .closeMonitor => 3
  | .subPush => 2
  | .notify => 1
  | _ => 0

/-- The closing sequence has still to lock the guard for its pass. -/
def CloserPc.before : CloserPc → Prop
  | .setStop | .lock => True
  | _ => False

/-- The pass is over. -/
def CloserPc.after : CloserPc → Prop
  | .closeMonitor | .subPush | .notify => True
  | _ => False

theorem closer_before {b : CloserAct} (hpc : s.closer.pc = b.at) (h : s.closer.pc.before) :
    (closerAct cfg s b).closer.pc.holds = true ∨
      (closerAct cfg s b).closer.pc.before ∧ (closerAct cfg s b).closer.pc.rank < s.closer.pc.rank := by
  rw [hpc] at h ⊢
  cases b with
  | setStop => exact .inr ⟨trivial, Nat.lt_succ_self 1⟩
  | lock => exact .inl rfl
  | _ => exact h.elim

theorem closer_after {b : CloserAct} (hpc : s.closer.pc = b.at) (h : s.closer.pc.after) :
    (closerAct cfg s b).closer.pc = .returned ∨
      (closerAct cfg s b).closer.pc.after ∧ (closerAct cfg s b).closer.pc.rank < s.closer.pc.rank := by
  rw [hpc] at h ⊢
  cases b with
  | closeMonitor => exact .inr ⟨trivial, Nat.lt_succ_self 2⟩
  | subPush => exact .inr ⟨trivial, Nat.lt_succ_self 1⟩
  | notify => exact .inl rfl
  | _ => exact h.elim

/-- Outside its pass, the closing sequence can go on as soon as the guard is free. -/
theorem can_closer_free (hg : s.guard = none) (h : s.closer.pc.before ∨ s.closer.pc.after) :
    Can (step cfg) CloserActs s := by
  have hown : ∀ {b : CloserAct}, s.closer.pc = b.at → b.ready s → Can (step cfg) CloserActs s :=
    fun hpc hr => can_step (a := .closer _) trivial ⟨hpc, fun _ => hg, hr⟩
  cases hpc : s.closer.pc with
  | setStop => exact hown (b := .setStop) hpc trivial
  | lock => exact hown (b := .lock) hpc trivial
  | closeMonitor => exact hown (b := .closeMonitor false) hpc trivial
  | subPush => exact hown (b := .subPush) hpc trivial
  | notify => exact hown (b := .notify) hpc trivial
  | idle | asyncClose | pushEnd | returned => rw [hpc] at h; exact (h.elim id id).elim

/-! ## A worker that is closed -/

/-- The statements of a worker that is closed, until it ends. -/
def WorkerPc.rank : WorkerPc → ℕ
  | .pop => 11
  | .popWait => 10
  | .judge | .dispatch => 9
  | .asyncClose | .running => 8
  | .start | .check | .recheck => 7
  | .finish => 6
  | .count => 5
  | .compare => 4
  | .setShutDown | .subPush => 3
  | .notifyAll | .subNotify => 2
  | .notifyFinished => 1
  | .ended => 0

/-- A worker that is closed, or has left its loop, comes nearer to its end. -/
theorem settled_rank {wk : Worker} {b : WorkerAct} (hok : wk.Ok) (hpc : wk.pc = b.at) (h : wk.Settled) :
    (workerAct cfg s wk b).1.pc.rank ≤ wk.pc.rank ∧ (b ≠ .wake → (workerAct cfg s wk b).1.pc.rank < wk.pc.rank) := by
  suffices hlt : (workerAct cfg s wk b).1.pc.rank < wk.pc.rank ∨ b = .wake ∧
      (workerAct cfg s wk b).1.pc.rank ≤ wk.pc.rank by
    rcases hlt with hlt | ⟨hw, hle⟩
    · exact ⟨Nat.le_of_lt hlt, fun _ => hlt⟩
    · exact ⟨hle, fun hne => absurd hw hne⟩
  unfold Worker.Ok at hok
  rw [hpc] at hok ⊢
  cases b with
  | start | check | recheck =>
    -- the worker looks at its close flag, and leaves the loop
    have hr : wk.isRequestClose = true := by
      rcases h with hr | hf | he
      · exact hr
      · exact absurd hok.1 hf
      · rw [he] at hpc; cases hpc
    left
    simp [workerAct, Worker.checkFunc, hr, WorkerPc.rank, WorkerAct.at]
  | wake =>
    refine .inr ⟨rfl, ?_⟩
    simp only [workerAct, Worker.popTimeWait]
    split <;> simp [WorkerPc.rank, WorkerAct.at]
  | pop =>
    left
    simp only [workerAct, Worker.popTimeWait]
    split <;> simp [WorkerPc.rank, WorkerAct.at]
  | judge | dispatch | finish | compare =>
    left
    simp only [workerAct]
    split <;> simp [WorkerPc.rank, WorkerAct.at]
  | _ => exact .inl (by simp [workerAct, WorkerPc.rank, WorkerAct.at])

/-- A worker can go on as soon as the guard is free. -/
theorem can_worker (hw : w < s.workerNum) (hg : s.guard = none) :
    (s.workers w).pc = .ended ∨ Can (step cfg) (WorkerActs w) s := by
  have hown : ∀ {b : WorkerAct}, b ≠ .wake → (s.workers w).pc = b.at → Can (step cfg) (WorkerActs w) s :=
    fun hb hpc => can_step (a := .worker w _) ⟨rfl, hb⟩ ⟨hw, hpc, fun _ => hg⟩
  cases hpc : (s.workers w).pc with
  | ended => exact .inl rfl
  | start => exact .inr (hown (b := .start) nofun hpc)
  | check => exact .inr (hown (b := .check) nofun hpc)
  | pop => exact .inr (hown (b := .pop) nofun hpc)
  | popWait => exact .inr (hown (b := .timeout) nofun hpc)
  | judge => exact .inr (hown (b := .judge) nofun hpc)
  | asyncClose => exact .inr (hown (b := .asyncClose false) nofun hpc)
  | recheck => exact .inr (hown (b := .recheck) nofun hpc)
  | dispatch => exact .inr (hown (b := .dispatch) nofun hpc)
  | running => exact .inr (hown (b := .runReturn) nofun hpc)
  | finish => exact .inr (hown (b := .finish) nofun hpc)
  | subPush => exact .inr (hown (b := .subPush) nofun hpc)
  | subNotify => exact .inr (hown (b := .subNotify) nofun hpc)
  | count => exact .inr (hown (b := .count) nofun hpc)
  | compare => exact .inr (hown (b := .compare) nofun hpc)
  | setShutDown => exact .inr (hown (b := .setShutDown) nofun hpc)
  | notifyAll => exact .inr (hown (b := .notifyAll) nofun hpc)
  | notifyFinished => exact .inr (hown (b := .notifyFinished) nofun hpc)

/-! ## The monitor, once closed -/

/-- The statements of a monitor that is closed, outside of an iteration. -/
def MonitorPc.rank : MonitorPc → ℕ
  | .lock => 4
  | .wait => 3
  | .start | .check | .recheck => 2
  | .finish => 1
  | _ => 0

/-- The monitor is in no iteration. -/
def MonitorPc.outside : MonitorPc → Prop
  | .start | .check | .lock | .wait | .recheck | .finish | .ended => True
  | _ => False

theorem monitor_closed {b : MonitorAct} (hpc : s.monitor.pc = b.at) (hr : s.monitor.isRequestClose = true)
    (h : s.monitor.pc.outside) : (monitorAct cfg s b).monitor.pc = .ended ∨
      (monitorAct cfg s b).monitor.pc.outside ∧ (monitorAct cfg s b).monitor.pc.rank ≤ s.monitor.pc.rank ∧
      (b ≠ .wake → (monitorAct cfg s b).monitor.pc.rank < s.monitor.pc.rank) := by
  have hto : ∀ pc, (monitorAct cfg s b).monitor.pc = pc → pc.outside → pc.rank < b.at.rank →
      (monitorAct cfg s b).monitor.pc.outside ∧ (monitorAct cfg s b).monitor.pc.rank ≤ b.at.rank ∧
      (b ≠ .wake → (monitorAct cfg s b).monitor.pc.rank < b.at.rank) := by
    rintro _ rfl hout hlt
    exact ⟨hout, Nat.le_of_lt hlt, fun _ => hlt⟩
  rw [hpc] at h ⊢
  cases b with
  | start | check | recheck =>
    exact .inr (hto .finish (by simp [monitorAct, hr, Pool.monitorAt]) trivial (by decide))
  | lock =>
    by_cases hj : s.judgeFunc cfg = true
    · exact .inr (hto .recheck (by simp [monitorAct, Pool.timeWait, hj, Pool.monitorAt]) trivial (by decide))
    · exact .inr (hto .wait (by simp [monitorAct, Pool.timeWait, hj]) trivial (by decide))
  | wake =>
    by_cases hj : s.judgeFunc cfg = true
    · exact .inr (hto .recheck (by simp [monitorAct, Pool.timeWait, hj, Pool.monitorAt]) trivial (by decide))
    · -- it waits again
      have hw : (monitorAct cfg s .wake).monitor.pc = .wait := by simp [monitorAct, Pool.timeWait, hj]
      exact .inr ⟨hw ▸ trivial, Nat.le_of_eq (by rw [hw]; rfl), fun hne => absurd rfl hne⟩
  | timeout => exact .inr (hto .recheck rfl trivial (by decide))
  | finish => exact .inl rfl
  | _ => exact h.elim

theorem Locks.outside_of_free (hl : Locks s) (hg : s.guard = none) : s.monitor.pc.outside := by
  have hnot : s.monitor.pc.holds = false := by
    by_contra hh
    have := hl.monitor.2 (by simpa using hh)
    rw [hg] at this
    cases this
  generalize s.monitor.pc = pc at hnot ⊢
  cases pc <;> trivial

theorem can_monitor_free (hg : s.guard = none) (hl : Locks s) :
    s.monitor.pc = .ended ∨ Can (step cfg) MonitorActs s := by
  have hout := hl.outside_of_free hg
  have hown : ∀ {b : MonitorAct}, b ≠ .wake → s.monitor.pc = b.at → b.ready s → Can (step cfg) MonitorActs s :=
    fun hb hpc hr => can_step (a := .monitor _) hb ⟨hpc, fun _ => hg, hr⟩
  cases hpc : s.monitor.pc with
  | ended => exact .inl rfl
  | start => exact .inr (hown (b := .start) nofun hpc trivial)
  | check => exact .inr (hown (b := .check) nofun hpc trivial)
  | lock => exact .inr (hown (b := .lock) nofun hpc trivial)
  | wait => exact .inr (hown (b := .timeout) nofun hpc trivial)
  | recheck => exact .inr (hown (b := .recheck) nofun hpc trivial)
  | finish => exact .inr (hown (b := .finish) nofun hpc trivial)
  | grow | create | insert | joinNew | sub | join => rw [hpc] at hout; exact hout.elim

/-! ## A call -/

/-- The statements of a call up to `compare_exchange_weak`, or to the end of `AddTask`. -/
def CallerPc.enters : CallerPc → Prop
  | .load | .push | .notify | .cas => True
  | _ => False

def CallerPc.rank : CallerPc → ℕ
  | .load | .closing => 3
  | .push | .testState => 2
  | .notify | .waiting => 1
  | .cas | .idle => 0

theorem CallerPc.stages (pc : CallerPc) : pc = .idle ∨ pc.enters ∨ pc.late := by
  cases pc with
  | idle => exact .inl rfl
  | load | push | notify | cas => exact .inr (.inl trivial)
  | closing | testState | waiting => exact .inr (.inr trivial)

/-- `ShutDown` is left: the call returns, or tests the state. -/
theorem afterShutDown_pc (cl : Caller) : cl.afterShutDown.pc = .idle ∨ cl.afterShutDown.pc = .testState := by
  unfold Caller.afterShutDown
  split
  · exact .inr rfl
  · exact .inl rfl

theorem callerAct_enters {cl : Caller} {b : CallerAct} (hpc : cl.pc = b.at) (h : cl.pc.enters) :
    ((callerAct cfg s cl b).1.pc = .idle ∨ (callerAct cfg s cl b).1.pc.late) ∨
      (callerAct cfg s cl b).1.pc.enters ∧ (callerAct cfg s cl b).1.pc.rank < cl.pc.rank := by
  rw [hpc] at h ⊢
  cases b with
  | load =>
    simp only [callerAct]
    split
    · exact .inl (.inl rfl)
    · exact .inr ⟨trivial, Nat.lt_succ_self 2⟩
  | push => exact .inr ⟨trivial, Nat.lt_succ_self 1⟩
  | notify => exact .inl (.inl rfl)
  | cas spurious =>
    left
    simp only [callerAct]
    split
    · rcases afterShutDown_pc cl with h' | h' <;> rw [h']
      · exact .inl rfl
      · exact .inr trivial
    · exact .inr trivial
  | _ => exact h.elim

/-- In the second half of its call a caller tests the state, or waits for it. -/
theorem callerAct_inShutDown {cl : Caller} {b : CallerAct} (hpc : cl.pc = b.at) (h : cl.pc.late) :
    (callerAct cfg s cl b).1.pc = .idle ∨ (callerAct cfg s cl b).1.pc.late := by
  rw [hpc] at h
  cases b with
  | resume =>
    simp only [callerAct]
    rcases afterShutDown_pc cl with h' | h' <;> rw [h']
    · exact .inl rfl
    · exact .inr trivial
  | testState | wake =>
    simp only [callerAct, Caller.waitState]
    split
    · exact .inl rfl
    · exact .inr trivial
  | _ => exact h.elim

/-- When the state is `SHUTDOWN`, it returns. -/
theorem callerAct_shutDown {cl : Caller} {b : CallerAct} (hst : s.state = .shutDown) (hpc : cl.pc = b.at)
    (h : cl.pc.late) : (callerAct cfg s cl b).1.pc = .idle ∨
      (callerAct cfg s cl b).1.pc.late ∧ (callerAct cfg s cl b).1.pc.rank < cl.pc.rank := by
  rw [hpc] at h ⊢
  cases b with
  | resume =>
    simp only [callerAct]
    rcases afterShutDown_pc cl with h' | h' <;> rw [h']
    · exact .inl rfl
    · exact .inr ⟨trivial, Nat.lt_succ_self 2⟩
  | testState | wake =>
    left
    simp only [callerAct, Caller.waitState, hst, if_true]
    rfl
  | _ => exact h.elim

/-- The other threads leave a caller where it is. -/
theorem caller_other (hs : step cfg s a = some t) (ha : ∀ b, a ≠ .caller c b) :
    (t.callers c).pc = (s.callers c).pc := by
  obtain ⟨-, rfl⟩ := step_eq_some.1 hs
  cases a with
  | worker w b => exact workerNext_callers_pc w b c
  | monitor b => rw [next, monitorAct_callers]
  | closer b => rw [next, closerAct_callers]
  | caller d b =>
    have hcd : c ≠ d := by
      rintro rfl
      exact ha b rfl
    simp only [next, callerNext, Function.update_of_ne hcd]

theorem caller_self {b : CallerAct} (hs : step cfg s (.caller c b) = some t) :
    t.callers c = (callerAct cfg s (s.callers c) b).1 := by
  obtain ⟨-, rfl⟩ := step_eq_some.1 hs
  simp only [next, callerNext, Function.update_self]

theorem can_caller_free (hg : s.guard = none) (h : (s.callers c).pc.enters) : Can (step cfg) (CallerActs c) s := by
  have hown : ∀ {b : CallerAct}, b.at ≠ .idle → b ≠ .wake → (s.callers c).pc = b.at → b.ready s →
      Can (step cfg) (CallerActs c) s := fun hi hb hpc hr =>
    can_step (a := .caller c _) ⟨rfl, hi, fun h => absurd h hb⟩ ⟨hpc, fun _ => hg, hr⟩
  cases hpc : (s.callers c).pc with
  | load => exact hown (b := .load) nofun nofun hpc trivial
  | push => exact hown (b := .push) nofun nofun hpc trivial
  | notify => exact hown (b := .notify) nofun nofun hpc trivial
  | cas => exact hown (b := .cas false) nofun nofun hpc trivial
  | idle | closing | testState | waiting => rw [hpc] at h; exact h.elim

end Empool
