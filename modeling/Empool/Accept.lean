/-
  Add calls against the closing of their pools.

  In each of the three pools an add call tests a flag that the closing sets,
  and pushes its task in a later step; there is no lock around the two.  So a
  task may be pushed while the flag is set, by a call that has passed the test
  before (`pushed_late`); but by no other call, and once by each
  (`late_pushes`).

  The flag is `m_isRequestShutDown` of a `SingleThreadPool` and of a
  `ScalingThreadPool`, and `m_isRequestClose` of the thread of a
  `TimerTaskHandler`.
-/
import Empool.Lib.Gate
import Empool.Scaling.Frame
import Empool.Single.Closing
import Empool.Timer.Stop

namespace Empool

open Lts

/-! ## `SingleThreadPool` -/

namespace SingleThreadPool

/-- The caller is in `DoAddTask`, past the test of the flag. -/
def CallerPc.past : CallerPc → Prop
  | .push _ => True
  | _ => False

/-- The next step is the call of `PushTask` in `DoAddTask` of the caller `c`. -/
def pushes (s : SingleThreadPool) (a : Act) (c : ℕ) : Prop :=
  ∃ spurious task, a = .caller c spurious ∧ s.callers c = .push task

theorem gate : Gate step (fun s => s.isRequestShutDown = true) (fun s c => (s.callers c).past) pushes where
  stays s a t hs hf := by
    cases trans_of_step hs <;> first | exact hf | rfl
  enters s a t c hs hf hc := by
    have hupd : ∀ {d : ℕ} {pc : CallerPc}, ¬ pc.past → (Function.update s.callers d pc c).past →
        (s.callers c).past :=
      fun hpc hc => of_update (fun hp => absurd hp hpc) hc
    cases trans_of_step hs with
    | accept hd hno => exact absurd (hf.symm.trans hno) Bool.noConfusion
    | addTask | shutDown | refuse | push | win | released | wait => exact hupd id hc
    | @lose d spurious now | @resume d spurious now => cases now <;> exact hupd id hc
    | _ => exact hc
  within s a t c _ hact := by
    obtain ⟨spurious, task, -, hc⟩ := hact
    rw [hc]
    trivial
  leaves s a t c hs hact := by
    obtain ⟨spurious, task, rfl, hc⟩ := hact
    simp only [step, callerStep, hc, Option.some.injEq] at hs
    subst hs
    show ¬ (Function.update s.callers c .idle c).past
    rw [Function.update_self]
    exact id

end SingleThreadPool

/-! ## `ScalingThreadPool` -/

namespace Pool

variable {cfg : Config}

/-- The next step is the call of `Push` in `DoAddTask` of the caller `c`. -/
def pushes (_ : Pool) (a : Act) (c : ℕ) : Prop := a = .caller c .push

/-- A caller gets to the call of `Push` by the test of the flag. -/
theorem push_of_callerAct {s : Pool} {cl : Caller} {b : CallerAct} (hpc : cl.pc = b.at)
    (hf : s.isRequestShutDown = true) : (callerAct cfg s cl b).1.pc ≠ .push := by
  cases b with
  | load => simp [callerAct, hf, Caller.idle]
  | cas spurious | resume =>
    cases hn : cl.now <;> simp [callerAct, Caller.afterShutDown, Caller.idle, hf, hn]
  | testState | wake =>
    unfold callerAct Caller.waitState
    split_ifs <;> exact fun hc => by cases hc
  | addTask | shutDown | push | notify => exact fun hc => by cases hc

theorem gate : Gate (step cfg) (fun s => s.isRequestShutDown = true) (fun s c => (s.callers c).pc = .push)
    pushes where
  stays s a t hs hf := by
    cases hf' : t.isRequestShutDown with
    | true => rfl
    | false => exact (flag_mono hs hf').symm.trans hf
  enters s a t c hs hf hc := by
    obtain ⟨hen, rfl⟩ := step_eq_some.1 hs
    cases a with
    | worker w b => exact (workerNext_callers_pc w b c).symm.trans hc
    | caller d b =>
      have hc : (Function.update s.callers d (callerAct cfg s (s.callers d) b).1 c).pc = .push := hc
      rcases cases_update (P := fun cl : Caller => cl.pc = .push) hc with ⟨-, hc⟩ | ⟨-, hc⟩
      · exact absurd hc (push_of_callerAct hen.1 hf)
      · exact hc
    | monitor b => rwa [next, monitorAct_callers] at hc
    | closer b => rwa [next, closerAct_callers] at hc
  within s a t c hs hact := by
    subst hact
    exact (step_eq_some.1 hs).1.1
  leaves s a t c hs hact := by
    subst hact
    obtain ⟨-, rfl⟩ := step_eq_some.1 hs
    show ((callerNext cfg s c .push).callers c).pc ≠ _
    unfold callerNext
    simp [callerAct]

end Pool

/-! ## `TimerTaskHandler` -/

namespace ScheduledThreadPool

variable {n : ℕ}

/-- The caller is in an add call of the handler `i`, past the test of the flag. -/
def CallerPc.past (i : ℕ) : CallerPc → Prop
  | .addTest j _ _ _ | .addDeadline j _ _ _ | .addInterval j _ _ | .addPush j _ => j = i
  | _ => False

/-- The next step is the push in an add call of the handler `i`, of the caller `c`. -/
def pushes (i : ℕ) (s : ScheduledThreadPool) (a : Act) (c : ℕ) : Prop :=
  ∃ now spurious id, a = .caller c now spurious ∧ s.callers c = .addPush i id

theorem gate (i : ℕ) : Gate (step n) (fun s => (s.handlers i).isRequestClose = true)
    (fun s c => (s.callers c).past i) (pushes i) where
  stays s a t hs hf := isRequestClose_of_move (handler_move (trans_of_step hs) i) hf
  enters s a t c hs hf hc := by
    have hupd : ∀ {d : ℕ} {pc : CallerPc}, (pc.past i → (s.callers d).past i) →
        (Function.update s.callers d pc c).past i → (s.callers c).past i :=
      fun hpc hc => of_update (P := CallerPc.past i) hpc hc
    cases trans_of_step hs with
    | handler | handlerCloser | setStop | skip | enter | leave | setShutDown => exact hc
    | addClose hd hno =>
      refine hupd (fun hp => ?_) hc
      obtain rfl : _ = i := hp
      exact absurd (hf.symm.trans hno) Bool.noConfusion
    | addTest hd | addInterval hd => exact hupd (fun hp => by rw [hd]; exact hp) hc
    | addDeadline hd hpc =>
      refine hupd (fun hp => ?_) hc
      rw [hd]
      rcases hpc with rfl | ⟨interval, rfl⟩ <;> exact hp
    | _ =>
      refine hupd (fun hp => ?_) hc
      exact False.elim hp
  within s a t c _ hact := by
    obtain ⟨now, spurious, id, -, hc⟩ := hact
    rw [hc]
    rfl
  leaves s a t c hs hact := by
    obtain ⟨now, spurious, id, rfl, hc⟩ := hact
    simp only [step, callerNext, hc] at hs
    split_ifs at hs with hfree
    cases hs
    show ¬ (Function.update s.callers c .idle c).past i
    rw [Function.update_self]
    exact fun hp => hp

end ScheduledThreadPool

/-! ## The three pools -/

theorem late_pushes :
    Closed SingleThreadPool.step (fun s => s.isRequestShutDown = true) (fun s c => (s.callers c).past)
      SingleThreadPool.pushes ∧
    (∀ cfg, Closed (step cfg) (fun s => s.isRequestShutDown = true) (fun s c => (s.callers c).pc = .push)
      Pool.pushes) ∧
    ∀ n i, Closed (ScheduledThreadPool.step n) (fun s => (s.handlers i).isRequestClose = true)
      (fun s c => (s.callers c).past i) (ScheduledThreadPool.pushes i) :=
  ⟨SingleThreadPool.gate.closed, fun _ => Pool.gate.closed, fun _ i => (ScheduledThreadPool.gate i).closed⟩

/-- In each pool a call passes the test, and a shutdown gets in between. -/
theorem pushed_late :
    (¬ ∀ mode, Sealed SingleThreadPool.step (fun s => s.isRequestShutDown = true) SingleThreadPool.pushes
      fun s => s = .create mode) ∧
    (¬ ∀ cfg ids, Sealed (step cfg) (fun s => s.isRequestShutDown = true) Pool.pushes
      fun s => s = initPool cfg ids) ∧
    ¬ ∀ n i, i < n → Sealed (ScheduledThreadPool.step n) (fun s => (s.handlers i).isRequestClose = true)
      (ScheduledThreadPool.pushes i) fun s => s = .create := by
  refine ⟨fun hall => ?_, fun hall => ?_, fun hall => ?_⟩
  · obtain ⟨s, hrun, hf, hc, hpush⟩ : ∃ s, Run SingleThreadPool.step Free (.create .lifo)
        [.construct, .addTask 0 7 5, .caller 0 false, .shutDown 1 false, .caller 1 false] s ∧
        s.isRequestShutDown = true ∧ s.callers 0 = .push (.functor 7 5) ∧
        (SingleThreadPool.step s (.caller 0 false)).isSome := exists_run (by decide +kernel) fun _ _ h => h
    obtain ⟨t, ht⟩ := Option.isSome_iff_exists.1 hpush
    exact hall .lifo _ rfl _ s hrun hf _ t 0 ht ⟨false, .functor 7 5, rfl, hc⟩
  · obtain ⟨s, hrun, hf, hpush⟩ : ∃ s, Run (step ⟨1, 1⟩) Free (initPool ⟨1, 1⟩ (.first 1))
        [.caller 0 (.addTask (some (.user 7))), .caller 0 .load, .caller 1 (.shutDown false),
          .caller 1 (.cas false)] s ∧ s.isRequestShutDown = true ∧
        (step ⟨1, 1⟩ s (.caller 0 .push)).isSome := exists_run (by decide +kernel) fun _ _ h => h
    obtain ⟨t, ht⟩ := Option.isSome_iff_exists.1 hpush
    exact hall ⟨1, 1⟩ (.first 1) _ rfl _ s hrun hf _ t 0 ht rfl
  · obtain ⟨s, hrun, hf, hc, hpush⟩ : ∃ s, Run (ScheduledThreadPool.step 1) Free .create
        [.addHandler 0 0 7 (.cron 3), .caller 0 5 false, .caller 0 5 false, .shutDownHandler 1 0 false,
          .caller 1 5 false, .handlerCloser 0 false, .handlerCloser 0 false, .caller 0 5 false,
          .caller 0 5 false] s ∧ (s.handlers 0).isRequestClose = true ∧ s.callers 0 = .addPush 0 7 ∧
        (ScheduledThreadPool.step 1 s (.caller 0 5 false)).isSome := exists_run (by decide +kernel) fun _ _ h => h
    obtain ⟨t, ht⟩ := Option.isSome_iff_exists.1 hpush
    exact hall 1 0 Nat.one_pos _ rfl _ s hrun hf _ t 0 ht ⟨5, false, 7, rfl, hc⟩

end Empool
