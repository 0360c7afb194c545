/-
  The shutdown calls of the pools: which of them closes.

  Each of the three closing sequences begins with one `compare_exchange_weak`
  on a request flag, which is not repeated when it fails.  So the calls are
  those of a latch (`closing_once`): at most one of them closes the pool, and one
  does unless all attempts have failed spuriously; if they have, the calls
  return and nobody closes (`closing_never`).

  `m_isRequestShutDown` of a `TimerTaskHandler` is tried for by the callers of
  its own `ShutDown` and by the closing sequence of the `ScheduledThreadPool` it
  belongs to.
-/
import Empool.Lib.Latch
import Empool.Scaling.Frame
import Empool.Single.Closing
import Empool.Timer.Trans

namespace Empool

open Lts

/-! ## `SingleThreadPool` -/

namespace SingleThreadPool

variable {s t : SingleThreadPool} {a : Act} {c : ℕ}

/-- The caller is about to execute the `compare_exchange_weak` of `ShutDown`. -/
def CallerPc.tries : CallerPc → Bool
  | .cas _ => true
  | _ => false

/-- The caller executes the body of `ShutDown`. -/
def CallerPc.closes : CallerPc → Bool
  | .closing _ => true
  | _ => false

/-- The caller whose `compare_exchange_weak` the step executes. -/
def attempt (s : SingleThreadPool) : Act → Option (ℕ × Bool)
  | .caller c spurious => if (s.callers c).tries then some (c, spurious) else none
  | _ => none

def latch : Latch SingleThreadPool Act ℕ where
  step := step
  flag := isRequestShutDown
  attempt := attempt
  pending s c := (s.callers c).tries
  inside s c := (s.callers c).closes
  returned s c := decide (s.callers c = .idle)

theorem attempt_eq_some {spurious : Bool} (ha : s.attempt a = some (c, spurious)) :
    ∃ now, a = .caller c spurious ∧ s.callers c = .cas now := by
  cases a with
  | caller d sp =>
    simp only [attempt, Option.ite_none_right_eq_some, Option.some.injEq, Prod.mk.injEq] at ha
    obtain ⟨htries, rfl, rfl⟩ := ha
    cases hc : s.callers d with
    | cas now => exact ⟨now, rfl, rfl⟩
    | _ =>
      rw [hc] at htries
      cases htries
  | _ => cases ha

theorem attempt_cas {now : Bool} (spurious : Bool) (hc : s.callers c = .cas now) :
    s.attempt (.caller c spurious) = some (c, spurious) := by
  simp [attempt, hc, CallerPc.tries]

/-- What the `compare_exchange_weak` does. -/
theorem step_cas {spurious now : Bool} (hc : s.callers c = .cas now)
    (hs : step s (.caller c spurious) = some t) :
    t.isRequestShutDown = (s.isRequestShutDown || !spurious) ∧
      (t.callers c).closes = (!s.isRequestShutDown && !spurious) := by
  simp only [step, callerStep, hc] at hs
  cases hf : s.isRequestShutDown <;> cases spurious <;> rw [hf] at hs <;> cases hs <;>
    simp [afterShutDown, callerAt, hf, CallerPc.closes]
  all_goals cases now <;> rfl

/-- A caller gets into the body of `ShutDown` by its `compare_exchange_weak`. -/
theorem closes_of_step (hs : step s a = some t) (hin : (t.callers c).closes = true) :
    (s.callers c).closes = true ∨ ∃ spurious, s.attempt a = some (c, spurious) := by
  have hupd : ∀ {d : ℕ} {pc : CallerPc}, pc.closes = false → (Function.update s.callers d pc c).closes = true →
      (s.callers c).closes = true :=
    fun hpc hc => of_update (P := fun pc => CallerPc.closes pc = true) (fun hp => by cases hpc.symm.trans hp) hc
  cases trans_of_step hs with
  | @win d now hd hf =>
    rcases cases_update (P := fun pc => CallerPc.closes pc = true) hin with ⟨rfl, -⟩ | ⟨-, hin⟩
    · exact .inr ⟨false, attempt_cas _ hd⟩
    · exact .inl hin
  | addTask | shutDown | refuse | accept | push | released | wait => exact .inl (hupd rfl hin)
  | @lose d spurious now | @resume d spurious now => cases now <;> exact .inl (hupd rfl hin)
  | _ => exact .inl hin

/-- A caller stays at its `compare_exchange_weak` until it executes it. -/
theorem tries_of_step (hs : step s a = some t) (hp : (s.callers c).tries = true) :
    (t.callers c).tries = true ∨ ∃ spurious, s.attempt a = some (c, spurious) := by
  have hupd : ∀ {d : ℕ} {pc : CallerPc}, (s.callers d).tries = false →
      (Function.update s.callers d pc c).tries = true := by
    refine fun hd => update_of (P := fun pc => CallerPc.tries pc = true) ?_ fun _ => hp
    rintro rfl
    cases hd.symm.trans hp
  have htry : ∀ {d : ℕ} {pc : CallerPc} {spurious now : Bool}, s.callers d = .cas now →
      (Function.update s.callers d pc c).tries = true ∨
        ∃ sp, s.attempt (.caller d spurious) = some (c, sp) := by
    intro d pc spurious now hd
    rcases update_or (P := fun pc => CallerPc.tries pc = true) d pc hp with rfl | hp
    · exact .inr ⟨spurious, attempt_cas _ hd⟩
    · exact .inl hp
  cases trans_of_step hs with
  | lose hc | win hc => exact htry hc
  | addTask hc | shutDown hc | refuse hc | accept hc | push hc | resume hc =>
    exact .inl (hupd (by rw [hc]; rfl))
  | released hc | wait hc => exact .inl (hupd (by rcases hc with hc | hc <;> rw [hc] <;> rfl))
  | _ => exact .inl hp

theorem lawful : latch.Lawful fun _ => True where
  keeps _ _ _ h _ _ := h
  passive s a t hs ha := by
    cases trans_of_step hs with
    | lose hc | win hc => cases ha.symm.trans (attempt_cas _ hc)
    | _ => rfl
  sets s a t c spurious hs ha := by
    obtain ⟨now, rfl, hc⟩ := attempt_eq_some ha
    exact (step_cas hc hs).1
  wins s a t c spurious hs ha := by
    obtain ⟨now, rfl, hc⟩ := attempt_eq_some ha
    exact (step_cas hc hs).2
  enters _ _ _ _ hs hin := closes_of_step hs hin
  returns s c hret := by
    have hidle : s.callers c = .idle := of_decide_eq_true hret
    exact (congrArg CallerPc.tries hidle).trans rfl
  waits _ _ _ _ _ hs hp := tries_of_step hs hp

end SingleThreadPool

/-! ## `ScalingThreadPool` -/

namespace Pool

variable {cfg : Config} {s : Pool} {c : ℕ}

/-- The caller whose `compare_exchange_weak` the step executes. -/
def attempt : Act → Option (ℕ × Bool)
  | .caller c (.cas spurious) => some (c, spurious)
  | _ => none

def latch (cfg : Config) : Latch Pool Act ℕ where
  step := step cfg
  flag := isRequestShutDown
  attempt _ := attempt
  pending s c := decide ((s.callers c).pc = .cas)
  inside s c := decide ((s.callers c).pc = .closing)
  returned s c := decide ((s.callers c).pc = .idle)

theorem attempt_eq_some {a : Act} {spurious : Bool} (ha : attempt a = some (c, spurious)) :
    a = .caller c (.cas spurious) := by
  unfold attempt at ha
  split at ha
  · cases ha
    rfl
  · cases ha

/-- What the `compare_exchange_weak` does. -/
theorem callerAct_cas (cfg : Config) (s : Pool) (cl : Caller) (spurious : Bool) :
    (callerAct cfg s cl (.cas spurious)).2.isRequestShutDown = (s.isRequestShutDown || !spurious) ∧
    decide ((callerAct cfg s cl (.cas spurious)).1.pc = .closing) = (!s.isRequestShutDown && !spurious) := by
  cases hf : s.isRequestShutDown <;> cases spurious <;> cases hn : cl.now <;>
    simp [callerAct, Caller.afterShutDown, Caller.idle, hf, hn]

/-- No other statement leads a caller into the closing sequence. -/
theorem closing_of_callerAct {cl : Caller} {b : CallerAct} (h : (callerAct cfg s cl b).1.pc = .closing) :
    ∃ spurious, b = .cas spurious := by
  cases b with
  | cas spurious => exact ⟨spurious, rfl⟩
  | load =>
    simp only [callerAct] at h
    split_ifs at h
    all_goals cases h
  | resume =>
    simp only [callerAct, Caller.afterShutDown] at h
    split_ifs at h
    all_goals cases h
  | testState | wake =>
    simp only [callerAct, Caller.waitState] at h
    split_ifs at h
    all_goals cases h
  | addTask | shutDown | push | notify => cases h

theorem lawful : (latch cfg).Lawful fun _ => True where
  keeps _ _ _ h _ _ := h
  passive s a t hs ha := by
    obtain ⟨-, rfl⟩ := step_eq_some.1 hs
    cases a with
    | worker w b => exact workerNext_flag ..
    | monitor b => exact monitorAct_flag b
    | closer b => exact closerAct_flag b
    | caller c b =>
      refine (callerNext_closing c b fun hwins => ?_).1
      cases b with
      | cas => cases ha
      | _ => exact hwins
  sets s a t c spurious hs ha := by
    obtain rfl := attempt_eq_some ha
    obtain ⟨-, rfl⟩ := step_eq_some.1 hs
    exact (callerAct_cas cfg s (s.callers c) spurious).1
  wins s a t c spurious hs ha := by
    obtain rfl := attempt_eq_some ha
    obtain ⟨-, rfl⟩ := step_eq_some.1 hs
    have hself : (next cfg s (.caller c (.cas spurious))).callers c = (callerAct cfg s (s.callers c) _).1 :=
      Function.update_self ..
    exact (congrArg (fun cl : Caller => decide (cl.pc = .closing)) hself).trans
      (callerAct_cas cfg s (s.callers c) spurious).2
  enters s a t c hs hin := by
    simp only [latch, decide_eq_true_eq] at hin ⊢
    obtain ⟨-, rfl⟩ := step_eq_some.1 hs
    cases a with
    | worker w b => exact .inl ((workerNext_callers_pc w b c).symm.trans hin)
    | monitor b => rw [next, monitorAct_callers] at hin; exact .inl hin
    | closer b => rw [next, closerAct_callers] at hin; exact .inl hin
    | caller d b =>
      rcases cases_update (P := fun cl : Caller => cl.pc = .closing) hin with ⟨rfl, hnew⟩ | ⟨-, hin⟩
      · obtain ⟨spurious, rfl⟩ := closing_of_callerAct hnew
        exact .inr ⟨spurious, rfl⟩
      · exact .inl hin
  returns s c hret := by
    have hidle : (s.callers c).pc = .idle := of_decide_eq_true hret
    simp [latch, hidle]
  waits s a t c hj hs hp := by
    simp only [latch, decide_eq_true_eq] at hp ⊢
    obtain ⟨hen, rfl⟩ := step_eq_some.1 hs
    cases a with
    | worker w b => exact .inl ((workerNext_callers_pc w b c).trans hp)
    | monitor b => rw [next, monitorAct_callers]; exact .inl hp
    | closer b => rw [next, closerAct_callers]; exact .inl hp
    | caller d b =>
      by_cases hcd : c = d
      · subst hcd
        have hpc : b.at = .cas := hen.1.symm.trans hp
        cases b with
        | cas spurious => exact .inr ⟨spurious, rfl⟩
        | _ => cases hpc
      · left
        have heq : (next cfg s (.caller d b)).callers c = s.callers c := Function.update_of_ne hcd ..
        rw [heq]
        exact hp

end Pool

/-! ## `TimerTaskHandler` -/

namespace ScheduledThreadPool

variable {n i : ℕ} {s t : ScheduledThreadPool} {a : Act}

/-- The caller is about to execute the `compare_exchange_weak` of `ShutDownHelper` of the handler `i`. -/
def CallerPc.tries (i : ℕ) : CallerPc → Bool
  | .handlerCas j _ => decide (j = i)
  | _ => false

/-- The caller executes the body of it. -/
def CallerPc.closes (i : ℕ) : CallerPc → Bool
  | .handlerClosing j => decide (j = i)
  | _ => false

/-- The same for the closing sequence of the pool. -/
def CloserPc.tries (i : ℕ) : CloserPc → Bool
  | .cas j _ => decide (j = i)
  | _ => false

def CloserPc.closes (i : ℕ) : CloserPc → Bool
  | .helper j _ => decide (j = i)
  | _ => false

/-- Who executes the `compare_exchange_weak` of the handler `i` in the step; `none` is the closing sequence of
    the pool. -/
def attempt (i : ℕ) (s : ScheduledThreadPool) : Act → Option (Option ℕ × Bool)
  | .caller c _ spurious => if (s.callers c).tries i then some (some c, spurious) else none
  | .closer spurious => if s.closer.tries i then some (none, spurious) else none
  | _ => none

def latch (n i : ℕ) : Latch ScheduledThreadPool Act (Option ℕ) where
  step := step n
  flag s := (s.handlers i).isRequestShutDown
  attempt := attempt i
  pending s c := c.elim (s.closer.tries i) fun c => (s.callers c).tries i
  inside s c := c.elim (s.closer.closes i) fun c => (s.callers c).closes i
  returned s c := c.elim (!s.closer.tries i && !s.closer.closes i) fun c => decide (s.callers c = .idle)

theorem CallerPc.tries_iff {pc : CallerPc} : pc.tries i = true ↔ ∃ now, pc = .handlerCas i now := by
  cases pc <;> simp [CallerPc.tries]

theorem CloserPc.tries_iff {pc : CloserPc} : pc.tries i = true ↔ ∃ now, pc = .cas i now := by
  cases pc <;> simp [CloserPc.tries]

theorem attempt_eq_some {c : Option ℕ} {spurious : Bool} (ha : attempt i s a = some (c, spurious)) :
    (∃ d now clock, c = some d ∧ a = .caller d clock spurious ∧ s.callers d = .handlerCas i now) ∨
    ∃ now, c = none ∧ a = .closer spurious ∧ s.closer = .cas i now := by
  cases a with
  | caller d clock sp =>
    simp only [attempt, Option.ite_none_right_eq_some, Option.some.injEq, Prod.mk.injEq, CallerPc.tries_iff] at ha
    obtain ⟨⟨now, hd⟩, rfl, rfl⟩ := ha
    exact .inl ⟨d, now, clock, rfl, rfl, hd⟩
  | closer sp =>
    simp only [attempt, Option.ite_none_right_eq_some, Option.some.injEq, Prod.mk.injEq, CloserPc.tries_iff] at ha
    obtain ⟨⟨now, hcl⟩, rfl, rfl⟩ := ha
    exact .inr ⟨now, rfl, rfl, hcl⟩
  | _ => cases ha

theorem attempt_caller {d : ℕ} {now spurious : Bool} (clock : TimeValue) (hd : s.callers d = .handlerCas i now) :
    attempt i s (.caller d clock spurious) = some (some d, spurious) := by
  simp [attempt, hd, CallerPc.tries]

theorem attempt_closer {now spurious : Bool} (hcl : s.closer = .cas i now) :
    attempt i s (.closer spurious) = some (none, spurious) := by
  simp [attempt, hcl, CloserPc.tries]

theorem closes_loop (j : ℕ) (now : Bool) : (loop n j now).closes i = false := by
  unfold loop
  split_ifs <;> rfl

/-- What the `compare_exchange_weak` does, executed by a caller. -/
theorem step_handlerCas {d : ℕ} {now spurious : Bool} {clock : TimeValue} (hd : s.callers d = .handlerCas i now)
    (hs : step n s (.caller d clock spurious) = some t) :
    (t.handlers i).isRequestShutDown = ((s.handlers i).isRequestShutDown || !spurious) ∧
      (t.callers d).closes i = (!(s.handlers i).isRequestShutDown && !spurious) := by
  simp only [step, callerNext, hd] at hs
  rcases requestShutDown_cases (s.handlers i) now spurious with ⟨heq, hf⟩ | ⟨heq, hf, rfl⟩
  · rw [heq] at hs
    cases hs
    rcases hf with hf | rfl
    · simp [callerAt, hf, CallerPc.closes]
    · simp [callerAt, CallerPc.closes]
  · rw [heq] at hs
    cases hs
    simp [callerAt, setHandler, hf, CallerPc.closes]

/-- The same by the closing sequence of the pool. -/
theorem step_closerCas {now spurious : Bool} (hcl : s.closer = .cas i now)
    (hs : step n s (.closer spurious) = some t) :
    (t.handlers i).isRequestShutDown = ((s.handlers i).isRequestShutDown || !spurious) ∧
      t.closer.closes i = (!(s.handlers i).isRequestShutDown && !spurious) := by
  simp only [step, closerNext, hcl] at hs
  rcases requestShutDown_cases (s.handlers i) now spurious with ⟨heq, hf⟩ | ⟨heq, hf, rfl⟩
  · rw [heq] at hs
    cases hs
    rcases hf with hf | rfl
    · simp [hf, closes_loop]
    · simp [closes_loop]
  · rw [heq] at hs
    cases hs
    simp [setHandler, hf, CloserPc.closes]

/-- Nobody closes a pool whose request flag is not set. -/
def Idle (s : ScheduledThreadPool) : Prop := s.isRequestShutDown = false → s.closer = .idle

theorem idle_step : Preserved (step n) Free Idle := by
  intro s a t h _ hs hf
  cases trans_of_step hs with
  | setStop hcl | skip hcl | enter hcl | leave hcl | setShutDown hcl => cases (h hf).symm.trans hcl
  | win => cases hf
  | _ => exact h hf

/-- Nobody else sets the flag of a handler. -/
theorem flag_of_step (hs : step n s a = some t) (ha : attempt i s a = none) :
    (t.handlers i).isRequestShutDown = (s.handlers i).isRequestShutDown := by
  have hkeep : ∀ {j : ℕ} {h : Handler}, (i = j → h.isRequestShutDown = (s.handlers j).isRequestShutDown) →
      (Function.update s.handlers j h i).isRequestShutDown = (s.handlers i).isRequestShutDown := by
    intro j h hj
    refine update_of (P := fun h => Handler.isRequestShutDown h = (s.handlers i).isRequestShutDown)
      (fun hij => ?_) fun _ => rfl
    rw [hj hij, hij]
  cases trans_of_step hs with
  | handler hi hn => exact hkeep fun _ => (handlerTrans_of_next hn).frame.1
  | handlerCloser ht => exact hkeep fun _ => by cases ht <;> rfl
  | addPush => exact hkeep fun _ => rfl
  | enter hcl =>
    refine hkeep fun hj => ?_
    subst hj
    cases ha.symm.trans (attempt_closer hcl)
  | @handlerWin d clock now j hd hf =>
    refine hkeep fun hj => ?_
    subst hj
    cases ha.symm.trans (attempt_caller clock hd)
  | _ => rfl

/-- The closing sequence of the pool gets into the body of `ShutDownHelper` by its `compare_exchange_weak`. -/
theorem closer_closes_of_step (hs : step n s a = some t) (hin : t.closer.closes i = true) :
    s.closer.closes i = true ∨ ∃ spurious, attempt i s a = some (none, spurious) := by
  cases trans_of_step hs with
  | setStop | skip | leave =>
    have hin : (loop n _ _).closes i = true := hin
    rw [closes_loop] at hin
    cases hin
  | enter hcl =>
    obtain rfl := of_decide_eq_true hin
    exact .inr ⟨false, attempt_closer hcl⟩
  | setShutDown | win => cases hin
  | _ => exact .inl hin

/-- So does a caller. -/
theorem caller_closes_of_step {c : ℕ} (hs : step n s a = some t) (hin : (t.callers c).closes i = true) :
    (s.callers c).closes i = true ∨ ∃ spurious, attempt i s a = some (some c, spurious) := by
  have hupd : ∀ {d : ℕ} {pc : CallerPc}, pc.closes i = false →
      (Function.update s.callers d pc c).closes i = true → (s.callers c).closes i = true :=
    fun hpc => of_update (P := fun pc => CallerPc.closes i pc = true) fun hp => by cases hpc.symm.trans hp
  cases trans_of_step hs with
  | handler | handlerCloser | setStop | skip | enter | leave | setShutDown => exact .inl hin
  | @handlerWin d clock now j hd hf =>
    rcases cases_update (P := fun pc => CallerPc.closes i pc = true) hin with ⟨rfl, hnew⟩ | ⟨-, hin⟩
    · obtain rfl := of_decide_eq_true hnew
      exact .inr ⟨false, attempt_caller clock hd⟩
    · exact .inl hin
  | addDeadline hd hpc => exact .inl (hupd (by rcases hpc with rfl | ⟨_, rfl⟩ <;> rfl) hin)
  | _ => exact .inl (hupd rfl hin)

/-- The closing sequence of the pool stays at its `compare_exchange_weak` until it executes it. -/
theorem closer_tries_of_step (hj : Idle s) (hs : step n s a = some t) (hp : s.closer.tries i = true) :
    t.closer.tries i = true ∨ ∃ spurious, attempt i s a = some (none, spurious) := by
  obtain ⟨now, hcas⟩ := CloserPc.tries_iff.1 hp
  cases trans_of_step hs with
  | skip hcl | enter hcl =>
    cases hcas.symm.trans hcl
    exact .inr ⟨_, attempt_closer hcl⟩
  | setStop hcl | leave hcl | setShutDown hcl => cases hcas.symm.trans hcl
  | win _ hf => cases hcas.symm.trans (hj hf)
  | _ => exact .inl hp

/-- So does a caller. -/
theorem caller_tries_of_step {c : ℕ} (hs : step n s a = some t) (hp : (s.callers c).tries i = true) :
    (t.callers c).tries i = true ∨ ∃ spurious, attempt i s a = some (some c, spurious) := by
  have hupd : ∀ {d : ℕ} {pc : CallerPc}, (s.callers d).tries i = false →
      (Function.update s.callers d pc c).tries i = true := by
    refine fun hd => update_of (P := fun pc => CallerPc.tries i pc = true) ?_ fun _ => hp
    rintro rfl
    cases hd.symm.trans hp
  have htry : ∀ {d j : ℕ} {pc : CallerPc} {now spurious : Bool} (clock : TimeValue),
      s.callers d = .handlerCas j now → (Function.update s.callers d pc c).tries i = true ∨
        ∃ sp, attempt i s (.caller d clock spurious) = some (some c, sp) := by
    intro d j pc now spurious clock hd
    rcases update_or (P := fun pc => CallerPc.tries i pc = true) d pc hp with rfl | hp'
    · rw [hd] at hp
      obtain rfl := of_decide_eq_true hp
      exact .inr ⟨spurious, attempt_caller clock hd⟩
    · exact .inl hp'
  cases trans_of_step hs with
  | handler | handlerCloser | setStop | skip | enter | leave | setShutDown => exact .inl hp
  | @handlerLose d clock | @handlerWin d clock => exact htry clock ‹_›
  | cancelReturn hc | cancelWait hc =>
    exact .inl (hupd (by rcases hc with hc | hc <;> rw [hc] <;> rfl))
  | refuse hc | load hc | addIndex hc | addNow hc | addClosed hc | addClose hc | addKnown hc | addTest hc
  | addDeadline hc | addInterval hc | addPush hc | lose hc | win hc | resume hc | handlerResume hc
  | cancelStore hc | add hc | addHandler hc | shutDown hc | shutDownHandler hc | cancel hc =>
    exact .inl (hupd (by rw [hc]; rfl))

theorem lawful (n i : ℕ) : (latch n i).Lawful Idle where
  keeps := idle_step
  passive _ _ _ hs ha := flag_of_step hs ha
  sets s a t c spurious hs ha := by
    rcases attempt_eq_some ha with ⟨d, now, clock, rfl, rfl, hd⟩ | ⟨now, rfl, rfl, hcl⟩
    · exact (step_handlerCas hd hs).1
    · exact (step_closerCas hcl hs).1
  wins s a t c spurious hs ha := by
    rcases attempt_eq_some ha with ⟨d, now, clock, rfl, rfl, hd⟩ | ⟨now, rfl, rfl, hcl⟩
    · exact (step_handlerCas hd hs).2
    · exact (step_closerCas hcl hs).2
  enters s a t c hs hin := by
    cases c with
    | none => exact closer_closes_of_step hs hin
    | some c => exact caller_closes_of_step hs hin
  returns s c hret := by
    cases c with
    | none =>
      have hnot := ((Bool.and_eq_true _ _).mp hret).1
      exact (Bool.not_eq_true' _).mp hnot
    | some c =>
      have hidle : s.callers c = .idle := of_decide_eq_true hret
      exact (congrArg (CallerPc.tries i) hidle).trans rfl
  waits s a t c hj hs hp := by
    cases c with
    | none => exact closer_tries_of_step hj hs hp
    | some c => exact caller_tries_of_step hs hp

end ScheduledThreadPool

/-! ## The three pools -/

/-- In every run from a state in which nobody has closed yet, at most one call closes, and one does if and only if
    some `compare_exchange_weak` has not failed spuriously. -/
theorem closing_once (mode : RunMode) (cfg : Config) (ids : LiveIds cfg.corePoolSize) (n i : ℕ) :
    SingleThreadPool.latch.Once (.create mode) ∧ (Pool.latch cfg).Once (initPool cfg ids) ∧
      (ScheduledThreadPool.latch n i).Once .create := by
  refine ⟨?_, ?_, ?_⟩
  · exact SingleThreadPool.lawful.once ⟨rfl, fun _ => rfl⟩ trivial
  · exact Pool.lawful.once ⟨rfl, fun _ => rfl⟩ trivial
  · exact (ScheduledThreadPool.lawful n i).once ⟨rfl, fun c => by cases c <;> rfl⟩ fun _ => rfl

/-- In each pool the only call of `ShutDown` returns after a spurious failure, and the flag is not set. -/
theorem closing_never :
    (¬ ∀ mode, SingleThreadPool.latch.Closes (.create mode)) ∧
    (¬ ∀ cfg ids, (Pool.latch cfg).Closes (initPool cfg ids)) ∧
    ¬ ∀ n i, i < n → (ScheduledThreadPool.latch n i).Closes .create := by
  refine ⟨fun hall => ?_, fun hall => ?_, fun hall => ?_⟩
  · exact Latch.not_closes [.construct, .shutDown 0 false] [.caller 0 true] 0 (by decide) (hall .fifo)
  · exact Latch.not_closes [.caller 0 (.shutDown false)] [.caller 0 (.cas true)] 0 (by decide +kernel)
      (hall ⟨1, 1⟩ (.first 1))
  · exact Latch.not_closes [.shutDownHandler 0 0 false] [.caller 0 0 true] (some 0) (by decide)
      (hall 1 0 Nat.one_pos)

end Empool
