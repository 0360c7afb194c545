/-
  What a return from `Close()` says about the thread.

  The call that wins the request flag waits for `FINISHED`, which the thread
  sets behind the work function and the finish action; a call that loses it
  returns at once.  So a return means that the thread is closed if and only if
  the call's `compare_exchange_weak` has set the flag (`won`), or the thread has
  set `FINISHED` before (`close_returns_iff`).
-/
import Empool.Thread.Closeable
import Empool.Lib.History

namespace Empool

open Lts

namespace CloseableThread

variable {s t : CloseableThread} {c : ℕ} {a : Act}

@[simp] theorem callerAt_self (s : CloseableThread) (c : ℕ) (pc : CallerPc) : (s.callerAt c pc).callers c = pc := by
  simp [callerAt]

/-- A broadcast moves nobody but the callers that wait. -/
theorem of_notifyAll {pc : CallerPc} (hpc : ∀ n, pc ≠ .waiting n)
    (h : (if s.isRequestClose then fun c => (s.callers c).notify else s.callers) c = pc) : s.callers c = pc := by
  split_ifs at h with hreq
  · cases hc : s.callers c with
    | waiting n =>
      simp only [hc, CallerPc.notify] at h
      exact absurd h.symm (hpc true)
    | _ => simpa [hc, CallerPc.notify] using h
  · exact h

/-! ## What a step changes -/

/-- `Trans s a t`: the cases of the step `a`. -/
inductive Trans (s : CloseableThread) : Act → CloseableThread → Prop
  | create (hpc : s.initPc = .create) : Trans s .init { s with initPc := .store, thread := .setRunning }
  | store (hpc : s.initPc = .store) : Trans s .init { s with initPc := .returned, handle := true }
  | setRunning (hpc : s.thread = .setRunning) : Trans s .thread { s with state := .running, thread := .check }
  | check (hpc : s.thread = .check) : Trans s .thread s.checkIsRequestClose
  | checkFunc (hpc : s.thread = .work) : Trans s .checkFunc s.checkIsRequestClose
  | workReturn (hpc : s.thread = .work) : Trans s .workReturn { s with thread := .finishAction }
  | caught (hpc : s.thread = .caught) :
      Trans s .thread { s with thread := .finishAction, nullHandle := s.nullHandle || !s.handle }
  | finishAction (hpc : s.thread = .finishAction) (hhas : s.hasFinishAction = true) : Trans s .thread
      { s with
        thread := .setFinished
        finishCalls := s.finishCalls + 1
        nullHandle := s.nullHandle || !s.handle }
  | noFinishAction (hpc : s.thread = .finishAction) (hhas : s.hasFinishAction = false) :
      Trans s .thread { s with thread := .setFinished }
  | setFinished (hpc : s.thread = .setFinished) : Trans s .thread { s with state := .finished, thread := .lock }
  | threadLock (hpc : s.thread = .lock) (hm : s.mutex = none) :
      Trans s .thread { s with mutex := some .thread, thread := .notifyAll }
  | notifyAll (hpc : s.thread = .notifyAll) : Trans s .thread
      { s with
        thread := .unlock
        callers := if s.isRequestClose then fun c => (s.callers c).notify else s.callers }
  | threadUnlock (hpc : s.thread = .unlock) : Trans s .thread { s with mutex := none, thread := .ended }
  | close {c : ℕ} (hc : s.callers c = .idle) (hinit : s.initPc = .returned) : Trans s (.close c) (s.callerAt c .cas)
  | asyncClose {c : ℕ} (hc : s.callers c = .idle) (hinit : s.initPc = .returned) :
      Trans s (.asyncClose c) (s.callerAt c .asyncCas)
  | asyncCas {c : ℕ} {spurious : Bool} (hc : s.callers c = .asyncCas) : Trans s (.caller c spurious)
      { s.callerAt c .idle with isRequestClose := s.isRequestClose || !spurious }
  | lost {c : ℕ} {spurious : Bool} (hc : s.callers c = .cas) (hl : s.isRequestClose = true ∨ spurious = true) :
      Trans s (.caller c spurious) (s.callerAt c .idle)
  | won {c : ℕ} (hc : s.callers c = .cas) (hw : s.isRequestClose = false) :
      Trans s (.caller c false) { s.callerAt c .lock with isRequestClose := true }
  | callerLock {c : ℕ} {spurious : Bool} (hc : s.callers c = .lock ∨ ∃ n, s.callers c = .waiting n)
      (hm : s.mutex = none) : Trans s (.caller c spurious) { s.callerAt c .test with mutex := some (.caller c) }
  | isFinished {c : ℕ} {spurious : Bool} (hc : s.callers c = .test) (hst : s.state = .finished) :
      Trans s (.caller c spurious) (s.callerAt c .unlock)
  | notFinished {c : ℕ} {spurious : Bool} (hc : s.callers c = .test) (hst : s.state ≠ .finished) :
      Trans s (.caller c spurious) (s.callerAt c .wait)
  | wait {c : ℕ} {spurious : Bool} (hc : s.callers c = .wait) :
      Trans s (.caller c spurious) { s.callerAt c (.waiting false) with mutex := none }
  | callerUnlock {c : ℕ} {spurious : Bool} (hc : s.callers c = .unlock) :
      Trans s (.caller c spurious) { s.callerAt c .idle with mutex := none }

theorem trans_of_threadNext (hs : s.threadNext = some t) : Trans s .thread t := by
  unfold threadNext at hs
  cases hpc : s.thread with
  | unborn | work | ended => rw [hpc] at hs; cases hs
  | setRunning => rw [hpc] at hs; cases hs; exact .setRunning hpc
  | check => rw [hpc] at hs; cases hs; exact .check hpc
  | caught => rw [hpc] at hs; cases hs; exact .caught hpc
  | finishAction =>
    simp only [hpc] at hs
    split_ifs at hs with hhas
    · cases hs; exact .finishAction hpc hhas
    · cases hs; exact .noFinishAction hpc (Bool.eq_false_iff.2 hhas)
  | setFinished => rw [hpc] at hs; cases hs; exact .setFinished hpc
  | lock =>
    simp only [hpc] at hs
    split_ifs at hs with hm
    cases hs
    exact .threadLock hpc hm
  | notifyAll => rw [hpc] at hs; cases hs; exact .notifyAll hpc
  | unlock => rw [hpc] at hs; cases hs; exact .threadUnlock hpc

theorem trans_of_callerNext {spurious : Bool} (hs : s.callerNext c spurious = some t) :
    Trans s (.caller c spurious) t := by
  have hlock : s.callers c = .lock ∨ (∃ n, s.callers c = .waiting n) → s.callerLock c = some t →
      Trans s (.caller c spurious) t := by
    intro hc hl
    unfold callerLock at hl
    split_ifs at hl with hm
    cases hl
    exact .callerLock hc hm
  unfold callerNext at hs
  cases hc : s.callers c with
  | idle => rw [hc] at hs; cases hs
  | asyncCas => rw [hc] at hs; cases hs; exact .asyncCas hc
  | cas =>
    simp only [hc, Bool.or_eq_true] at hs
    split_ifs at hs with hl
    · cases hs
      exact .lost hc hl
    · obtain ⟨hflag, hsp⟩ := not_or.1 hl
      obtain rfl := Bool.eq_false_iff.2 hsp
      cases hs
      exact .won hc (Bool.eq_false_iff.2 hflag)
  | lock => rw [hc] at hs; exact hlock (.inl hc) hs
  | test =>
    simp only [hc] at hs
    split_ifs at hs with hst
    · cases hs; exact .isFinished hc hst
    · cases hs; exact .notFinished hc hst
  | wait => rw [hc] at hs; cases hs; exact .wait hc
  | waiting n => rw [hc] at hs; exact hlock (.inr ⟨n, hc⟩) hs
  | unlock => rw [hc] at hs; cases hs; exact .callerUnlock hc

theorem Trans.of_step (hs : step s a = some t) : Trans s a t := by
  cases a with
  | init =>
    simp only [step, initNext] at hs
    cases hpc : s.initPc with
    | create => rw [hpc] at hs; cases hs; exact .create hpc
    | store => rw [hpc] at hs; cases hs; exact .store hpc
    | returned => rw [hpc] at hs; cases hs
  | thread => exact trans_of_threadNext hs
  | checkFunc =>
    simp only [step] at hs
    split_ifs at hs with hpc
    cases hs
    exact .checkFunc hpc
  | workReturn =>
    simp only [step] at hs
    split_ifs at hs with hpc
    cases hs
    exact .workReturn hpc
  | close c =>
    simp only [step, call] at hs
    split_ifs at hs with hc
    cases hs
    exact .close hc.1 hc.2
  | asyncClose c =>
    simp only [step, call] at hs
    split_ifs at hs with hc
    cases hs
    exact .asyncClose hc.1 hc.2
  | caller c spurious => exact trans_of_callerNext hs

/-! ## Where the thread is -/

/-- The thread has left the work function. -/
def ThreadPc.left : ThreadPc → Prop
  | .caught | .finishAction | .setFinished | .lock | .notifyAll | .unlock | .ended => True
  | .unborn | .setRunning | .check | .work => False

/-- The finish action is behind the thread. -/
def ThreadPc.acted : ThreadPc → Bool
  | .setFinished | .lock | .notifyAll | .unlock | .ended => true
  | .unborn | .setRunning | .check | .work | .caught | .finishAction => false

/-- `SetState(FINISHED)` is behind the thread. -/
def ThreadPc.past : ThreadPc → Prop
  | .lock | .notifyAll | .unlock | .ended => True
  | _ => False

theorem ThreadPc.past.acted {pc : ThreadPc} (h : pc.past) : pc.acted = true := by
  cases pc with
  | lock | notifyAll | unlock | ended => rfl
  | _ => cases h

theorem ThreadPc.left_of_acted {pc : ThreadPc} (h : pc.acted = true) : pc.left := by
  cases pc with
  | setFinished | lock | notifyAll | unlock | ended => trivial
  | _ => cases h

/-- Before `new Thread(..)` there is no thread. -/
def Born (s : CloseableThread) : Prop := s.initPc = .create → s.thread = .unborn

/-- What the place of the thread says about the state and about the calls of the finish action. -/
def Placed (s : CloseableThread) : Prop :=
  (s.state = .finished ↔ s.thread.past) ∧ s.finishCalls = (s.thread.acted && s.hasFinishAction).toNat

/-- A caller leaves its loop when the thread has finished. -/
def Released (s : CloseableThread) : Prop := ∀ c, s.callers c = .unlock → s.state = .finished

theorem born_create (hasFinishAction : Bool) : (create hasFinishAction).Born := fun _ => rfl

theorem placed_create (hasFinishAction : Bool) : (create hasFinishAction).Placed := ⟨⟨nofun, nofun⟩, rfl⟩

theorem born_step : Preserved step Free Born := by
  intro s a t h _ hs
  have hne : ∀ {pc : ThreadPc}, s.thread = pc → pc ≠ .unborn → s.initPc ≠ .create :=
    fun hpc hne hinit => hne (hpc.symm.trans (h hinit))
  cases Trans.of_step hs with
  | create | store => exact nofun
  | setRunning hpc | check hpc | checkFunc hpc | workReturn hpc | caught hpc | finishAction hpc
  | noFinishAction hpc | setFinished hpc | threadLock hpc | notifyAll hpc | threadUnlock hpc =>
    exact fun hinit => absurd hinit (hne hpc nofun)
  | _ => exact h

theorem Placed.checkIsRequestClose (h : s.Placed) (hpc : s.thread = .check ∨ s.thread = .work) :
    s.checkIsRequestClose.Placed := by
  unfold CloseableThread.checkIsRequestClose
  unfold Placed at h
  rcases hpc with hpc | hpc
  all_goals
    rw [hpc] at h
    split_ifs <;> exact h

theorem placed_step : PreservedUnder step Free Born Placed := by
  intro s a t hborn h _ hs
  -- at each statement of the thread the two places are on the same side
  have hat : ∀ {pc : ThreadPc}, s.thread = pc →
      (s.state = .finished ↔ pc.past) ∧ s.finishCalls = (pc.acted && s.hasFinishAction).toNat := by
    rintro pc rfl
    exact h
  cases Trans.of_step hs with
  | create hpc =>
    have hbefore := hat (hborn hpc)
    exact hbefore
  | setRunning hpc => exact ⟨⟨nofun, nofun⟩, (hat hpc).2⟩
  | check hpc => exact h.checkIsRequestClose (.inl hpc)
  | checkFunc hpc => exact h.checkIsRequestClose (.inr hpc)
  | workReturn hpc | caught hpc | threadLock hpc | notifyAll hpc | threadUnlock hpc =>
    have hbefore := hat hpc
    exact hbefore
  | finishAction hpc hhas =>
    refine ⟨(hat hpc).1, ?_⟩
    show s.finishCalls + 1 = _
    rw [(hat hpc).2, hhas]
    rfl
  | noFinishAction hpc hhas =>
    refine ⟨(hat hpc).1, ?_⟩
    show s.finishCalls = _
    rw [(hat hpc).2, hhas]
    rfl
  | setFinished hpc => exact ⟨iff_of_true rfl trivial, (hat hpc).2⟩
  | _ => exact h

theorem released_step : PreservedUnder step Free Placed Released := by
  intro s a t hplaced h _ hs
  have hcaller : ∀ {c : ℕ} {pc : CallerPc}, (pc = .unlock → s.state = .finished) →
      ∀ d, (s.callerAt c pc).callers d = .unlock → s.state = .finished := by
    intro c pc hpc d
    exact update_of (P := fun x : CallerPc => x = .unlock → s.state = .finished) (fun _ => hpc) fun _ => h d
  cases Trans.of_step hs with
  | setRunning hpc =>
    intro c hc
    have hpast := hplaced.1.1 (h c hc)
    rw [hpc] at hpast
    cases hpast
  | setFinished hpc => exact fun _ _ => rfl
  | notifyAll hpc =>
    intro c hc
    exact h c (of_notifyAll nofun hc)
  | close | asyncClose | asyncCas | lost | won | callerLock | notFinished | wait | callerUnlock =>
    exact hcaller nofun
  | isFinished hc hst => exact hcaller fun _ => hst
  | _ => exact h

/-! ## The return from `Close` -/

/-- The work function has been left, the finish action (if there is one) has been executed exactly once,
    and the state is `FINISHED`. -/
def Closed (s : CloseableThread) : Prop :=
  s.thread.left ∧ s.finishCalls = s.hasFinishAction.toNat ∧ s.state = .finished

theorem Placed.closed (h : s.Placed) (hst : s.state = .finished) : s.Closed := by
  have hacted := (h.1.1 hst).acted
  refine ⟨ThreadPc.left_of_acted hacted, ?_, hst⟩
  rw [h.2, hacted, Bool.true_and]

/-- The call of `c` returns: it has lost the request flag, or it has waited for `FINISHED`. -/
theorem Trans.return (h : Trans s a t) (hc : (s.callers c).closing) (hret : t.callers c = .idle) :
    ((∃ spurious, a = .caller c spurious ∧ s.callers c = .cas ∧ (s.isRequestClose = true ∨ spurious = true)) ∨
      s.callers c = .unlock) ∧ (t.Placed ↔ s.Placed) ∧ t.state = s.state := by
  have hother : ∀ {d : ℕ} {pc : CallerPc}, (s.callerAt d pc).callers c = .idle → c = d ∧ pc = .idle := by
    intro d pc hd
    rcases cases_update (P := fun pc => pc = CallerPc.idle) hd with ⟨hcd, hpc⟩ | ⟨-, hd⟩
    · exact ⟨hcd, hpc⟩
    · rw [hd] at hc
      cases hc
  have hself : s.callers c ≠ .idle := by
    intro hidle
    rw [hidle] at hc
    cases hc
  cases h with
  | lost hcas hl =>
    obtain ⟨rfl, -⟩ := hother hret
    exact ⟨.inl ⟨_, rfl, hcas, hl⟩, Iff.rfl, rfl⟩
  | callerUnlock hun =>
    obtain ⟨rfl, -⟩ := hother hret
    exact ⟨.inr hun, Iff.rfl, rfl⟩
  | asyncCas has =>
    obtain ⟨rfl, -⟩ := hother hret
    rw [has] at hc
    cases hc
  | close | asyncClose | won | callerLock | isFinished | notFinished | wait => cases (hother hret).2
  | notifyAll => exact absurd (show s.callers c = .idle from of_notifyAll nofun hret) hself
  | _ => exact absurd hret hself

/-- Has the last `compare_exchange_weak` of the caller in `Close` set the flag?  The history of a run says it of
    every caller. -/
def won (g : ℕ → Bool) (s : CloseableThread) : Act → ℕ → Bool
  | .caller c spurious =>
    if s.callers c = .cas then Function.update g c (!s.isRequestClose && !spurious) else g
  | _ => g

/-- Behind the `compare_exchange_weak` of `Close`, and still in the call. -/
def CallerPc.waits : CallerPc → Prop
  | .lock | .test | .wait | .waiting _ | .unlock => True
  | .idle | .asyncCas | .cas => False

theorem CallerPc.waits_notify {pc : CallerPc} (h : pc.notify.waits) : pc.waits := by
  cases pc <;> exact h

/-- Who waits has won. -/
def Winning (p : (ℕ → Bool) × CloseableThread) : Prop := ∀ c, (p.2.callers c).waits → p.1 c = true

theorem winning_step : Preserved (record step won) Free Winning := by
  rintro ⟨g, s⟩ a ⟨g', t⟩ h _ hrec
  obtain ⟨hs, rfl⟩ := record_eq_some.1 hrec
  -- a statement of a caller that is not its `compare_exchange_weak`
  have hcaller : ∀ {c : ℕ} {pc : CallerPc} {spurious : Bool}, s.callers c ≠ .cas →
      (pc.waits → (s.callers c).waits) → ∀ d, ((s.callerAt c pc).callers d).waits →
        won g s (.caller c spurious) d = true := by
    intro c pc spurious hcas hpc d hd
    rw [won, if_neg hcas]
    exact h d (of_update hpc hd)
  have hcall : ∀ {c : ℕ} {pc : CallerPc}, ¬ pc.waits → ∀ d, ((s.callerAt c pc).callers d).waits → g d = true :=
    fun hpc d hd => h d (of_update (P := CallerPc.waits) (fun hw => absurd hw hpc) hd)
  cases Trans.of_step hs with
  | close | asyncClose => exact hcall not_false
  | @lost c spurious hc hl =>
    intro d hd
    rcases cases_update (P := CallerPc.waits) hd with ⟨-, hidle⟩ | ⟨hdc, hd⟩
    · exact hidle.elim
    · show won g s (.caller c spurious) d = true
      rw [won, if_pos hc, Function.update_of_ne hdc]
      exact h d hd
  | @won c hc hw =>
    intro d hd
    show won g s (.caller c false) d = true
    rw [won, if_pos hc, hw]
    exact update_of (P := fun b => b = true) (fun _ => rfl) fun hdc =>
      h d (((cases_update (P := CallerPc.waits) hd).resolve_left fun hold => hdc hold.1).2)
  | asyncCas hc => exact hcaller (by rw [hc]; exact CallerPc.noConfusion) False.elim
  | isFinished hc | notFinished hc | wait hc | callerUnlock hc =>
    exact hcaller (by rw [hc]; exact CallerPc.noConfusion) fun _ => by rw [hc]; trivial
  | @callerLock c spurious hc =>
    rcases hc with hc | ⟨n, hc⟩
    · exact hcaller (by rw [hc]; exact CallerPc.noConfusion) fun _ => by rw [hc]; trivial
    · exact hcaller (by rw [hc]; exact CallerPc.noConfusion) fun _ => by rw [hc]; trivial
  | notifyAll hpc =>
    intro d hd
    refine h d ?_
    have hd : ((if s.isRequestClose then fun c => (s.callers c).notify else s.callers) d).waits := hd
    split_ifs at hd
    · exact CallerPc.waits_notify hd
    · exact hd
  | _ => exact h

/-- A call of `Close` that returns finds the thread closed if and only if its `compare_exchange_weak` has set the
    flag, or the state is already `FINISHED` when it loses. -/
theorem close_returns_iff {hasFinishAction : Bool} {as : List Act} {g g' : ℕ → Bool}
    (h : Run (record step won) Free (fun _ => false, create hasFinishAction) as (g, s))
    (hs : record step won (g, s) a = some (g', t)) (hc : (s.callers c).closing) (hret : t.callers c = .idle) :
    t.Closed ↔ g' c = true ∨ s.state = .finished := by
  have hplaced : Preserved step Free fun s => s.Born ∧ s.Placed := placed_step.and born_step
  have hreleased : PreservedUnder step Free (fun s => s.Born ∧ s.Placed) Released :=
    fun s a t hj hi ha hs => released_step s a t hj.2 hi ha hs
  have hrun : Run step Free (create hasFinishAction) as s := h.forget fun _ _ _ _ => trivial
  obtain ⟨⟨-, hp⟩, hr⟩ := hrun.invariant (hreleased.and hplaced)
    ⟨⟨born_create _, placed_create _⟩, fun c hc => by cases hc⟩
  have hwin : Winning (g, s) := h.invariant winning_step fun c hc => by cases hc
  obtain ⟨hstep, rfl⟩ := record_eq_some.1 hs
  obtain ⟨hpc, hiff, hst⟩ := (Trans.of_step hstep).return hc hret
  constructor
  · rintro ⟨-, -, hfin⟩
    exact .inr (hst.symm.trans hfin)
  · intro hwon
    have hfin : s.state = .finished := by
      rcases hwon with hwon | hfin
      · rcases hpc with ⟨spurious, rfl, hcas, hl⟩ | hun
        · -- a call that has lost has not set the flag
          rw [won, if_pos hcas, Function.update_self] at hwon
          rcases hl with hl | hl <;> rw [hl] at hwon <;> simp at hwon
        · exact hr c hun
      · exact hfin
    exact (hiff.2 hp).closed (hst.trans hfin)

/-! ## Runs -/

/-- No `compare_exchange_weak` fails spuriously. -/
def Strong (_ : CloseableThread) : Act → Prop
  | .caller _ spurious => spurious = false
  | _ => True

instance (s : CloseableThread) : ∀ a, Decidable (Strong s a)
  | .caller _ spurious => inferInstanceAs (Decidable (spurious = false))
  | .init | .thread | .checkFunc | .workReturn | .close _ | .asyncClose _ => isTrue trivial

/-- The thread is inside the work function. -/
def works : List Act := [.init, .init, .thread, .thread]

/-- The caller 1 wins the flag and waits, the thread leaves the work function by its check, and the caller
    is woken. -/
def closes : List Act :=
  [.close 1, .caller 1 false, .caller 1 false, .caller 1 false, .caller 1 false, .checkFunc] ++
    List.replicate 6 .thread ++ [.caller 1 false, .caller 1 false]

theorem close_returns_iff_two : ∃ g s g' t,
    Run (record step won) Free (fun _ => false, create true) (works ++ closes) (g, s) ∧
      record step won (g, s) (.caller 1 false) = some (g', t) ∧ g' 1 = true ∧ t.Closed := by
  obtain ⟨⟨g, s⟩, hrun, hpc, hg⟩ : ∃ p, Run (record step won) Free (fun _ => false, create true) (works ++ closes) p ∧
      p.2.callers 1 = .unlock ∧ p.1 1 = true := exists_run (by decide) fun _ _ h => h
  have hpc : s.callers 1 = .unlock := hpc
  have hs : record step won (g, s) (.caller 1 false) = some (g, { s.callerAt 1 .idle with mutex := none }) := by
    simp [record, won, step, callerNext, hpc]
  have hret : (s.callerAt 1 .idle).callers 1 = .idle := callerAt_self s _ _
  exact ⟨g, s, g, _, hrun, hs, hg, (close_returns_iff hrun hs (by rw [hpc]; trivial) hret).2 (.inl hg)⟩

/-- A call of `Close()` after one of `AsyncClose()` returns while the work function runs. -/
theorem close_returns_early : ¬ ∀ hasFinishAction as s a t c,
    Run step Strong (create hasFinishAction) as s → Strong s a → step s a = some t →
      (s.callers c).closing → t.callers c = .idle → t.Closed := by
  intro hall
  obtain ⟨s, hrun, hpc, hflag, hst⟩ : ∃ s, Run step Strong (create true)
      (works ++ [.asyncClose 1, .caller 1 false, .close 2]) s ∧ s.callers 2 = .cas ∧
      s.isRequestClose = true ∧ s.state = .running := exists_run (by decide) fun _ _ h => h
  have hs : step s (.caller 2 false) = some (s.callerAt 2 .idle) := by
    simp only [step, callerNext, hpc, hflag, Bool.or_false, if_true]
  have hret : (s.callerAt 2 .idle).callers 2 = .idle := callerAt_self s _ _
  have hstrong : Strong s (.caller 2 false) := rfl
  obtain ⟨-, -, hfin⟩ := hall true _ s _ _ 2 hrun hstrong hs (by rw [hpc]; trivial) hret
  exact absurd (hst.symm.trans hfin) State.noConfusion

end CloseableThread

end Empool
