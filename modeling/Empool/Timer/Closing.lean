/-
  For which threads the close of a `ScheduledThreadPool` waits.

  Only the call that sets the request flag of the pool waits, and only if it is
  a `ShutDownNow`; the handlers' threads do not write `m_state`.  So the pool is
  closed when it says so, if a `ShutDownNow` sets the flag and no other one finds
  it set before the state is `SHUTDOWN`: `shutDownNow_waits`.  A `ShutDown` that
  sets it, or a second `ShutDownNow`, does not wait: `closed_too_early`.
-/
import Empool.Timer.Trans

namespace Empool

open Lts

/-- The thread has left `TimerTaskHandler::ThreadFunction`. -/
def HandlerPc.left : HandlerPc → Prop
  | .finish | .notifyFinished | .ended | .escaped => True
  | _ => False

instance : DecidablePred HandlerPc.left
  | .finish | .notifyFinished | .ended | .escaped => isTrue trivial
  | .start | .lock | .checkEmpty | .wait _ | .check | .getMin | .getCurrentTime _ | .getDeadline _ _
  | .isCancelled _ _ _ | .isRequestCancel _ _ _ | .isIntervalTask _ _ | .getInterval _ _
  | .setDeadline _ _ _ | .popMinAndPush _ | .popMin _ _ | .timedWait _ _ _ | .fire _ | .running _ _ =>
    isFalse id

theorem HandlerPc.left_notify {pc : HandlerPc} : pc.notify.left ↔ pc.left := by
  cases pc <;> exact Iff.rfl

theorem HandlerPc.checks.not_left {pc : HandlerPc} (h : pc.checks) : ¬ pc.left := by
  cases pc <;> first | exact id | cases h

theorem HandlerPc.looks.not_left {pc : HandlerPc} (h : pc.looks) : ¬ pc.left := by
  cases pc <;> first | exact id | cases h

variable {h h' : Handler} {ts ts' : Tasks}

/-- A thread that has left does not come back. -/
theorem HandlerTrans.of_left (ht : HandlerTrans h ts h' ts') (hl : h.pc.left) :
    h'.pc.left ∧ h'.started = h.started := by
  cases ht with
  | finish hpc | notifyFinished hpc => exact ⟨trivial, rfl⟩
  | leave hpc => exact absurd hl hpc.not_left
  | empty hpc | nonempty hpc => exact absurd hl hpc.not_left
  | start hpc | wait hpc | check hpc | getMin hpc | getCurrentTime hpc | getDeadline hpc | isCancelled hpc
  | notCancelled hpc | isRequestCancel hpc | due hpc | notDue hpc | isIntervalTask hpc
  | noIntervalTask hpc | getInterval hpc | setDeadline hpc | popMinAndPush hpc | popMin hpc | timedWait hpc
  | fire hpc | stop hpc | run hpc | runReturn hpc | runThrow hpc =>
    rw [hpc] at hl
    cases hl

/-- `Close()` or `AsyncClose()` has executed its `compare_exchange_weak`. -/
def HandlerCloserPc.closed : HandlerCloserPc → Prop
  | .waitFinished | .waiting _ | .returned => True
  | _ => False

namespace ScheduledThreadPool

variable {n : ℕ} {s t : ScheduledThreadPool} {a : Act} {sp : Bool}

theorem HandlerMove.of_left (hm : HandlerMove ts sp h h') (hl : h.pc.left) :
    h'.pc.left ∧ h'.started = h.started := by
  cases hm with
  | same | request => exact ⟨hl, rfl⟩
  | next hs => exact (handlerTrans_of_next hs).of_left hl
  | closer ht =>
    cases ht with
    | pushEnd hcl => exact ⟨HandlerPc.left_notify.2 hl, rfl⟩
    | closeFail | asyncClose | close | finished | wait => exact ⟨hl, rfl⟩
  | accept => exact ⟨HandlerPc.left_notify.2 hl, rfl⟩

/-- All threads have left their work functions. -/
def AllLeft (n : ℕ) (s : ScheduledThreadPool) : Prop := ∀ i < n, (s.handlers i).pc.left

instance (n : ℕ) (s : ScheduledThreadPool) : Decidable (AllLeft n s) :=
  inferInstanceAs (Decidable (∀ i < n, _))

theorem AllLeft.trans (h : AllLeft n s) (ht : Trans n s a t) : AllLeft n t :=
  fun i hi => ((handler_move ht i).of_left (h i hi)).1

/-! ## One handler -/

/-- `FINISHED` is set by the thread itself, and the close flag by the body of `ShutDownHelper`. -/
structure HandlerSound (h : Handler) : Prop where
  finished : h.finished = true → h.pc.left
  closed : h.isRequestClose = true → h.closer.closed
  requested : h.isRequestShutDown = false → h.closer = .idle

theorem HandlerTrans.finished (ht : HandlerTrans h ts h' ts') (hf : h.finished = true → h.pc.left) :
    h'.finished = true → h'.pc.left := by
  intro hfin
  have hold : h.finished = true → h'.pc.left := fun hh => (ht.of_left (hf hh)).1
  cases ht with
  | finish hpc => trivial
  | popMin hpc =>
    obtain ⟨queue, popped, heq⟩ := popMin_eq h ts
    rw [heq] at hfin
    exact hold hfin
  | popMinAndPush hpc =>
    obtain ⟨queue, popped, pushed, heq⟩ := popMinAndPush_eq h ts
    rw [heq] at hfin
    exact hold hfin
  | _ => exact hold hfin

theorem HandlerSound.move (hs : HandlerSound h) (hm : HandlerMove ts sp h h') : HandlerSound h' := by
  obtain ⟨hfin, hclosed, hreq⟩ := hs
  cases hm with
  | same => exact ⟨hfin, hclosed, hreq⟩
  | next hs =>
    have ht := handlerTrans_of_next hs
    obtain ⟨hflag, hcl, -, -, hcloser⟩ := ht.frame
    refine ⟨HandlerTrans.finished ht hfin, fun hc => ?_, fun hf => ?_⟩
    · rcases hcloser with heq | ⟨n, m, -, heq⟩
      · rw [heq]; exact hclosed (hcl ▸ hc)
      · rw [heq]; trivial
    · have hidle := hreq (hflag ▸ hf)
      rcases hcloser with heq | ⟨n, m, heq, -⟩
      · rw [heq, hidle]
      · rw [hidle] at heq; cases heq
  | closer ht =>
    have hflag : h.isRequestShutDown = false → h.closer ≠ .idle → False := fun hf hne => hne (hreq hf)
    cases ht with
    | pushEnd hcl hfree =>
      refine ⟨fun hf => HandlerPc.left_notify.2 (hfin hf), fun hc => ?_, fun hf => ?_⟩
      · have := hclosed hc
        rw [hcl] at this
        cases this
      · exact (hflag hf (by simp [hcl])).elim
    | closeFail hcl | asyncClose hcl | close hcl =>
      exact ⟨hfin, fun _ => trivial, fun hf => (hflag hf (by simp [hcl])).elim⟩
    | finished hcl | wait hcl =>
      refine ⟨hfin, fun _ => trivial, fun hf => (hflag hf ?_).elim⟩
      rcases hcl with hcl | ⟨m, hcl⟩ <;> simp [hcl]
  | request hf =>
    refine ⟨hfin, fun hc => ?_, fun hc => by cases hc⟩
    have := hclosed hc
    rw [hreq hf] at this
    cases this
  | accept hfree => exact ⟨fun hf => HandlerPc.left_notify.2 (hfin hf), hclosed, hreq⟩

theorem handlerSound_create : HandlerSound .create where
  finished hc := by cases hc
  closed hc := by cases hc
  requested _ := rfl

/-! ## The pool -/

/-- The handlers of which `ShutDownHelper` has still to be called. -/
def CloserPc.fresh : CloserPc → ℕ → Prop
  | .idle, _ | .setStop _, _ => True
  | .cas i _, j => i ≤ j
  | .helper i _, j => i < j
  | .setShutDown _, _ | .returned, _ => False

/-- The handlers for which the loop of a `ShutDownNow` has waited. -/
def CloserPc.waited (n : ℕ) : CloserPc → ℕ → Prop
  | .idle, _ | .setStop _, _ => False
  | .cas i now, j | .helper i now, j => now = true ∧ j < i
  | .setShutDown now, j => now = true ∧ j < n
  | .returned, j => j < n

/-- The close of a handler waits, and is not over before the thread has left. -/
def Waits (h : Handler) : Prop :=
  match h.closer with
  | .pushEnd now | .close now => now = true
  | .waitFinished | .waiting _ => True
  | .returned => h.pc.left
  | .idle => False

theorem CloserPc.waited_loop {i j : ℕ} {now : Bool} (h : (loop n i now).waited n j) : now = true ∧ j < i := by
  unfold loop at h
  split_ifs at h with hi
  · exact h
  · exact ⟨h.1, by have := h.2; omega⟩

theorem CloserPc.fresh_loop {i j : ℕ} {now : Bool} (h : (loop n i now).fresh j) : i ≤ j := by
  unfold loop at h
  split_ifs at h with hi
  · exact h
  · exact h.elim

theorem CloserPc.loop_ne_helper {i j : ℕ} {now now' : Bool} : loop n i now ≠ .helper j now' := by
  unfold loop
  split_ifs <;> simp

/-- Nobody but the pool calls `ShutDownHelper` of a handler. -/
def Own (s : ScheduledThreadPool) : Prop := ∀ c i now, s.callers c ≠ .handlerCas i now

theorem Own.callerAt {c : ℕ} {pc : CallerPc} (h : s.Own) (hpc : ∀ i now, pc ≠ .handlerCas i now) :
    (s.callerAt c pc).Own := by
  intro d i now
  exact update_of (P := fun q : CallerPc => q ≠ .handlerCas i now) (fun _ => hpc i now) fun _ => h d i now

theorem Own.trans (h : s.Own) (ha : Pooled s a) (ht : Trans n s a t) : t.Own := by
  cases ht with
  | handler | handlerCloser | setStop | skip | enter | leave | setShutDown => exact h
  | @addDeadline c now now' spurious i id kind pc hc hpc =>
    refine Own.callerAt (s := s.setTask id _) h fun j m => ?_
    rcases hpc with rfl | ⟨interval, rfl⟩ <;> simp
  | addHandler | shutDownHandler => exact ha.elim
  | handlerWin hc => exact absurd hc (h _ _ _)
  | _ => exact Own.callerAt h (fun j m => by simp)

/-- The handlers are closed one after the other, by one call. -/
structure Handed (s : ScheduledThreadPool) : Prop where
  own : s.Own
  idle : s.isRequestShutDown = false → s.closer = .idle
  fresh : ∀ i, s.closer.fresh i → (s.handlers i).isRequestShutDown = false

theorem Handed.create : Handed .create where
  own _ _ _ hc := by cases hc
  idle _ := rfl
  fresh _ _ := rfl

theorem Handed.requested (h : Handed s) (hcl : s.closer ≠ .idle) : s.isRequestShutDown = true := by
  cases hf : s.isRequestShutDown with
  | true => rfl
  | false => exact absurd (h.idle hf) hcl

theorem Handed.quiet (h : Handed s) (hown : t.Own) (hreq : t.isRequestShutDown = s.isRequestShutDown)
    (hcl : t.closer = s.closer)
    (hflag : ∀ i, (t.handlers i).isRequestShutDown = (s.handlers i).isRequestShutDown) : Handed t where
  own := hown
  idle hf := hcl ▸ h.idle (hreq ▸ hf)
  fresh i hi := hflag i ▸ h.fresh i (hcl ▸ hi)

theorem flag_setHandler {i : ℕ} (hflag : h.isRequestShutDown = (s.handlers i).isRequestShutDown) (j : ℕ) :
    ((s.setHandler i h).handlers j).isRequestShutDown = (s.handlers j).isRequestShutDown :=
  apply_update_of_eq hflag j

theorem HandlerCloserTrans.requested (ht : HandlerCloserTrans h ts sp h') :
    h'.isRequestShutDown = h.isRequestShutDown := by
  cases ht <;> rfl

theorem Handed.trans (h : Handed s) (ha : Pooled s a) (ht : Trans n s a t) : Handed t := by
  have hown := h.own.trans ha ht
  cases ht with
  | handler hi hs => exact h.quiet hown rfl rfl (flag_setHandler (handlerTrans_of_next hs).frame.1)
  | handlerCloser hs => exact h.quiet hown rfl rfl (flag_setHandler (HandlerCloserTrans.requested hs))
  | addPush => exact h.quiet hown rfl rfl (flag_setHandler (s := s) rfl)
  | setStop hcl =>
    have hreq := h.requested (by simp [hcl])
    exact ⟨hown, fun hf => absurd (hreq.symm.trans hf) Bool.noConfusion, fun i _ => h.fresh i (hcl ▸ trivial)⟩
  | skip hcl | leave hcl =>
    have hreq := h.requested (by simp [hcl])
    refine ⟨hown, fun hf => absurd (hreq.symm.trans hf) Bool.noConfusion, fun i hi => h.fresh i ?_⟩
    rw [hcl]
    have hle := CloserPc.fresh_loop hi
    first | exact Nat.le_of_succ_le hle | exact hle
  | @enter now i hcl hf =>
    have hreq := h.requested (by simp [hcl])
    refine ⟨hown, fun hf => absurd (hreq.symm.trans hf) Bool.noConfusion, fun j hj => ?_⟩
    have hij : i < j := hj
    have hne : (s.setHandler i { s.handlers i with isRequestShutDown := true, closer := .pushEnd now }).handlers j =
        s.handlers j := Function.update_of_ne (by omega) ..
    exact (congrArg Handler.isRequestShutDown hne).trans (h.fresh j (hcl ▸ Nat.le_of_lt hij))
  | setShutDown hcl =>
    have hreq := h.requested (by simp [hcl])
    exact ⟨hown, fun hf => absurd (hreq.symm.trans hf) Bool.noConfusion, fun i hi => hi.elim⟩
  | win hc hf =>
    have hidle := h.idle hf
    exact ⟨hown, fun hc => (by cases hc), fun i _ => h.fresh i (hidle ▸ trivial)⟩
  | handlerWin hc => exact absurd hc (h.own _ _ _)
  | _ => exact h.quiet hown rfl rfl fun _ => rfl

/-- The body of `ShutDownHelper` is that of a `ShutDownNow`. -/
def CloserPc.patient : CloserPc → Prop
  | .idle | .returned => True
  | .setStop now | .cas _ now | .helper _ now | .setShutDown now => now = true

theorem CloserPc.patient_loop {i : ℕ} {now : Bool} (h : now = true) : (loop n i now).patient := by
  unfold loop
  split_ifs <;> exact h

/-- What the pool's state says about the threads. -/
structure Waiting (n : ℕ) (s : ScheduledThreadPool) : Prop where
  sound : ∀ i, HandlerSound (s.handlers i)
  patient : s.closer.patient
  waited : ∀ i, s.closer.waited n i → (s.handlers i).pc.left
  helper : ∀ i, s.closer = .helper i true → Waits (s.handlers i)
  shut : s.state = .shutDown → AllLeft n s
  now : s.nowReturned = true → AllLeft n s

/-- The request flag is set by a `ShutDownNow`, and another `ShutDownNow` comes to the flag only when the pool is
    shut down; the handlers are the pool's own, and no `compare_exchange_weak` fails spuriously. -/
def Awaited (s : ScheduledThreadPool) : Act → Prop
  | .caller c _ spurious => spurious = false ∧ (s.callers c = .cas false → s.isRequestShutDown = true) ∧
    (s.callers c = .cas true → s.isRequestShutDown = true → s.isShutDown = true)
  | .closer spurious => spurious = false
  | .handlerCloser _ spurious => spurious = false
  | .addHandler .. | .shutDownHandler .. => False
  | _ => True

instance (s : ScheduledThreadPool) : ∀ a, Decidable (Awaited s a)
  | .caller .. => inferInstanceAs (Decidable (_ ∧ _))
  | .closer _ | .handlerCloser .. => inferInstanceAs (Decidable (_ = _))
  | .addHandler .. | .shutDownHandler .. => isFalse id
  | .handler .. | .add .. | .shutDown .. | .cancel .. => isTrue trivial

theorem Waits.move (hw : Waits h) (hs : HandlerSound h) (hm : HandlerMove ts false h h') : Waits h' := by
  unfold Waits at hw ⊢
  cases hm with
  | same => exact hw
  | next hn =>
    have ht := handlerTrans_of_next hn
    obtain ⟨-, -, -, -, hcloser⟩ := ht.frame
    rcases hcloser with heq | ⟨n, m, -, heq⟩
    · rw [heq]
      cases hc : h.closer with
      | returned =>
        rw [hc] at hw
        exact (ht.of_left hw).1
      | idle | pushEnd | close | waitFinished | waiting =>
        rw [hc] at hw
        exact hw
    · rw [heq]
      trivial
  | closer ht =>
    cases ht with
    | pushEnd hcl => rw [hcl] at hw; exact hw
    | closeFail hcl hf =>
      rcases hf with hf | hf
      · have := hs.closed hf
        rw [hcl] at this
        cases this
      · cases hf
    | asyncClose hcl hf => rw [hcl] at hw; cases hw
    | close | wait => trivial
    | finished hcl hfin => exact hs.finished hfin
  | request hf =>
    rw [hs.requested hf] at hw
    cases hw
  | accept hfree =>
    show match h.closer with
      | .pushEnd now | .close now => now = true
      | .waitFinished | .waiting _ => True
      | .returned => h.pc.notify.left
      | .idle => False
    cases hc : h.closer with
    | returned =>
      rw [hc] at hw
      exact HandlerPc.left_notify.2 hw
    | idle | pushEnd | close | waitFinished | waiting =>
      rw [hc] at hw
      exact hw

theorem Waiting.create : Waiting n .create where
  sound _ := handlerSound_create
  patient := trivial
  waited _ hc := hc.elim
  helper _ hc := by cases hc
  shut hc := by cases hc
  now hc := by cases hc

/-- A step that leaves the pool's own fields as they are. -/
theorem Waiting.quiet (h : Waiting n s) (ht : Trans n s a t) (hsp : a.spurious = false)
    (hcl : t.closer = s.closer) (hst : t.state = s.state) (hnow : t.nowReturned = s.nowReturned) :
    Waiting n t := by
  have hmove : ∀ i, HandlerMove s.tasks false (s.handlers i) (t.handlers i) :=
    fun i => hsp ▸ handler_move ht i
  refine ⟨fun i => (h.sound i).move (hmove i), hcl ▸ h.patient, fun i hi => ?_, fun i hi => ?_, fun hs => ?_,
    fun hs => ?_⟩
  · exact ((hmove i).of_left (h.waited i (hcl ▸ hi))).1
  · exact (h.helper i (hcl ▸ hi)).move (h.sound i) (hmove i)
  · exact (h.shut (hst ▸ hs)).trans ht
  · exact (h.now (hnow ▸ hs)).trans ht

theorem Awaited.pooled (ha : Awaited s a) : Pooled s a ∧ a.spurious = false := by
  cases a with
  | addHandler | shutDownHandler => exact ha.elim
  | handlerCloser | closer => exact ⟨trivial, ha⟩
  | caller => exact ⟨trivial, ha.1⟩
  | handler | add | shutDown | cancel => exact ⟨trivial, rfl⟩

theorem Waiting.trans (h : Waiting n s) (hd : Handed s) (ha : Awaited s a) (ht : Trans n s a t) :
    Waiting n t := by
  have hsp := ha.pooled.2
  have hall := ht
  have hpatient : ∀ {pc : CloserPc}, s.closer = pc → pc.patient := fun hcl => hcl ▸ h.patient
  cases ht with
  | setStop hcl =>
    refine ⟨h.sound, CloserPc.patient_loop (hpatient hcl), fun i hi => ?_,
      fun i hi => absurd hi CloserPc.loop_ne_helper, fun hc => (by cases hc), h.now⟩
    exact absurd (CloserPc.waited_loop hi).2 (Nat.not_lt_zero i)
  | @skip spurious now i hcl hf =>
    rcases hf with hf | hf
    · rw [hd.fresh i (hcl ▸ Nat.le_refl i)] at hf
      cases hf
    · rw [show spurious = false from ha] at hf
      cases hf
  | @enter now i hcl hf =>
    have hmove := handler_move hall
    obtain rfl : now = true := hpatient hcl
    refine ⟨fun j => (h.sound j).move (hmove j), rfl, fun j hj => ?_, fun j hj => ?_,
      fun hc => (h.shut hc).trans hall, fun hc => (h.now hc).trans hall⟩
    · exact ((hmove j).of_left (h.waited j (hcl ▸ hj))).1
    · obtain ⟨rfl, -⟩ := CloserPc.helper.inj hj
      show Waits (Function.update s.handlers i _ i)
      rw [Function.update_self]
      rfl
  | @leave spurious now i hcl hret =>
    refine ⟨h.sound, CloserPc.patient_loop (hpatient hcl), fun j hj => ?_,
      fun j hj => absurd hj CloserPc.loop_ne_helper, h.shut, h.now⟩
    obtain ⟨rfl, hlt⟩ := CloserPc.waited_loop hj
    by_cases hji : j = i
    · subst hji
      have hw := h.helper j hcl
      unfold Waits at hw
      rwa [hret] at hw
    · exact h.waited j (hcl ▸ ⟨rfl, by omega⟩)
  | @setShutDown spurious now hcl =>
    -- the loop of the `ShutDownNow` has waited for all handlers
    obtain rfl : now = true := hpatient hcl
    have hleft : AllLeft n s := fun i hi => h.waited i (hcl ▸ ⟨rfl, hi⟩)
    exact ⟨h.sound, trivial, fun i hi => hleft i hi, fun i hi => (by cases hi), fun _ => hleft, h.now⟩
  | @lose c now spurious now' hc hf =>
    refine ⟨h.sound, h.patient, h.waited, h.helper, h.shut, fun hn => ?_⟩
    rcases Bool.or_eq_true_iff.1 hn with hn | rfl
    · exact h.now hn
    · rcases hf with hf | hf
      · exact h.shut (of_decide_eq_true (ha.2.2 hc hf))
      · rw [ha.1] at hf
        cases hf
  | @win c now now' hc hf =>
    refine ⟨h.sound, ?_, fun i hi => hi.elim, fun i hi => (by cases hi), h.shut, h.now⟩
    cases now' with
    | true => rfl
    | false => exact Bool.noConfusion (hf.symm.trans (ha.2.1 hc))
  | @resume c now spurious now' hc hret =>
    refine ⟨h.sound, h.patient, h.waited, h.helper, h.shut, fun _ i hi => ?_⟩
    exact h.waited i (hret ▸ hi)
  | handlerWin hc => exact absurd hc (hd.own _ _ _)
  | _ => exact h.quiet hall hsp rfl rfl rfl

/-! ## Runs -/

theorem handed_preserved : Preserved (step n) Pooled Handed :=
  fun _ _ _ h ha hs => h.trans ha (trans_of_step hs)

theorem waiting_preserved : PreservedUnder (step n) Awaited Handed (Waiting n) :=
  fun _ _ _ hd h ha hs => h.trans hd ha (trans_of_step hs)

/-- A thread that has left stays out, and starts no task. -/
theorem left_run {i : ℕ} {bs : List Act} (hl : (s.handlers i).pc.left) (h : Run (step n) Free s bs t) :
    (t.handlers i).pc.left ∧ (t.handlers i).started = (s.handlers i).started := by
  refine h.invariant (I := fun t => (t.handlers i).pc.left ∧ (t.handlers i).started = (s.handlers i).started)
    (fun u a v hu _ hs => ?_) ⟨hl, rfl⟩
  obtain ⟨hv, heq⟩ := (handler_move (trans_of_step hs) i).of_left hu.1
  exact ⟨hv, heq.trans hu.2⟩

theorem shutDownNow_waits {as : List Act} (h : Run (step n) Awaited .create as s)
    (hdone : s.nowReturned = true ∨ s.isShutDown = true) : ∀ i < n, (s.handlers i).pc.left ∧
      ∀ bs t, Run (step n) Free s bs t →
        (t.handlers i).pc.left ∧ (t.handlers i).started = (s.handlers i).started := by
  have hw : Waiting n s := h.invariant_under (handed_preserved.imp fun _ _ ha => ha.pooled.1)
    waiting_preserved .create .create
  have hleft : AllLeft n s := hdone.elim hw.now fun hs => hw.shut (of_decide_eq_true hs)
  exact fun i hi => ⟨hleft i hi, fun bs t hrun => left_run (hleft i hi) hrun⟩

/-- A `ShutDownNow` of a pool with two handlers. -/
theorem shutDownNow_waits_two : ∃ s, Run (step 2) Awaited .create
    ([.shutDown 0 true, .caller 0 0 false, .closer false, .closer false] ++
      List.replicate 3 (.handlerCloser 0 false) ++ List.replicate 3 (.handler 0 0 .returns) ++
      [.handlerCloser 0 false, .closer false, .closer false] ++
      List.replicate 3 (.handlerCloser 1 false) ++ List.replicate 3 (.handler 1 0 .returns) ++
      [.handlerCloser 1 false, .closer false, .closer false, .caller 0 0 false]) s ∧
    s.nowReturned = true ∧ ∀ i < 2, (s.handlers i).pc.left := by
  refine exists_run (I := fun s => s.nowReturned = true) (by decide +kernel) fun s hrun hret => ⟨hret, fun i hi => ?_⟩
  exact (shutDownNow_waits hrun (.inl hret) i hi).1

/-- Inside `DoRun` of a task, the pool is shut down by a `ShutDown`, and a `ShutDownNow` returns. -/
theorem closed_too_early : ¬ ∀ (n : ℕ) (as : List Act) (s : ScheduledThreadPool), 1 ≤ n →
    Run (step n) (fun s a => Regular s a ∧ Pooled s a) .create as s →
    s.nowReturned = true ∨ s.isShutDown = true → ∀ i < n, (s.handlers i).pc.left := by
  intro hall
  obtain ⟨s, hrun, hret, hleft⟩ : ∃ s, Run (step 1) (fun s a => Regular s a ∧ Pooled s a) .create
      ([.add 0 (some 7) (.cron 0)] ++ List.replicate 7 (.caller 0 5 false) ++
        List.replicate 13 (.handler 0 5 .returns) ++
        [.shutDown 1 false, .caller 1 5 false, .closer false, .closer false, .handlerCloser 0 false,
          .handlerCloser 0 false, .closer false, .closer false, .shutDown 2 true, .caller 2 5 false]) s ∧
      s.nowReturned = true ∧ ¬ (s.handlers 0).pc.left := exists_run (by decide +kernel) fun _ _ h => h
  exact hleft (hall 1 _ s (Nat.le_refl 1) hrun (.inl hret) 0 Nat.one_pos)

end ScheduledThreadPool

end Empool
