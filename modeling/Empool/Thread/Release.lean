/-
  Who wakes a caller that waits in `Close()`.

  The thread writes `m_state` without `m_mutex`, and broadcasts only if it finds
  the request flag set.  No caller is left behind: a caller that waits has set
  the flag before, and it has tested `m_state` under the mutex, which the thread
  takes behind its write.  So the caller has either found `FINISHED`, or is in
  its wait when the thread broadcasts (`close_released`).
-/
import Empool.Thread.Close
import Empool.Lib.Mutex

namespace Empool

open Lts

namespace CloseableThread

variable {s t : CloseableThread} {c : ℕ} {a : Act}

/-! ## Who holds the mutex -/

/-- The thread is between `Lock()` and `Unlock()`. -/
def ThreadPc.holds : ThreadPc → Prop
  | .notifyAll | .unlock => True
  | _ => False

/-- The caller is between `Lock()` and `Unlock()`. -/
def CallerPc.holds : CallerPc → Prop
  | .test | .wait | .unlock => True
  | .idle | .asyncCas | .cas | .lock | .waiting _ => False

/-- The caller that owns the mutex. -/
def Owner.caller? : Option Owner → Option ℕ
  | some (.caller c) => some c
  | some .thread | none => none

structure Held (s : CloseableThread) : Prop where
  thread : s.thread.holds → s.mutex = some .thread
  callers : Locked CallerPc.holds s.callers (Owner.caller? s.mutex)

theorem Held.not_thread (h : s.Held) (hc : (s.callers c).holds) : ¬ s.thread.holds := by
  intro ht
  have howner := h.callers c hc
  rw [h.thread ht] at howner
  cases howner

/-- A statement of a caller that leaves the mutex. -/
theorem Held.callerAt (h : s.Held) {pc : CallerPc} {flag : Bool} (hpc : pc.holds → (s.callers c).holds) :
    Held { s.callerAt c pc with isRequestClose := flag } :=
  ⟨h.thread, h.callers.keep hpc⟩

/-- `Unlock()` of a caller. -/
theorem Held.callerUnlock (h : s.Held) {pc : CallerPc} (hc : (s.callers c).holds) (hpc : ¬ pc.holds) :
    Held { s.callerAt c pc with mutex := none } := by
  refine ⟨fun ht => absurd ht (h.not_thread hc), ?_⟩
  exact h.callers.unlock hc hpc

theorem held_create (hasFinishAction : Bool) : (create hasFinishAction).Held where
  thread ht := by cases ht
  callers c hc := by cases hc

theorem held_step : Preserved step Free Held := by
  intro s a t h _ hs
  have hcheck : s.checkIsRequestClose.Held := by
    refine ⟨fun ht => ?_, h.callers⟩
    unfold checkIsRequestClose at ht
    split_ifs at ht <;> cases ht
  cases Trans.of_step hs with
  | create | setRunning | workReturn | caught | finishAction | noFinishAction | setFinished =>
    exact ⟨nofun, h.callers⟩
  | store => exact ⟨h.thread, h.callers⟩
  | check | checkFunc => exact hcheck
  | threadLock hpc hm =>
    refine ⟨fun _ => rfl, fun c hc => ?_⟩
    have howner := h.callers c hc
    rw [hm] at howner
    cases howner
  | notifyAll hpc =>
    refine ⟨fun _ => h.thread (by rw [hpc]; trivial), ?_⟩
    show Locked _ (if s.isRequestClose then fun c => (s.callers c).notify else s.callers) _
    split_ifs
    · refine h.callers.map (f := CallerPc.notify) fun pc hpc => ?_
      cases pc with
      | waiting => cases hpc
      | _ => exact hpc
    · exact h.callers
  | threadUnlock hpc =>
    refine ⟨nofun, fun c hc => ?_⟩
    exact absurd (by rw [hpc]; trivial) (h.not_thread hc)
  | close | asyncClose | asyncCas | lost | won => exact h.callerAt False.elim
  | callerLock hc hm =>
    refine ⟨fun ht => ?_, ?_⟩
    · have howner := h.thread ht
      rw [hm] at howner
      cases howner
    · have hfree := h.callers
      rw [hm] at hfree
      exact hfree.lock
  | isFinished hc | notFinished hc => exact h.callerAt fun _ => by rw [hc]; trivial
  | wait hc | callerUnlock hc => exact h.callerUnlock (by rw [hc]; trivial) not_false

/-! ## Who is woken -/

/-- The call has set the request flag. -/
def CallerPc.won : CallerPc → Prop
  | .lock | .test | .wait | .waiting _ | .unlock => True
  | .idle | .asyncCas | .cas => False

/-- The thread has taken the mutex behind `SetState(FINISHED)`. -/
def ThreadPc.beyond : ThreadPc → Prop
  | .notifyAll | .unlock | .ended => True
  | _ => False

/-- The `NotifyAll()` is behind the thread. -/
def ThreadPc.notified : ThreadPc → Prop
  | .unlock | .ended => True
  | _ => False

theorem ThreadPc.beyond.past {pc : ThreadPc} (h : pc.beyond) : pc.past := by
  cases pc with
  | notifyAll | unlock | ended => trivial
  | _ => cases h

theorem ThreadPc.notified.beyond {pc : ThreadPc} (h : pc.notified) : pc.beyond := by
  cases pc with
  | unlock | ended => trivial
  | _ => cases h

/-- A caller that waits has set the flag; once the thread has taken the mutex nobody goes to wait, and once
    it has broadcast nobody waits unnotified. -/
structure Heard (s : CloseableThread) : Prop where
  won : ∀ c, (s.callers c).won → s.isRequestClose = true
  wait : s.thread.beyond → ∀ c, s.callers c ≠ .wait
  waiting : s.thread.notified → ∀ c, s.callers c ≠ .waiting false

theorem heard_create (hasFinishAction : Bool) : (create hasFinishAction).Heard where
  won c hc := by cases hc
  wait ht := by cases ht
  waiting ht := by cases ht

/-- The thread moves on before it has taken the mutex. -/
theorem Heard.before (h : s.Heard) {pc : ThreadPc} (hthread : t.thread = pc) (hcallers : t.callers = s.callers)
    (hflag : t.isRequestClose = s.isRequestClose) (hpc : ¬ pc.beyond) : t.Heard := by
  refine ⟨fun c hc => ?_, fun ht => ?_, fun ht => ?_⟩
  · rw [hflag]
    exact h.won c (hcallers ▸ hc)
  · exact absurd (hthread ▸ ht) hpc
  · exact absurd (hthread ▸ ht).beyond hpc

/-- A statement of a caller. -/
theorem Heard.caller (h : s.Heard) {pc : CallerPc} {flag : Bool} {m : Option Owner}
    (hflag : s.isRequestClose = true → flag = true) (hwon : pc.won → flag = true)
    (hwait : pc = .wait → ¬ s.thread.beyond) (hwaiting : pc = .waiting false → ¬ s.thread.notified) :
    Heard { s.callerAt c pc with isRequestClose := flag, mutex := m } where
  won d := update_of (P := fun x : CallerPc => x.won → flag = true) (fun _ => hwon)
    fun _ hd => hflag (h.won d hd)
  wait ht d := update_of (P := fun x : CallerPc => x ≠ .wait) (fun _ hpc => hwait hpc ht) fun _ => h.wait ht d
  waiting ht d := update_of (P := fun x : CallerPc => x ≠ .waiting false) (fun _ hpc => hwaiting hpc ht)
    fun _ => h.waiting ht d

theorem Heard.checkIsRequestClose (h : s.Heard) : s.checkIsRequestClose.Heard := by
  refine h.before rfl rfl rfl ?_
  unfold CloseableThread.checkIsRequestClose
  split_ifs <;> exact id

/-- The broadcast, which the thread sends only if it finds the flag set. -/
theorem Heard.notifyAll (h : s.Heard) (hpc : s.thread = .notifyAll) :
    Heard { s with
      thread := .unlock, callers := if s.isRequestClose then fun c => (s.callers c).notify else s.callers } where
  won c := by
    show ((if s.isRequestClose then fun c => (s.callers c).notify else s.callers) c).won → _
    split_ifs with hreq
    · exact fun _ => hreq
    · exact h.won c
  wait _ c hc := by
    refine h.wait (by rw [hpc]; trivial) c (of_notifyAll ?_ hc)
    intro n hn
    cases hn
  waiting _ c := by
    show (if s.isRequestClose then fun c => (s.callers c).notify else s.callers) c ≠ .waiting false
    split_ifs with hreq
    · cases hcp : s.callers c <;> simp [CallerPc.notify, hcp]
    · intro hc
      exact hreq (h.won c (by rw [hc]; trivial))

theorem heard_step : PreservedUnder step Free (fun s => s.Held ∧ s.Placed) Heard := by
  rintro s a t ⟨hheld, hplaced⟩ h _ hs
  have hkeep : s.isRequestClose = true → s.isRequestClose = true := id
  cases Trans.of_step hs with
  | create | setRunning | workReturn | caught | finishAction | noFinishAction | setFinished =>
    exact h.before rfl rfl rfl not_false
  | store => exact ⟨h.won, h.wait, h.waiting⟩
  | check | checkFunc => exact h.checkIsRequestClose
  | threadLock hpc hm =>
    refine ⟨h.won, fun _ c hc => ?_, nofun⟩
    -- the mutex is free, so no caller is about to wait
    have howner := hheld.callers c (by rw [hc]; trivial)
    rw [hm] at howner
    cases howner
  | notifyAll hpc => exact h.notifyAll hpc
  | threadUnlock hpc =>
    exact ⟨h.won, fun _ => h.wait (by rw [hpc]; trivial), fun _ => h.waiting (by rw [hpc]; trivial)⟩
  | close | asyncClose | lost => exact h.caller hkeep nofun nofun nofun
  | asyncCas => exact h.caller (fun hreq => by simp [hreq]) nofun nofun nofun
  | won => exact h.caller (fun _ => rfl) (fun _ => rfl) nofun nofun
  | @callerLock c _ hc =>
    refine h.caller hkeep (fun _ => h.won c ?_) nofun nofun
    rcases hc with hc | ⟨n, hc⟩ <;> rw [hc] <;> trivial
  | @isFinished c _ hc => exact h.caller hkeep (fun _ => h.won c (by rw [hc]; trivial)) nofun nofun
  | @notFinished c _ hc hst =>
    refine h.caller hkeep (fun _ => h.won c (by rw [hc]; trivial)) (fun _ ht => ?_) nofun
    exact hst (hplaced.1.2 ht.past)
  | @wait c _ hc =>
    refine h.caller hkeep (fun _ => h.won c (by rw [hc]; trivial)) nofun fun _ ht => ?_
    exact h.wait ht.beyond c hc
  | callerUnlock => exact h.caller hkeep nofun nofun nofun

/-! ## Runs -/

theorem close_released {hasFinishAction : Bool} {as : List Act}
    (h : Run step Free (create hasFinishAction) as s) (hended : s.thread = .ended) :
    (∀ c, s.callers c ≠ .waiting false) ∧ ∀ c, s.callers c ≠ .wait := by
  have hplaced : Preserved step Free fun s => s.Born ∧ s.Placed := placed_step.and born_step
  have hjoint : Preserved step Free fun s => s.Held ∧ s.Born ∧ s.Placed := held_step.and hplaced
  have hheard : PreservedUnder step Free (fun s => s.Held ∧ s.Born ∧ s.Placed) Heard :=
    fun s a t hj hi ha hs => heard_step s a t ⟨hj.1, hj.2.2⟩ hi ha hs
  have hs := h.invariant_under hjoint hheard ⟨held_create _, born_create _, placed_create _⟩ (heard_create _)
  refine ⟨hs.waiting ?_, hs.wait ?_⟩
  · rw [hended]
    trivial
  · rw [hended]
    trivial

/-- The caller 1 is in its wait when the thread finishes. -/
theorem close_released_two : ∃ s, Run step Free (create true) (works ++ [.close 1, .caller 1 false, .caller 1 false,
    .caller 1 false, .caller 1 false, .checkFunc] ++ List.replicate 6 .thread) s ∧
    (∀ c, s.callers c ≠ .waiting false) ∧ s.callers 1 = .waiting true := by
  refine exists_run (I := fun s => s.thread = .ended ∧ s.callers 1 = .waiting true) (by decide)
    fun s hrun ⟨hended, hc⟩ => ⟨(close_released hrun hended).1, hc⟩

end CloseableThread

end Empool
