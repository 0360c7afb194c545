/-
  `m_thread` of a `CloseableThread`, which its own thread reads.

  `Init` starts the thread before it stores the handle, and the thread asks the
  handle for its id when the work function has been left.  A check can leave the
  work function only after a call of `Close` or `AsyncClose`, so after the
  constructor has returned; but the work function may return at any time.  The
  handle is there if the work function does not return before it is stored, or
  there is no finish action; otherwise the thread may read it before it is there
  (`handle_is_stored`).
-/
import Empool.Thread.Close

namespace Empool

open Lts

namespace CloseableThread

variable {s t : CloseableThread} {a : Act}

/-- The work function does not return before `m_thread` is stored, if there is a finish action. -/
def Stored (s : CloseableThread) : Act → Prop
  | .workReturn => s.handle = true ∨ s.hasFinishAction = false
  | _ => True

instance (s : CloseableThread) : ∀ a, Decidable (Stored s a)
  | .workReturn => inferInstanceAs (Decidable (_ ∨ _))
  | .init | .thread | .checkFunc | .close _ | .asyncClose _ | .caller .. => isTrue trivial

/-- Before the handle is stored nobody has the object, so nobody has asked to close it, and the thread does
    not read the handle. -/
structure Named (s : CloseableThread) : Prop where
  stored : s.initPc = .returned → s.handle = true
  early : s.handle = false → s.isRequestClose = false ∧ ∀ c, s.callers c = .idle
  reads : s.handle = false → s.thread ≠ .caught ∧ (s.thread = .finishAction → s.hasFinishAction = false)
  null : s.nullHandle = false

theorem named_create (hasFinishAction : Bool) : (create hasFinishAction).Named where
  stored h := by cases h
  early _ := ⟨rfl, fun _ => rfl⟩
  reads _ := ⟨nofun, nofun⟩
  null := rfl

/-- The thread goes to `pc`. -/
theorem Named.goto (h : s.Named) {pc : ThreadPc} {n : ℕ} {st : State} {m : Option Owner}
    (hpc : s.handle = false → pc ≠ .caught ∧ (pc = .finishAction → s.hasFinishAction = false)) :
    Named { s with thread := pc, finishCalls := n, state := st, mutex := m } :=
  ⟨h.stored, h.early, hpc, h.null⟩

/-- A caller acts only when the handle is stored. -/
theorem Named.caller (h : s.Named) (hhandle : s.handle = true) {f : ℕ → CallerPc} {flag : Bool} {m : Option Owner} :
    Named { s with callers := f, isRequestClose := flag, mutex := m } := by
  have hno : s.handle = false → False := fun hf => Bool.noConfusion (hhandle.symm.trans hf)
  exact ⟨h.stored, fun hf => (hno hf).elim, fun hf => (hno hf).elim, h.null⟩

theorem Named.checkIsRequestClose (h : s.Named) : s.checkIsRequestClose.Named := by
  refine h.goto fun hf => ?_
  rw [(h.early hf).1]
  exact ⟨nofun, nofun⟩

/-- The handle is there when the thread reads it. -/
theorem Named.read (h : s.Named) (hpc : s.thread = .caught ∨ s.thread = .finishAction ∧ s.hasFinishAction = true) :
    s.handle = true := by
  cases hf : s.handle with
  | true => rfl
  | false =>
    obtain ⟨hcaught, hfinish⟩ := h.reads hf
    rcases hpc with hpc | ⟨hpc, hhas⟩
    · exact absurd hpc hcaught
    · exact absurd ((hfinish hpc).symm.trans hhas) Bool.noConfusion

theorem named_step : Preserved step Stored Named := by
  intro s a t h ha hs
  have hcaller : ∀ {c : ℕ}, s.callers c ≠ .idle → s.handle = true := by
    intro c hc
    cases hf : s.handle with
    | true => rfl
    | false => exact absurd ((h.early hf).2 c) hc
  cases Trans.of_step hs with
  | create hpc => exact ⟨nofun, h.early, fun _ => ⟨nofun, nofun⟩, h.null⟩
  | store hpc => exact ⟨fun _ => rfl, nofun, nofun, h.null⟩
  | setRunning | setFinished | threadLock | threadUnlock | noFinishAction =>
    exact h.goto fun _ => ⟨nofun, nofun⟩
  | check | checkFunc => exact h.checkIsRequestClose
  | workReturn =>
    refine h.goto fun hf => ⟨nofun, fun _ => ?_⟩
    exact Or.resolve_left ha fun ht => Bool.noConfusion (ht.symm.trans hf)
  | caught hpc =>
    have hhandle := h.read (.inl hpc)
    refine ⟨h.stored, h.early, fun hf => ?_, by rw [h.null, hhandle]; rfl⟩
    exact Bool.noConfusion (hhandle.symm.trans hf)
  | finishAction hpc hhas =>
    have hhandle := h.read (.inr ⟨hpc, hhas⟩)
    exact ⟨h.stored, h.early, fun _ => ⟨nofun, nofun⟩, by rw [h.null, hhandle]; rfl⟩
  | notifyAll =>
    refine ⟨h.stored, fun hf => ?_, fun _ => ⟨nofun, nofun⟩, h.null⟩
    obtain ⟨hreq, hidle⟩ := h.early hf
    refine ⟨hreq, fun c => ?_⟩
    rw [if_neg (by rw [hreq]; exact Bool.noConfusion)]
    exact hidle c
  | close _ hinit | asyncClose _ hinit => exact h.caller (h.stored hinit)
  | asyncCas hc | lost hc | won hc | isFinished hc | notFinished hc | wait hc | callerUnlock hc =>
    exact h.caller (hcaller (by rw [hc]; exact nofun))
  | @callerLock c _ hc =>
    refine h.caller (hcaller (c := c) ?_)
    rcases hc with hc | ⟨n, hc⟩ <;> rw [hc] <;> exact nofun

/-- If the condition is not met, the thread may go on at once, and reads the null handle. -/
theorem null_of_not_stored (hs : step s a = some t) (ha : ¬ Stored s a) :
    ∃ u, step t .thread = some u ∧ u.nullHandle = true := by
  cases a with
  | workReturn =>
    obtain ⟨hhandle, hhas⟩ := not_or.1 ha
    have hhandle : s.handle = false := Bool.eq_false_iff.2 hhandle
    have hhas : s.hasFinishAction = true := Bool.of_not_eq_false hhas
    simp only [step] at hs
    split_ifs at hs with hpc
    cases hs
    simp only [step, threadNext, hhas, if_true, Option.some.injEq, exists_eq_left', hhandle, Bool.not_false,
      Bool.or_true]
  | _ => exact absurd trivial ha

/-- In a run that meets the condition the null handle is not read; a step that does not meet it can be followed
    by one that reads it. -/
theorem handle_is_stored {hasFinishAction : Bool} {as : List Act}
    (h : Run step Stored (create hasFinishAction) as s) : s.nullHandle = false ∧
      ∀ a t, step s a = some t → ¬ Stored s a → ∃ u, step t .thread = some u ∧ u.nullHandle = true :=
  ⟨(h.invariant named_step (named_create _)).null, fun _ _ hs ha => null_of_not_stored hs ha⟩

/-- The work function is left by its check, and the thread asks for its id twice. -/
theorem handle_is_stored_closed : ∃ s, Run step Stored (create true)
    ([.init, .thread, .thread, .init, .asyncClose 1, .caller 1 false, .checkFunc] ++ List.replicate 6 .thread) s ∧
    s.thread = .ended ∧ s.nullHandle = false := by
  refine exists_run (I := fun s => s.thread = .ended) (by decide) fun s hrun hended => ⟨hended, ?_⟩
  exact (handle_is_stored hrun).1

/-- The work function returns at once, before the constructing thread has stored the handle. -/
theorem handle_is_null : ¬ ∀ hasFinishAction as s, Run step Free (create hasFinishAction) as s →
    s.nullHandle = false := by
  intro hall
  obtain ⟨s, hrun, hnull⟩ : ∃ s, Run step Free (create true) [.init, .thread, .thread, .workReturn, .thread] s ∧
      s.nullHandle = true := exists_run (by decide) fun _ _ h => h
  exact Bool.noConfusion (hnull.symm.trans (hall true _ s hrun))

end CloseableThread

end Empool
