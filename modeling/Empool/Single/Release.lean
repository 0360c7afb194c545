/-
  Which callers of `ShutDownNow` a `SingleThreadPool` releases.

  `NotifyWhenThreadStop` signals `m_stateCond` once: it wakes one caller.  A
  caller that tests the state later does not wait, so everybody is released
  exactly if at most one caller waits when the worker signals
  (`signal_empties_iff`).  Of two that wait, one is left behind
  (`shutDownNow_left_behind`), and stays blocked (`blocked_run`).
-/
import Empool.Single.Closing

namespace Empool

open Lts

namespace SingleThreadPool

variable {s t : SingleThreadPool} {a : Act} {c d : ℕ}

/-- The finish action is done. -/
def WorkerPc.finished : WorkerPc → Prop
  | .notifyFinished | .ended => True
  | _ => False

instance : DecidablePred WorkerPc.finished
  | .notifyFinished | .ended => isTrue trivial
  | .start | .check | .getTask | .wait _ | .dispatch _ | .running _ | .setShutDown | .notify | .escaped =>
    isFalse id

theorem WorkerPc.finished.stopped {pc : WorkerPc} (h : pc.finished) : pc.stopped := by
  cases pc with
  | notifyFinished | ended => trivial
  | start | check | getTask | wait | dispatch | running | setShutDown | notify | escaped => cases h

/-- The caller `c` is blocked in `ShutDownNow` and has not been notified. -/
def Blocked (s : SingleThreadPool) (c : ℕ) : Prop := s.callers c = .waiting ∧ c ∈ s.stateCond

instance (s : SingleThreadPool) (c : ℕ) : Decidable (s.Blocked c) := inferInstanceAs (Decidable (_ ∧ _))

/-- When the worker signals, at most one caller waits. -/
def OneWaiter (s : SingleThreadPool) : Act → Prop
  | .signal _ => s.stateCond.length ≤ 1
  | _ => True

instance (s : SingleThreadPool) : ∀ a, Decidable (OneWaiter s a)
  | .signal _ => inferInstanceAs (Decidable (_ ≤ _))
  | .construct | .worker | .throw | .addTask .. | .shutDown .. | .caller .. | .closer _ => isTrue trivial

/-! ## The signal -/

theorem Sound.flag_of_left (h : s.Sound) (hl : s.worker.left) : s.isRequestShutDown = true := by
  have hcl := h.left hl
  refine eq_true_of_ne_false (h.flagged fun hidle => ?_)
  rw [hidle] at hcl
  exact hcl

/-- The signal releases everybody if and only if at most one caller waits. -/
theorem signal_empties_iff (h : s.Sound) (ht : Trans s (.signal c) t) :
    t.stateCond = [] ↔ s.stateCond.length ≤ 1 := by
  cases ht with
  | signal hw hc =>
    have hf : s.isRequestShutDown = true := h.flag_of_left (hw ▸ trivial)
    show (if s.isRequestShutDown then s.stateCond.erase c else s.stateCond) = [] ↔ _
    rw [if_pos hf]
    rcases hc with hnil | hmem
    · simp [hnil]
    · have hlen := List.length_erase_of_mem hmem
      have hpos := List.length_pos_of_mem hmem
      rw [List.eq_nil_iff_length_eq_zero]
      omega

/-! ## Runs in which at most one caller waits -/

/-- The worker has set `SHUTDOWN` before it signals, and nobody waits behind the signal. -/
structure Released (s : SingleThreadPool) : Prop where
  shut : s.worker.stopped → s.state = .shutDown
  nobody : s.worker.finished → s.stateCond = []

theorem Released.shut_trans (h : s.worker.stopped → s.state = .shutDown) (hs : s.Sound)
    (ht : Trans s a t) : t.worker.stopped → t.state = .shutDown := by
  intro hst
  cases ht with
  | construct hc =>
    have := h hst
    rw [hc] at this
    cases this
  | leave | start | check | take | block | stop | run | runReturn | throw => cases hst
  | setShutDown hw => rfl
  | notifyFinished hw | signal hw hc => exact h (hw ▸ trivial)
  | setStop hcl =>
    have := hs.left hst.left
    rw [show s.closer = .setStop from hcl] at this
    cases this
  | @push c spurious task hc => exact h ((@pushTask_worker_iff s task _ Iff.rfl).1 hst)
  | pushEnd hcl => exact h ((@pushTask_worker_iff s .endTask _ Iff.rfl).1 hst)
  | addTask | shutDown | refuse | accept | lose | win | resume | released | wait | asyncClose => exact h hst

theorem Released.trans (h : s.Released) (hs : s.Sound) (ha : OneWaiter s a) (ht : Trans s a t) :
    t.Released := by
  refine ⟨Released.shut_trans h.shut hs ht, fun hfin => ?_⟩
  have hall := ht
  cases ht with
  | leave | start | check | take | block | stop | run | runReturn | throw | setShutDown => cases hfin
  | notifyFinished hw => exact h.nobody (hw ▸ trivial)
  | signal hw hc => exact (signal_empties_iff hs hall).2 ha
  | @push c spurious task hc => exact h.nobody ((@pushTask_worker_iff s task _ Iff.rfl).1 hfin)
  | pushEnd hcl => exact h.nobody ((@pushTask_worker_iff s .endTask _ Iff.rfl).1 hfin)
  | @released c spurious hc hst =>
    show s.stateCond.erase c = []
    rw [h.nobody hfin]
    rfl
  | wait hc hst => exact absurd (h.shut (WorkerPc.finished.stopped hfin)) hst
  | construct | addTask | shutDown | refuse | accept | lose | win | resume | setStop | asyncClose =>
    exact h.nobody hfin

theorem shutDownNow_released {mode : RunMode} {as : List Act} (h : Run step OneWaiter (create mode) as s)
    (hfin : s.worker.finished) (c : ℕ) : ¬ s.Blocked c := by
  have hpres : Preserved step OneWaiter Sound := sound_preserved.imp fun _ _ _ => trivial
  have hrel := h.invariant_under hpres (I := Released)
    (fun _ _ _ hs h ha hst => h.trans hs ha (trans_of_step hst)) (.create mode) ⟨False.elim, False.elim⟩
  rintro ⟨-, hmem⟩
  rw [hrel.nobody hfin] at hmem
  cases hmem

/-- One caller of `ShutDownNow`, which waits when the worker signals. -/
theorem shutDownNow_released_one : ∃ s, Run step OneWaiter (create .fifo)
    [.construct, .shutDown 0 true, .caller 0 false, .closer false, .closer false, .closer false,
      .caller 0 false, .caller 0 false, .worker, .worker, .signal 0] s ∧
    s.callers 0 = .waiting ∧ ¬ s.Blocked 0 := by
  refine exists_run (I := fun s => s.callers 0 = .waiting ∧ s.worker.finished) (by decide +kernel)
    fun s hrun ⟨hc, hfin⟩ => ⟨hc, ?_⟩
  exact shutDownNow_released hrun hfin 0

/-! ## Two callers -/

/-- No wake-up is spurious, no `compare_exchange_weak` fails spuriously, and no task throws. -/
def NoSpurious (s : SingleThreadPool) : Act → Prop
  | .worker => s.worker ≠ .wait false
  | .caller c spurious => spurious = false ∧ ¬ s.Blocked c
  | .closer spurious => spurious = false
  | .throw => False
  | _ => True

instance (s : SingleThreadPool) : ∀ a, Decidable (NoSpurious s a)
  | .worker => inferInstanceAs (Decidable (_ ≠ _))
  | .caller .. => inferInstanceAs (Decidable (_ ∧ _))
  | .closer _ => inferInstanceAs (Decidable (_ = _))
  | .throw => isFalse id
  | .construct | .signal _ | .addTask .. | .shutDown .. => isTrue trivial

/-- Two callers of `ShutDownNow` wait when the worker signals. -/
theorem shutDownNow_left_behind : ¬ ∀ (mode : RunMode) (as : List Act) (s : SingleThreadPool),
    Run step NoSpurious (create mode) as s → s.worker.finished → ∀ c, ¬ s.Blocked c := by
  intro hall
  obtain ⟨s, hrun, hfin, hb⟩ : ∃ s, Run step NoSpurious (create .fifo)
      [.construct, .shutDown 0 true, .caller 0 false, .closer false, .closer false, .closer false,
        .caller 0 false, .caller 0 false, .shutDown 1 true, .caller 1 false, .caller 1 false, .worker,
        .worker, .signal 0, .worker, .caller 0 false] s ∧ s.worker.finished ∧ s.Blocked 1 :=
    exists_run (by decide +kernel) fun _ _ h => h
  exact hall .fifo _ s hrun hfin 1 hb

/-- The next step is not one of the caller `c`: its wait does not end spuriously. -/
def NotOf (c : ℕ) (_ : SingleThreadPool) : Act → Prop
  | .caller d _ => d ≠ c
  | _ => True

/-- A caller that is blocked when the finish action is done stays blocked. -/
theorem blocked_trans (hfin : s.worker.finished) (hb : s.Blocked c) (ha : NotOf c s a) (ht : Trans s a t) :
    t.worker.finished ∧ t.Blocked c := by
  obtain ⟨hpc, hmem⟩ := hb
  have hother : ∀ {d : ℕ} {pc : CallerPc}, d ≠ c → (s.callerAt d pc).callers c = .waiting := by
    intro d pc hd
    rw [show (s.callerAt d pc).callers c = s.callers c from Function.update_of_ne hd.symm ..]
    exact hpc
  have hidle : ∀ {d : ℕ}, s.callers d = .idle → d ≠ c := by
    rintro d hd rfl
    rw [hpc] at hd
    cases hd
  cases ht with
  | construct | setStop | asyncClose => exact ⟨hfin, hpc, hmem⟩
  | leave hw =>
    rcases hw with hw | hw
    · rw [hw] at hfin; cases hfin
    · rw [hw] at hfin; cases hfin
  | take hw | block hw =>
    exact absurd hfin.stopped.left hw.not_left
  | start hw | check hw | stop hw | run hw | runReturn hw | setShutDown hw | signal hw | throw hw =>
    rw [hw] at hfin
    cases hfin
  | notifyFinished hw => exact ⟨trivial, hpc, hmem⟩
  | addTask hc hst | shutDown hc hst => exact ⟨hfin, hother (hidle hc), hmem⟩
  | refuse hc hf | accept hc hf | lose hc hf | win hc hf | resume hc hf => exact ⟨hfin, hother ha, hmem⟩
  | @push d spurious task hc =>
    exact ⟨(@pushTask_worker_iff s task _ Iff.rfl).2 hfin, hother ha, hmem⟩
  | pushEnd hcl => exact ⟨(@pushTask_worker_iff s .endTask _ Iff.rfl).2 hfin, hpc, hmem⟩
  | released hc hst => exact ⟨hfin, hother ha, (List.mem_erase_of_ne (Ne.symm ha)).2 hmem⟩
  | wait hc hst =>
    exact ⟨hfin, hother ha, List.mem_cons_of_mem _ ((List.mem_erase_of_ne (Ne.symm ha)).2 hmem)⟩

theorem blocked_run {bs : List Act} (hfin : s.worker.finished) (hb : s.Blocked c)
    (h : Run step (NotOf c) s bs t) : t.Blocked c :=
  (h.invariant (I := fun s => s.worker.finished ∧ s.Blocked c)
    (fun _ _ _ hi ha hst => blocked_trans hi.1 hi.2 ha (trans_of_step hst)) ⟨hfin, hb⟩).2

end SingleThreadPool

end Empool
