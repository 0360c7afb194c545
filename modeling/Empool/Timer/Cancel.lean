/-
  What `Cancel` promises for the tasks of a handler.

  `Cancel` sets the request, and waits for a stop state.  A cycle task that has
  been fired is in the stop state `FINISHED`, and still is while its next `Run`
  has passed `CheckCancellation` and not reached `SetState(RUNNING)`.  A
  `Cancel` that finds it so returns, and `DoRun` is entered after that:
  `run_after_cancel`.  In all other places the task is quiet when `Cancel` has
  returned: `cancel_quiet`.
-/
import Empool.Timer.Admission

namespace Empool

open Lts TaskBase

variable {h h' : Handler} {ts ts' : Tasks} {id : ℕ}

/-! ## The thread and one task -/

/-- The thread has passed `CheckCancellation()` in `Run` of the task, and `DoRun()` has not returned. -/
def HandlerPc.inRun (id : ℕ) : HandlerPc → Prop
  | .running i pc => i = id ∧ pc.inRun
  | _ => False

theorem HandlerPc.inRun_notify {pc : HandlerPc} : pc.notify.inRun id ↔ pc.inRun id := by
  cases pc <;> exact Iff.rfl

/-- Where the thread is after a statement of `Run` of the task. -/
def RunNext.handlerPc (id : ℕ) : RunNext → HandlerPc
  | .goto pc => .running id pc
  | .returned => .lock
  | .thrown => .escaped

theorem RunNext.inRun_handlerPc {r : RunNext} {i : ℕ} : (r.handlerPc i).inRun id ↔ i = id ∧ r.inRun := by
  cases r with
  | goto pc => exact Iff.rfl
  | returned | thrown => exact ⟨fun h => h.elim, fun h => h.2.elim⟩

theorem RunNext.handlerPc_doRun {r : RunNext} (hr : r.handlerPc id = .running id .doRun) : r = .goto .doRun := by
  cases r with
  | goto pc => rw [(HandlerPc.running.inj hr).2]
  | returned | thrown => cases hr

/-- The thread executes a statement of `Run` of the task, or leaves its base alone. -/
theorem HandlerTrans.run_cases (ht : HandlerTrans h ts h' ts') (id : ℕ) :
    ((ts' id).base = (ts id).base ∧ ¬ h'.pc.inRun id) ∨
    ∃ pc r, h.pc = .running id pc ∧ RunTrans (ts id).base pc (ts' id).base r ∧ h'.pc = r.handlerPc id := by
  have hrun : ∀ {i : ℕ} {pc : RunPc} {b : TaskBase} {r : RunNext} {h' : Handler}, h.pc = .running i pc →
      RunTrans (ts i).base pc b r → h'.pc = r.handlerPc i →
      ((Function.update ts i { ts i with base := b } id).base = (ts id).base ∧ ¬ h'.pc.inRun id) ∨
      ∃ pc r, h.pc = .running id pc ∧
        RunTrans (ts id).base pc (Function.update ts i { ts i with base := b } id).base r ∧
        h'.pc = r.handlerPc id := by
    intro i pc b r h' hpc hr hpc'
    by_cases hid : id = i
    · subst hid
      rw [Function.update_self]
      exact .inr ⟨pc, r, hpc, hr, hpc'⟩
    · rw [Function.update_of_ne hid]
      refine .inl ⟨rfl, fun hin => ?_⟩
      rw [hpc'] at hin
      exact hid (RunNext.inRun_handlerPc.1 hin).1.symm
  cases ht with
  | run hpc hr => exact hrun hpc (runTrans_of_run hr) rfl
  | runReturn hpc hr => exact hrun hpc (runTrans_of_run hr) rfl
  | runThrow hpc hr => exact hrun hpc (runTrans_of_run hr) rfl
  | @setDeadline i now interval hpc =>
    exact .inl ⟨apply_update_of_eq (by rfl) id, not_false⟩
  | @popMin task fired hpc => exact .inl ⟨rfl, by cases fired <;> exact not_false⟩
  | fire => exact .inl ⟨rfl, fun hin => hin.2⟩
  | _ => exact .inl ⟨rfl, not_false⟩

theorem HandlerTrans.not_inRun (ht : HandlerTrans h ts h' ts') (hreq : (ts id).base.isRequestCancel = true)
    (hout : ¬ h.pc.inRun id) : (ts' id).base.isRequestCancel = true ∧ ¬ h'.pc.inRun id ∧
      (ts' id).base.doRuns = (ts id).base.doRuns := by
  rcases ht.run_cases id with ⟨heq, hno⟩ | ⟨pc, r, hpc, hr, hpc'⟩
  · rw [heq]
    exact ⟨hreq, hno, rfl⟩
  · obtain ⟨hnext, hruns⟩ := hr.quiet hreq fun hin => hout (by rw [hpc]; exact ⟨rfl, hin⟩)
    refine ⟨hr.isRequestCancel.trans hreq, fun hin => ?_, hruns⟩
    rw [hpc'] at hin
    exact hnext (RunNext.inRun_handlerPc.1 hin).2

namespace ScheduledThreadPool

variable {n : ℕ} {s t : ScheduledThreadPool} {a : Act} {sp : Bool}

/-! ## A task after `Cancel` -/

/-- The cancellation of the task has been requested, and no thread is about to enter its `DoRun` or inside it. -/
structure Quiet (n : ℕ) (s : ScheduledThreadPool) (id : ℕ) : Prop where
  requested : (s.tasks id).base.isRequestCancel = true
  out : ∀ i < n, ¬ (s.handlers i).pc.inRun id

theorem not_inRun_of_move (hm : HandlerMove ts sp h h') (hreq : (ts id).base.isRequestCancel = true)
    (hout : ¬ h.pc.inRun id) : ¬ h'.pc.inRun id := by
  cases hm with
  | same | request => exact hout
  | next hs => exact ((handlerTrans_of_next hs).not_inRun hreq hout).2.1
  | accept => exact fun hin => hout (HandlerPc.inRun_notify.1 hin)
  | closer ht =>
    cases ht with
    | pushEnd => exact fun hin => hout (HandlerPc.inRun_notify.1 hin)
    | closeFail | asyncClose | close | finished | wait => exact hout

/-- The callers leave the state of a task, and do not withdraw a request. -/
structure Kept (b b' : TaskBase) : Prop where
  state : b'.state = b.state
  runs : b'.doRuns = b.doRuns
  requested : b.isRequestCancel = true → b'.isRequestCancel = true

theorem Kept.refl (b : TaskBase) : Kept b b := ⟨rfl, rfl, fun hr => hr⟩

theorem kept_setTask {i : ℕ} {task : TimerTask} (hk : Kept (s.tasks i).base task.base) (id : ℕ) :
    Kept (s.tasks id).base ((s.setTask i task).tasks id).base :=
  (Function.forall_update_iff s.tasks fun j task => Kept (s.tasks j).base task.base).2
    ⟨hk, fun _ _ => .refl _⟩ id

theorem pc_setHandler {i : ℕ} (hpc : h.pc = (s.handlers i).pc ∨ h.pc = (s.handlers i).pc.notify) (j : ℕ) :
    ((s.setHandler i h).handlers j).pc = (s.handlers j).pc ∨
      ((s.setHandler i h).handlers j).pc = (s.handlers j).pc.notify :=
  (Function.forall_update_iff s.handlers fun j h =>
    h.pc = (s.handlers j).pc ∨ h.pc = (s.handlers j).pc.notify).2 ⟨hpc, fun _ _ => .inl rfl⟩ j

/-- A step of a caller leaves the threads where they are, but for their waits, and keeps the bases of the tasks. -/
structure Beside (s t : ScheduledThreadPool) : Prop where
  pc : ∀ i, (t.handlers i).pc = (s.handlers i).pc ∨ (t.handlers i).pc = (s.handlers i).pc.notify
  kept : ∀ id, Kept (s.tasks id).base (t.tasks id).base

theorem Trans.beside (ht : Trans n s a t) : (∃ i now e, a = .handler i now e) ∨ Beside s t := by
  cases ht with
  | handler => exact .inl ⟨_, _, _, rfl⟩
  | handlerCloser hs =>
    refine .inr ⟨pc_setHandler ?_, fun _ => .refl _⟩
    cases hs with
    | pushEnd => exact .inr rfl
    | closeFail | asyncClose | close | finished | wait => exact .inl rfl
  | enter => exact .inr ⟨pc_setHandler (s := s) (.inl rfl), fun _ => .refl _⟩
  | handlerWin => exact .inr ⟨pc_setHandler (s := s) (.inl rfl), fun _ => .refl _⟩
  | addPush => exact .inr ⟨pc_setHandler (s := s) (.inr rfl), fun _ => .refl _⟩
  | addDeadline | addInterval => exact .inr ⟨fun _ => .inl rfl, kept_setTask (s := s) (.refl _)⟩
  | cancelStore => exact .inr ⟨fun _ => .inl rfl, kept_setTask (s := s) ⟨rfl, rfl, fun _ => rfl⟩⟩
  | @cancelReturn c now spurious i | @cancelWait c now spurious i =>
    obtain ⟨hst, hreq, hruns⟩ := cancelTest_frame (s.tasks i).base c
    exact .inr ⟨fun _ => .inl rfl, kept_setTask (s := s) ⟨hst, hruns, fun hr => hreq.trans hr⟩⟩
  | _ => exact .inr ⟨fun _ => .inl rfl, fun _ => .refl _⟩

theorem Trans.requested (ht : Trans n s a t) (hr : (s.tasks id).base.isRequestCancel = true) :
    (t.tasks id).base.isRequestCancel = true := by
  rcases ht.beside with ⟨i, now, e, rfl⟩ | hb
  · cases ht with
    | handler hi hs =>
      rcases (handlerTrans_of_next hs).run_cases id with ⟨heq, -⟩ | ⟨pc, r, -, hrun, -⟩
      · exact (congrArg TaskBase.isRequestCancel heq).trans hr
      · exact hrun.isRequestCancel.trans hr
  · exact (hb.kept id).requested hr

theorem Quiet.trans (hq : Quiet n s id) (ht : Trans n s a t) :
    Quiet n t id ∧ (t.tasks id).base.doRuns = (s.tasks id).base.doRuns := by
  refine ⟨⟨ht.requested hq.requested, fun i hi =>
    not_inRun_of_move (handler_move ht i) hq.requested (hq.out i hi)⟩, ?_⟩
  rcases ht.beside with ⟨i, now, e, rfl⟩ | hb
  · cases ht with
    | handler hi hs => exact ((handlerTrans_of_next hs).not_inRun hq.requested (hq.out i hi)).2.2
  · exact (hb.kept id).runs

theorem quiet_run {as : List Act} (hq : Quiet n s id) (h : Run (step n) Free s as t) :
    Quiet n t id ∧ (t.tasks id).base.doRuns = (s.tasks id).base.doRuns := by
  refine h.invariant (I := fun t => Quiet n t id ∧ (t.tasks id).base.doRuns = (s.tasks id).base.doRuns)
    (fun u a v hu _ hs => ?_) ⟨hq, rfl⟩
  obtain ⟨hv, heq⟩ := hu.1.trans (trans_of_step hs)
  exact ⟨hv, heq.trans hu.2⟩

/-! ## One handler -/

/-- The task of the `Cancel` in which the caller is, once the request is set. -/
def CallerPc.cancels : CallerPc → Option ℕ
  | .cancelTest id | .cancelWaiting id => some id
  | _ => none

/-- `Cancel` finds the task in a stop state only when the thread is not between `CheckCancellation()` and
    `SetState(RUNNING)` in `Run` of the task. -/
def Settled (s : ScheduledThreadPool) : Act → Prop
  | .caller c _ _ => ∀ id ∈ (s.callers c).cancels, (s.tasks id).base.state.stopped →
      (s.handlers 0).pc ≠ .running id .setRunning
  | _ => True

instance (s : ScheduledThreadPool) : ∀ a, Decidable (Settled s a)
  | .caller .. => inferInstanceAs (Decidable (∀ id ∈ _, _ → _))
  | .handler .. | .handlerCloser .. | .closer _ | .add .. | .addHandler .. | .shutDown .. | .shutDownHandler ..
  | .cancel .. => isTrue trivial

/-- The calls of `Cancel`, and the tasks for which one has returned. -/
structure Cancelling (s : ScheduledThreadPool) : Prop where
  requested : ∀ c id, (s.callers c).cancels = some id → (s.tasks id).base.isRequestCancel = true
  running : ∀ id, (s.handlers 0).pc = .running id .doRun → (s.tasks id).base.state = .running
  quiet : ∀ id ∈ s.cancelled, Quiet 1 s id

theorem Cancelling.create : Cancelling .create where
  requested c id hc := by cases hc
  running id hpc := by cases hpc
  quiet id hid := by cases hid

theorem HandlerPc.of_notify {pc : HandlerPc} {p : RunPc} (hpc : pc.notify = .running id p) : pc = .running id p := by
  cases pc <;> first | exact hpc | cases hpc

/-- The thread is inside `DoRun` of a task only while the task is in the state `RUNNING`. -/
theorem running_of_trans (h : (s.handlers 0).pc = .running id .doRun → (s.tasks id).base.state = .running)
    (ht : Trans 1 s a t) (hpc : (t.handlers 0).pc = .running id .doRun) : (t.tasks id).base.state = .running := by
  rcases ht.beside with ⟨i, now, e, rfl⟩ | hb
  · cases ht with
    | @handler i now e h' ts' hi hs =>
      obtain rfl : i = 0 := by omega
      have hpc : (Function.update s.handlers 0 h' 0).pc = .running id .doRun := hpc
      rw [Function.update_self] at hpc
      rcases (handlerTrans_of_next hs).run_cases id with ⟨-, hno⟩ | ⟨pc, r, -, hrun, hr⟩
      · exact absurd (by rw [hpc]; exact ⟨rfl, trivial⟩) hno
      · rw [hpc] at hr
        rw [RunNext.handlerPc_doRun hr.symm] at hrun
        exact hrun.running
  · rw [(hb.kept id).state]
    rcases hb.pc 0 with heq | heq
    · exact h (heq.symm.trans hpc)
    · exact h (HandlerPc.of_notify (heq.symm.trans hpc))

/-- A caller waits for a task whose cancellation has been requested. -/
theorem requested_of_trans (h : ∀ c id, (s.callers c).cancels = some id → (s.tasks id).base.isRequestCancel = true)
    (ht : Trans n s a t) {c : ℕ} (hc : (t.callers c).cancels = some id) :
    (t.tasks id).base.isRequestCancel = true := by
  have hkeep : (s.callers c).cancels = some id → (t.tasks id).base.isRequestCancel = true :=
    fun hc => ht.requested (h c id hc)
  cases ht with
  | handler | handlerCloser | setStop | skip | enter | leave | setShutDown => exact hkeep hc
  | @cancelStore d now spurious i hd =>
    by_cases hi : i = id
    · subst hi
      show (Function.update s.tasks i _ i).base.isRequestCancel = true
      rw [Function.update_self]
      rfl
    · refine hkeep (update_callers (fun hp => ?_) hc)
      exact absurd (Option.some.inj hp) hi
  | cancelWait hd =>
    refine hkeep (update_callers (fun hp => ?_) hc)
    rcases hd with hd | hd <;> exact (congrArg CallerPc.cancels hd).trans hp
  | addDeadline hd hpc =>
    refine hkeep (update_callers (fun hp => ?_) hc)
    rcases hpc with rfl | ⟨interval, rfl⟩ <;> cases hp
  | _ => exact hkeep (update_callers (fun hp => by cases hp) hc)

theorem Cancelling.trans (h : Cancelling s) (ha : Settled s a) (ht : Trans 1 s a t) : Cancelling t := by
  refine ⟨fun c id => requested_of_trans h.requested ht, fun id => running_of_trans (h.running id) ht,
    fun id hid => ?_⟩
  by_cases hold : id ∈ s.cancelled
  · exact ((h.quiet id hold).trans ht).1
  · have hall := ht
    cases ht with
    | @cancelReturn c now spurious i hc hst =>
      obtain rfl : id = i := (List.mem_cons.1 hid).resolve_right hold
      have hcan : (s.callers c).cancels = some id := by
        rcases hc with hc | hc <;> rw [hc] <;> rfl
      have hq : Quiet 1 s id := by
        refine ⟨h.requested c id hcan, fun i hi hin => ?_⟩
        obtain rfl : i = 0 := by omega
        cases hpc : (s.handlers 0).pc with
        | running i pc =>
          rw [hpc] at hin
          obtain ⟨rfl, hin⟩ := hin
          cases pc with
          | setRunning => exact ha i hcan hst hpc
          | doRun =>
            rw [h.running i hpc] at hst
            exact hst
          | checkCancellation | setFinished | setCancelled | notify => exact hin
        | _ =>
          rw [hpc] at hin
          exact hin
      exact (hq.trans hall).1
    | _ => exact absurd hid hold

/-! ## Runs -/

/-- `DoRun` of the task is not being executed, and is not entered any more. -/
def Silent (n : ℕ) (s : ScheduledThreadPool) (id : ℕ) : Prop :=
  ∀ bs t, Run (step n) Free s bs t → ∀ i < n, (t.handlers i).pc ≠ .running id .doRun ∧
    (t.tasks id).base.doRuns = (s.tasks id).base.doRuns

theorem Quiet.silent (hq : Quiet n s id) : Silent n s id := by
  intro bs t hrun i hi
  obtain ⟨ht, hruns⟩ := quiet_run hq hrun
  exact ⟨fun hpc => ht.out i hi (by rw [hpc]; exact ⟨rfl, trivial⟩), hruns⟩

theorem cancelling_preserved : Preserved (step 1) Settled Cancelling :=
  fun _ _ _ h ha hs => h.trans ha (trans_of_step hs)

theorem cancel_quiet {as : List Act} (h : Run (step 1) Settled .create as s) :
    ∀ id ∈ s.cancelled, Silent 1 s id :=
  fun id hid => ((h.invariant cancelling_preserved .create).quiet id hid).silent

/-- A cycle task is cancelled between two firings. -/
theorem cancel_quiet_fired : ∃ s, Run (step 1) Settled .create
    ([.addHandler 0 0 7 (.cycle 1 true)] ++ List.replicate 6 (.caller 0 5 false) ++
      List.replicate 18 (.handler 0 5 .returns) ++
      [.cancel 1 7, .caller 1 5 false, .caller 1 5 false]) s ∧
    (s.tasks 7).base.doRuns = 1 ∧ Silent 1 s 7 := by
  refine exists_run (I := fun s => (s.tasks 7).base.doRuns = 1 ∧ 7 ∈ s.cancelled) (by decide +kernel)
    fun s hrun ⟨hruns, hmem⟩ => ⟨hruns, ?_⟩
  exact cancel_quiet hrun 7 hmem

/-- The task has been fired once, and is about to be run again when `Cancel` looks at its state. -/
theorem run_after_cancel : ¬ ∀ (as : List Act) (s : ScheduledThreadPool), Run (step 1) Free .create as s →
    ∀ id ∈ s.cancelled, Silent 1 s id := by
  intro hall
  obtain ⟨s, hrun, hmem, hlater⟩ : ∃ s, Run (step 1) Free .create
      ([.addHandler 0 0 7 (.cycle 1 true)] ++ List.replicate 6 (.caller 0 5 false) ++
        List.replicate 18 (.handler 0 5 .returns) ++ List.replicate 13 (.handler 0 9 .returns) ++
        [.cancel 1 7, .caller 1 9 false, .caller 1 9 false]) s ∧ 7 ∈ s.cancelled ∧
      ∃ t ∈ exec (step 1) Free s [.handler 0 9 .returns], (t.handlers 0).pc = .running 7 .doRun :=
    exists_run (by decide +kernel) fun _ _ h => h
  obtain ⟨t, hrun', hpc⟩ := exists_run hlater fun _ _ h => h
  exact (hall _ s hrun 7 hmem _ t hrun' 0 Nat.one_pos).1 hpc

end ScheduledThreadPool

end Empool
