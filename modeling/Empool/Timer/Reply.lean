/-
  A `Cancel` of a task that is due returns.

  `Cancel` waits for a stop state, and the thread of the handler looks at the
  request only while the task is the first of its queue.  When the clock has
  passed the deadline, the thread takes the task from the queue
  (`taken_of_clock`), brings it to a stop state at the end of `Run`
  (`leadsTo_stopped`), and notifies the callers that wait (`leadsTo_notified`).
  So every `Cancel` of a task in a queue returns, unless the handler is shut
  down (`due_cancel_returns`).
-/
import Empool.Timer.Terminate

namespace Empool

open Lts Heap TaskBase

variable {h h' : Handler} {ts ts' : Tasks} {id : ℕ}

/-! ## The thread on its way through `Run` -/

/-- The thread has taken the task from its place to run it, and has not executed the last `SetState` of `Run`. -/
def HandlerPc.atRun (id : ℕ) (pc : HandlerPc) : Prop := pc = .popMinAndPush (.task id) ∨ pc.serves id

theorem HandlerPc.nears.atRun {pc : HandlerPc} (hn : pc.nears id) : pc.atRun id := by
  cases pc with
  | popMinAndPush task =>
    cases task with
    | task i => exact .inl (congrArg (fun i => HandlerPc.popMinAndPush (.task i)) hn)
    | endTask => exact hn.elim
  | fire task =>
    cases task with
    | task i => exact .inr hn
    | endTask => exact hn.elim
  | running i pc =>
    cases pc with
    | checkCancellation | setRunning => exact .inr ⟨hn, RunPc.noConfusion⟩
    | _ => exact hn.elim
  | _ => exact hn.elim

theorem HandlerPc.atRun_notify {pc : HandlerPc} (hat : pc.atRun id) : pc.notify.atRun id := by
  rcases hat with rfl | hs
  · exact .inl rfl
  · exact .inr (HandlerPc.serves_notify.2 hs)

theorem TaskBase.RunTrans.stopped {b b' : TaskBase} {pc : RunPc} {r : RunNext} (hr : RunTrans b pc b' r)
    (hst : b.state.stopped) (hout : ¬ pc.inRun) : b'.state.stopped := by
  cases hr with
  | setRunning => exact absurd trivial hout
  | setFinished | setCancelled => trivial
  | cancelled | clear | returns | cancelException | otherException | notifyAll | notifyNone => exact hst

theorem TaskBase.RunTrans.waits {b b' : TaskBase} {pc : RunPc} {r : RunNext} {c : ℕ} (hr : RunTrans b pc b' r)
    (hc : c ∈ b'.cancelCondition) : c ∈ b.cancelCondition := by
  cases hr with
  | notifyAll => cases hc
  | _ => exact hc

theorem TaskBase.mem_cancelTest {b : TaskBase} {c d : ℕ} (hc : c ∈ (b.cancelTest d).cancelCondition) :
    c ∈ b.cancelCondition ∨ c = d := by
  unfold cancelTest at hc
  split_ifs at hc
  · exact .inl (List.mem_of_mem_erase hc)
  · exact (List.mem_cons.1 hc).symm.imp_left List.mem_of_mem_erase

/-- The thread brings the task to a stop state, or comes nearer to it. -/
theorem HandlerTrans.atRun (ht : HandlerTrans h ts h' ts') (hat : h.pc.atRun id) (hesc : h'.pc ≠ .escaped) :
    (h'.pc = .running id .notify ∧ (ts' id).base.state.stopped) ∨ (h'.pc.atRun id ∧ h'.pc.togo < h.pc.togo) := by
  rcases hat with hpc | hs
  · cases ht with
    | popMinAndPush hp =>
      cases hpc.symm.trans hp
      rw [hp]
      exact .inr ⟨.inr rfl, Nat.lt_succ_self _⟩
    | leave hp | empty hp | nonempty hp =>
      rw [hpc] at hp
      exact hp.elim
    | _ hp => cases hpc.symm.trans hp
  · cases ht with
    | @fire i hp =>
      rw [hp] at hs ⊢
      exact .inr ⟨.inr ⟨hs, RunPc.noConfusion⟩, Nat.lt_succ_self _⟩
    | @run i pc pc' e b hp hrun =>
      rw [hp] at hs ⊢
      obtain ⟨rfl, -⟩ := hs
      obtain ⟨hlt, hstop⟩ := (runTrans_of_run hrun).togo
      by_cases hnt : pc' = .notify
      · subst hnt
        refine .inl ⟨rfl, ?_⟩
        rw [Function.update_self]
        exact hstop rfl
      · exact .inr ⟨.inr ⟨rfl, hnt⟩, Nat.add_lt_add_left hlt 24⟩
    | @runReturn i pc e b hp hrun =>
      rw [hp] at hs
      exact absurd (runTrans_of_run hrun).at_notify hs.2
    | runThrow => exact absurd rfl hesc
    | stop hp =>
      rw [hp] at hs
      exact hs.elim
    | leave hp | empty hp | nonempty hp =>
      cases hpc : h.pc <;> rw [hpc] at hp hs <;> first | exact hp.elim | exact hs.elim
    | _ hp =>
      rw [hp] at hs
      exact hs.elim

namespace ScheduledThreadPool

variable {n i c : ℕ} {s t : ScheduledThreadPool} {a : Act}

/-! ## Who is notified -/

/-- A thread is at the `ConditionNotifyAllLocker` of `Run` of the task. -/
def Notifies (s : ScheduledThreadPool) (id : ℕ) : Prop := ∃ i, (s.handlers i).pc = .running id .notify

/-- The callers that wait in `Cancel` of the task. -/
structure Replying (s : ScheduledThreadPool) (id : ℕ) : Prop where
  live : Live s id
  heard : (s.tasks id).base.Heard (s.Notifies id)
  requested : ∀ c id, (s.callers c).cancels = some id → (s.tasks id).base.isRequestCancel = true

theorem Replying.create : Replying .create id where
  live := .create
  heard c hc := by cases hc
  requested _ _ hc := by cases hc

/-- The thread that is about to notify stays there, if it does not take the step. -/
theorem Notifies.trans (hn : s.Notifies id) (ht : Trans n s a t)
    (hno : ∀ i now e, a = .handler i now e → (s.handlers i).pc ≠ .running id .notify) : t.Notifies id := by
  obtain ⟨i, hpc⟩ := hn
  refine ⟨i, ?_⟩
  cases ht.view i with
  | own hi hact hs => exact absurd hpc (hno i _ _ hact)
  | keep hact heq => exact heq.trans hpc
  | push ptr hfree heq =>
    rw [heq, hpc]
    rfl

/-- The thread that notifies leaves nobody behind. -/
theorem notify_of_trans {now : TimeValue} {e : DoRunEnd} (ht : Trans n s (.handler i now e) t)
    (hpc : (s.handlers i).pc = .running id .notify) : (t.tasks id).base.cancelCondition =
      if (s.tasks id).base.isRequestCancel then [] else (s.tasks id).base.cancelCondition := by
  have hs := ht.own
  simp only [Handler.next, hpc, Handler.runNext, run, Option.map_some, Option.some.injEq, Prod.mk.injEq] at hs
  rw [← hs.2, Function.update_self]

theorem heard_trans (h : Replying s id) (ht : Trans n s a t) : (t.tasks id).base.Heard (t.Notifies id) := by
  by_cases hact : ∃ i now e, a = .handler i now e
  · obtain ⟨i, now, e, rfl⟩ := hact
    by_cases hpc : (s.handlers i).pc = .running id .notify
    · intro c hc
      rw [notify_of_trans ht hpc] at hc
      split_ifs at hc with hreq
      · cases hc
      · exact absurd (h.heard c hc).1 hreq
    · have hn : s.Notifies id → t.Notifies id := fun hn => hn.trans ht fun j now' e' heq => by
        cases heq
        exact hpc
      rcases (handlerTrans_of_next ht.own).run_cases id with ⟨heq, -⟩ | ⟨pc, r, hrun, hr, hnext⟩
      · rw [heq]
        exact h.heard.imp hn
      · refine h.heard.run hr (fun hold => .inl (hn hold)) ?_
        rintro rfl
        exact ⟨i, hnext⟩
  · have hn : s.Notifies id → t.Notifies id := fun hn => hn.trans ht fun j now e heq => absurd ⟨j, now, e, heq⟩ hact
    have hkeep : (s.tasks id).base.Heard (t.Notifies id) := h.heard.imp hn
    have hset : ∀ {j : ℕ} {task : TimerTask}, (j = id → task.base.Heard (t.Notifies id)) →
        (Function.update s.tasks j task id).base.Heard (t.Notifies id) := fun hj =>
      update_of (P := fun task : TimerTask => task.base.Heard (t.Notifies id)) (fun heq => hj heq.symm) fun _ => hkeep
    cases ht with
    | handler => exact absurd ⟨_, _, _, rfl⟩ hact
    | addDeadline | addInterval =>
      refine hset ?_
      rintro rfl
      exact hkeep
    | cancelStore =>
      refine hset ?_
      rintro rfl
      exact fun c hc => ⟨rfl, (hkeep c hc).2⟩
    | @cancelReturn c now sp j hc | @cancelWait c now sp j hc =>
      refine hset ?_
      rintro rfl
      refine TaskBase.Heard.cancelTest hkeep (h.requested c _ ?_)
      rcases hc with hc | hc <;> rw [hc] <;> rfl
    | _ => exact hkeep

theorem Replying.trans (h : Replying s id) (ha : Proper s a) (ht : Trans n s a t) : Replying t id where
  live := h.live.trans ha.1 ha.2.1 ht
  heard := heard_trans h ht
  requested _ _ := requested_of_trans h.requested ht

theorem replying_preserved : Preserved (step n) Proper (Replying · id) :=
  fun _ _ _ h ha hs => h.trans ha (trans_of_step hs)

/-! ## The task has come to its stop state -/

/-- The cancellation has been requested, the task is in a stop state, and stays there. -/
structure Over (n id : ℕ) (s : ScheduledThreadPool) : Prop where
  quiet : Quiet n s id
  stopped : (s.tasks id).base.state.stopped

theorem Over.trans (h : Over n id s) (ht : Trans n s a t) : Over n id t := by
  refine ⟨(h.quiet.trans ht).1, ?_⟩
  rcases ht.beside with ⟨i, now, e, rfl⟩ | hb
  · have hi : i < n := by
      cases ht
      assumption
    rcases (handlerTrans_of_next ht.own).run_cases id with ⟨heq, -⟩ | ⟨pc, r, hpc, hr, -⟩
    · rw [heq]
      exact h.stopped
    · refine hr.stopped h.stopped fun hin => h.quiet.out i hi ?_
      rw [hpc]
      exact ⟨rfl, hin⟩
  · rw [(hb.kept id).state]
    exact h.stopped

/-- The thread of the handler that has the task is not inside `Run`, but for the end of it. -/
theorem Live.over (h : Live s id) (hacc : id ∈ (s.handlers i).accepted) (hno : ¬ (s.handlers i).pc.inRun id)
    (hreq : (s.tasks id).base.isRequestCancel = true) (hst : (s.tasks id).base.state.stopped) : Over n id s := by
  refine ⟨⟨hreq, fun j _ hin => ?_⟩, hst⟩
  by_cases hji : j = i
  · exact hno (hji ▸ hin)
  · cases hpc : (s.handlers j).pc with
    | running k pc =>
      rw [hpc] at hin
      obtain ⟨rfl, -⟩ := hin
      exact h.not_running hacc hji pc hpc
    | _ =>
      rw [hpc] at hin
      exact hin

/-- The statements of the caller `c` in `Cancel`; the end of its wait counts only if it has been notified. -/
def CancelActs (c : ℕ) : ScheduledThreadPool → Act → Prop
  | s, .caller d _ _ => d = c ∧ ∀ id, ¬ s.Blocked c id
  | _, _ => False

/-- A `Cancel` goes on, or returns; it returns if the task is in a stop state. -/
theorem cancels_trans (hc : (s.callers c).cancels = some id) (ht : Trans n s a t) : t.callers c = .idle ∨
    (t.callers c).cancels = some id ∧
      ((∃ now sp, a = .caller c now sp) → ¬ (s.tasks id).base.state.stopped) := by
  by_cases hact : ∃ now sp, a = .caller c now sp
  · obtain ⟨now, sp, rfl⟩ := hact
    cases ht with
    | cancelReturn => exact .inl (Function.update_self ..)
    | @cancelWait _ _ _ j hd hst =>
      obtain rfl : j = id := by
        rcases hd with hd | hd <;> rw [hd] at hc <;> exact Option.some.inj hc
      refine .inr ⟨?_, fun _ => hst⟩
      show (Function.update s.callers c (.cancelWaiting j) c).cancels = some j
      rw [Function.update_self]
      rfl
    | refuse hd | load hd | addIndex hd | addNow hd | addClose hd | addClosed hd | addTest hd | addKnown hd
    | addDeadline hd | addInterval hd | addPush hd | win hd | lose hd | resume hd | handlerWin hd | handlerLose hd
    | handlerResume hd | cancelStore hd =>
      rw [hd] at hc
      cases hc
  · refine .inr ⟨?_, fun h => absurd h hact⟩
    rw [caller_kept (fun hidle => ?_) (fun now sp ha => hact ⟨now, sp, ha⟩) ht]
    · exact hc
    · rw [hidle] at hc
      cases hc

/-- A caller begins to wait by a step of its own. -/
theorem waits_of_trans (hc : c ∈ (t.tasks id).base.cancelCondition) (ht : Trans n s a t) :
    c ∈ (s.tasks id).base.cancelCondition ∨ ∃ now sp, a = .caller c now sp := by
  have hset : ∀ {j : ℕ} {task : TimerTask}, c ∈ (Function.update s.tasks j task id).base.cancelCondition →
      (j = id → c ∈ task.base.cancelCondition → c ∈ (s.tasks j).base.cancelCondition ∨ ∃ now sp, a = .caller c now sp) →
      c ∈ (s.tasks id).base.cancelCondition ∨ ∃ now sp, a = .caller c now sp := by
    intro j task hmem hj
    by_cases hid : j = id
    · subst hid
      rw [Function.update_self] at hmem
      exact hj rfl hmem
    · rw [Function.update_of_ne (Ne.symm hid)] at hmem
      exact .inl hmem
  cases ht with
  | handler hi hs =>
    rcases (handlerTrans_of_next hs).run_cases id with ⟨heq, -⟩ | ⟨pc, r, -, hr, -⟩
    · exact .inl (heq ▸ hc)
    · exact .inl (hr.waits hc)
  | addDeadline | addInterval | cancelStore => exact hset hc fun _ hmem => .inl hmem
  | @cancelReturn d now sp j | @cancelWait d now sp j =>
    refine hset hc fun _ hmem => ?_
    exact (TaskBase.mem_cancelTest hmem).imp_right fun hcd => ⟨now, sp, by rw [hcd]⟩
  | _ => exact .inl hc

/-- The caller is in `Cancel` of a task that has come to the handler. -/
def Awaiting (i c id : ℕ) (s : ScheduledThreadPool) : Prop :=
  (s.callers c).cancels = some id ∧ id ∈ (s.handlers i).accepted

theorem Awaiting.trans (h : Awaiting i c id s) (ht : Trans n s a t) : t.callers c = .idle ∨ Awaiting i c id t :=
  (cancels_trans h.1 ht).imp_right fun hc => ⟨hc.1, accepted_of_move (handler_move ht i) h.2⟩

/-- The thread that is to notify the caller is that of the handler. -/
theorem Replying.notifies (h : Replying s id) (hover : Over n id s) (hw : Awaiting i c id s)
    (hc : c ∈ (s.tasks id).base.cancelCondition) : (s.handlers i).pc = .running id .notify := by
  obtain ⟨j, hpc⟩ := (h.heard c hc).2 hover.stopped
  by_cases hji : j = i
  · exact hji ▸ hpc
  · exact absurd hpc (h.live.not_running hw.2 hji .notify)

section
variable {p : Path (step n) Proper} (hi : i < n) (hfair : p.Fair (HandlerActs i)) (hV : ∀ k, Replying (p.state k) id)
include hV

section
include hi hfair

/-- The thread executes `Run` to its last `SetState`. -/
theorem leadsTo_stopped : p.LeadsTo
    (fun s => (s.handlers i).pc.atRun id ∧ (s.tasks id).base.isRequestCancel = true) (Over n id) := by
  refine hfair.leadsTo (V := fun s => Replying s id) hV (fun s => (s.handlers i).pc.togo)
    (fun s a t h ⟨hat, hreq⟩ ha hs => ?_) fun s h ⟨hat, _⟩ => .inr ?_
  · have ht := trans_of_step hs
    have hreq' := ht.requested hreq
    have h' := h.live.trans ha.1 ha.2.1 ht
    by_cases hact : ∃ now e, a = .handler i now e
    · obtain ⟨now, e, rfl⟩ := hact
      rcases (handlerTrans_of_next ht.own).atRun hat (h'.inside i) with ⟨hpc, hst⟩ | ⟨hat', hlt⟩
      · refine .inl (h'.over (h'.carried i (by rw [hpc]; rfl)) (fun hin => ?_) hreq' hst)
        rw [hpc] at hin
        exact hin.2
      · exact .inr ⟨⟨hat', hreq'⟩, Nat.le_of_lt hlt, fun _ => hlt⟩
    · obtain ⟨hat', htogo⟩ := ht.pc_other (R := HandlerPc.atRun id) HandlerPc.atRun_notify hact hat
      exact .inr ⟨⟨hat', hreq'⟩, Nat.le_of_eq htogo, fun hown => absurd (handlerActs_iff.1 hown).1 hact⟩
  · have hne : ∀ {pc : HandlerPc}, pc ≠ .popMinAndPush (.task id) → ¬ pc.serves id → (s.handlers i).pc ≠ pc :=
      fun hpc hs heq => (heq ▸ hat).elim hpc hs
    refine can_handler hi (fun _ _ => hne HandlerPc.noConfusion not_false) (hne HandlerPc.noConfusion not_false)
      (h.live.inside i) (fun hpc => absurd hpc ?_) (hne HandlerPc.noConfusion not_false)
    exact hne HandlerPc.noConfusion not_false

/-- The thread notifies a caller that waits for a task in a stop state. -/
theorem leadsTo_notified : p.LeadsTo (fun s => Over n id s ∧ Awaiting i c id s)
    fun s => s.callers c = .idle ∨ (Over n id s ∧ Awaiting i c id s ∧ c ∉ (s.tasks id).base.cancelCondition) := by
  refine hfair.leadsTo (V := fun s => Replying s id) hV (fun _ => 0) (fun s a t h ⟨hover, hw⟩ ha hs => ?_)
    fun s h ⟨hover, hw⟩ => ?_
  · have ht := trans_of_step hs
    have hover' := hover.trans ht
    rcases hw.trans ht with hidle | hw'
    · exact .inl (.inl hidle)
    by_cases hmem : c ∈ (t.tasks id).base.cancelCondition
    · refine .inr ⟨⟨hover', hw'⟩, Nat.le_refl 0, fun hown => ?_⟩
      obtain ⟨⟨now, e, rfl⟩, -⟩ := handlerActs_iff.1 hown
      have hwait : c ∈ (s.tasks id).base.cancelCondition :=
        (waits_of_trans hmem ht).resolve_right fun ⟨_, _, heq⟩ => by cases heq
      rw [notify_of_trans ht (h.notifies hover hw hwait), if_pos hover.quiet.requested] at hmem
      cases hmem
    · exact .inl (.inr ⟨hover', hw', hmem⟩)
  · by_cases hmem : c ∈ (s.tasks id).base.cancelCondition
    · have hpc := h.notifies hover hw hmem
      right
      apply can_handler hi <;> rw [hpc] <;> simp
    · exact .inl (.inr ⟨hover, hw, hmem⟩)

end

/-- A caller that does not wait for a signal finds the stop state. -/
theorem leadsTo_returns (hcancel : p.Fair (CancelActs c)) :
    p.LeadsTo (fun s => Over n id s ∧ Awaiting i c id s ∧ c ∉ (s.tasks id).base.cancelCondition)
      fun s => s.callers c = .idle := by
  refine hcancel.leadsTo (V := fun s => Replying s id) hV (fun _ => 0) (fun s a t h ⟨hover, hw, hno⟩ ha hs => ?_)
    fun s h ⟨hover, hw, hno⟩ => ?_
  · have ht := trans_of_step hs
    have hstep := cancels_trans hw.1 ht
    rcases hw.trans ht with hidle | hw'
    · exact .inl hidle
    by_cases hact : ∃ now sp, a = .caller c now sp
    · exact hstep.imp_right fun hc => absurd hover.stopped (hc.2 hact)
    · refine .inr ⟨⟨hover.trans ht, hw', fun hmem => ?_⟩, Nat.le_refl 0, fun hown => absurd ?_ hact⟩
      · exact hno ((waits_of_trans hmem ht).resolve_right hact)
      · cases a with
        | caller d now sp => exact ⟨now, sp, by rw [hown.1]⟩
        | _ => exact hown.elim
  · right
    obtain ⟨hc, -⟩ := hw
    have hfree : ∀ j, ¬ s.Blocked c j := by
      rintro j ⟨hpc, hmem⟩
      rw [hpc] at hc
      obtain rfl : j = id := Option.some.inj hc
      exact hno hmem
    refine ⟨.caller c 0 false, s.cancelWait c id, ⟨rfl, hfree⟩, ?_⟩
    show s.callerNext n c 0 false = some _
    unfold callerNext
    cases hpc : s.callers c <;> rw [hpc] at hc <;> cases hc <;> rfl

end

/-- **A `Cancel` of a task that is due returns**: if the clock passes the deadline of a task that is in the queue, and
    the thread of the handler and the caller take their steps, then a `Cancel` of the task returns, unless somebody
    asks to shut the handler down. -/
theorem due_cancel_returns {k : ℕ} {p : Path (step n) Proper} (h₀ : p.state 0 = .create) (hi : i < n)
    (hfair : p.Fair (HandlerActs i)) (hcancel : p.Fair (CancelActs c))
    (hc : ((p.state k).callers c).cancels = some id) (hmem : .task id ∈ ((p.state k).handlers i).queue)
    (hclock : ∃ k₀, ∀ m, k₀ ≤ m → ∀ a, p.act m = some a → Passed ((p.state k).tasks id).deadline a) :
    ∃ m, k ≤ m ∧ ((p.state m).callers c = .idle ∨ ((p.state m).handlers i).isRequestShutDown = true) := by
  have hV : ∀ k, Replying (p.state k) id := Path.invariant replying_preserved (h₀ ▸ .create)
  have hL : ∀ k, Live (p.state k) id := fun k => (hV k).live
  have hw : Awaiting i c id (p.state k) := ⟨hc, (hL k).placed.mem_accepted hmem⟩
  -- from a stop state on
  have hreturns : p.LeadsTo (fun s => Over n id s ∧ Awaiting i c id s) fun s => s.callers c = .idle :=
    (leadsTo_notified hi hfair hV).trans ((Path.leadsTo_of_imp fun _ h => h).or (leadsTo_returns hV hcancel))
  -- until the task comes to its stop state, the caller waits
  have hstopped := (leadsTo_stopped hi hfair hV).keeping (V := fun s => Replying s id) (K := Awaiting i c id)
    (L := fun s => s.callers c = .idle) hV fun s a t _ hw _ hs => hw.trans (trans_of_step hs)
  obtain ⟨m, hkm, htaken⟩ := taken_of_clock hL hi hfair hmem hclock
  have hkept := Path.kept (V := fun s => Replying s id) (I := Awaiting i c id) (J := fun s => s.callers c = .idle)
    (f := fun _ => 0) hV (fun s a t _ hw _ hs =>
      (hw.trans (trans_of_step hs)).imp_right fun h => ⟨h, Nat.le_refl 0⟩) hw hkm
  rcases hkept with ⟨m', hkm', hidle⟩ | ⟨hw', -⟩
  · exact ⟨m', hkm', .inl hidle⟩
  have hreq := (hV m).requested c id hw'.1
  rcases htaken with ⟨hst, hpc⟩ | hn | hshut
  · have hover : Over n id (p.state m) := by
      refine (hL m).over hw'.2 (fun hin => ?_) hreq (by rw [hst]; trivial)
      rw [hpc] at hin
      exact hin
    obtain ⟨m', hmm', hidle⟩ := hreturns m ⟨hover, hw'⟩
    exact ⟨m', Nat.le_trans hkm hmm', .inl hidle⟩
  · obtain ⟨m', hmm', hm'⟩ :=
      hstopped.trans ((Path.leadsTo_of_imp fun _ h => h).or hreturns) m ⟨⟨hn.atRun, hreq⟩, hw'⟩
    exact ⟨m', Nat.le_trans hkm hmm', .inl hm'⟩
  · exact ⟨m, hkm, .inr hshut⟩

/-- The caller waits for a task that the thread has put into its queue, and is notified. -/
theorem due_cancel_returns_cron : ∃ p : Path (step 1) Proper, p.state 0 = .create ∧
    (p.state 17).Blocked 1 7 ∧
    ∃ m, 17 ≤ m ∧ ((p.state m).callers 1 = .idle ∨ ((p.state m).handlers 0).isRequestShutDown = true) := by
  obtain ⟨t, ht, ⟨hmem, hb⟩, u, hu, hwait, hidle⟩ : ∃ t, Run (step 1) Proper .create
      ([.addHandler 0 0 7 (.cron 3)] ++ List.replicate 5 (.caller 0 5 false) ++
        List.replicate 8 (.handler 0 6 .returns) ++ [.cancel 1 7, .caller 1 6 false, .caller 1 6 false]) t ∧
      (.task 7 ∈ (t.handlers 0).queue ∧ t.Blocked 1 7) ∧
      ∃ u ∈ exec (step 1) Proper t (List.replicate 17 (.handler 0 9 .returns) ++ [.caller 1 9 false]),
        (u.handlers 0).pc = .wait false ∧ u.callers 1 = .idle := exists_run (by decide +kernel) fun _ _ h => h
  obtain ⟨p, h₀, hmid, hend⟩ := ht.exists_path (run_of_exec hu)
  have hmem' : .task 7 ∈ ((p.state 17).handlers 0).queue := hmid ▸ hmem
  have hb' : (p.state 17).Blocked 1 7 := hmid ▸ hb
  have hcan : ((p.state 17).callers 1).cancels = some 7 := congrArg CallerPc.cancels hb'.1
  refine ⟨p, h₀, hb', due_cancel_returns h₀ Nat.one_pos (Path.fair_of_rest hend ?_) (Path.fair_of_rest hend ?_) hcan
    hmem' ⟨35, ?_⟩⟩
  · rintro ⟨a, v, hown, -⟩
    exact (handlerActs_iff.1 hown).2 hwait
  · rintro ⟨a, v, hown, hs⟩
    cases a with
    | caller d now sp =>
      obtain ⟨rfl, -⟩ := hown
      simp [step, callerNext, hidle] at hs
    | _ => exact hown
  · intro m hm a hact
    rw [(hend m hm).2] at hact
    cases hact

end ScheduledThreadPool

end Empool
