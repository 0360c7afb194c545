/-
  For whom the callers wait in `Cancel` of a task of a handler.

  The thread leaves its work function by the close flag or by the
  `EndTimerTask`, and lets the rest of the queue be: the tasks in it are neither
  run nor stopped, and a caller that cancels one of them waits for nobody.
  Nobody waits so if the thread leaves no accepted task behind, and no task
  throws (`cancel_served`).
-/
import Empool.Task.Wait
import Empool.Timer.Cancel
import Empool.Timer.Closing
import Empool.Timer.Order

namespace Empool

open Lts Heap TaskBase

variable {h h' : Handler} {ts ts' : Tasks} {id : ℕ}

/-- The bases of the tasks. -/
def Tasks.bases (ts : Tasks) : ℕ → TaskBase := fun id => (ts id).base

theorem bases_update {i : ℕ} {task : TimerTask} :
    Tasks.bases (Function.update ts i task) = Function.update ts.bases i task.base := by
  funext j
  exact Function.apply_update (fun _ => TimerTask.base) ts i task j

theorem bases_update_of_base {i : ℕ} {task : TimerTask} (hb : task.base = (ts i).base) :
    Tasks.bases (Function.update ts i task) = ts.bases := by
  rw [bases_update, hb]
  exact Function.update_eq_self i ts.bases

/-! ## The thread -/

/-- The thread has popped the task to run it, and has not executed the last `SetState` of `Run`. -/
def HandlerPc.serves (id : ℕ) : HandlerPc → Prop
  | .fire (.task i) => i = id
  | .running i pc => i = id ∧ pc ≠ .notify
  | _ => False

/-- The thread has ended. -/
def Handler.Ended (h : Handler) : Prop := h.pc = .ended ∨ h.pc = .escaped

instance (h : Handler) : Decidable h.Ended := inferInstanceAs (Decidable (_ ∨ _))

/-- Somebody has still to run the task. -/
def Handler.pending (h : Handler) (id : ℕ) : Prop := .task id ∈ h.queue ∨ h.pc.serves id

/-- A signal moves the thread at most from a wait to its end. -/
theorem HandlerPc.notify_eq {pc q : HandlerPc} (hw : ∀ b, q ≠ .wait b) (ht : ∀ now d b, q ≠ .timedWait now d b) :
    pc.notify = q ↔ pc = q := by
  cases pc with
  | wait b => exact ⟨fun hq => absurd hq.symm (hw _), fun hq => absurd hq.symm (hw _)⟩
  | timedWait now d b => exact ⟨fun hq => absurd hq.symm (ht _ _ _), fun hq => absurd hq.symm (ht _ _ _)⟩
  | _ => exact Iff.rfl

theorem HandlerPc.serves_notify {pc : HandlerPc} : pc.notify.serves id ↔ pc.serves id := by
  cases pc <;> exact Iff.rfl

/-- What the thread owes to the callers that wait. -/
structure Serves (h : Handler) (ts : Tasks) : Prop where
  front : Fronted h
  woken : Woken ts.bases fun id => h.pc = .running id .notify
  provided : Provided ts.bases (· ∈ h.acceptedBefore) h.pending
  dropped : ∀ id, h.pc = .popMin (.task id) false → (ts id).base.state.stopped
  ended : h.pc.left → ∀ id ∈ h.acceptedBefore, (ts id).base.state.stopped
  asked : .endTask ∈ h.queue ∨ h.pc = .fire .endTask ∨ h.pc.left → h.isRequestShutDown = true
  inside : h.pc ≠ .escaped

theorem Serves.create : Serves .create fun _ => .create where
  front _ hs := by cases hs
  woken id c hc := by cases hc
  provided id hacc := by cases hacc
  dropped id hpc := by cases hpc
  ended hl := hl.elim
  asked h := by
    rcases h with hmem | hpc | hl
    · cases hmem
    · cases hpc
    · exact hl.elim
  inside hpc := by cases hpc

/-- The thread leaves no accepted task behind. -/
def Handler.Clears (h : Handler) (ts : Tasks) : Prop :=
  (h.pc.checks ∧ h.isRequestClose = true) ∨ h.pc = .fire .endTask →
    ∀ id ∈ h.acceptedBefore, .task id ∈ h.queue → (ts id).base.state.stopped

instance (h : Handler) (ts : Tasks) : Decidable (h.Clears ts) :=
  inferInstanceAs (Decidable (_ ∧ _ ∨ _ → ∀ id ∈ h.acceptedBefore, _ → _))

/-- The thread moves, outside of `Run`, and leaves the queue. -/
theorem Serves.goto (hs : Serves h ts) {pc : HandlerPc} (hfront : Fronted (h.goto pc))
    (hout : ∀ id, ¬ h.pc.serves id ∧ h.pc ≠ .running id .notify)
    (hdrop : ∀ id, pc = .popMin (.task id) false → (ts id).base.state.stopped)
    (hleft : ¬ pc.left) (hend : pc ≠ .fire .endTask) : Serves (h.goto pc) ts where
  front := hfront
  woken := hs.woken.imp fun id hpc => absurd hpc (hout id).2
  provided := hs.provided.imp fun id hp => hp.imp (fun hmem => hmem) fun hv => absurd hv (hout id).1
  dropped := hdrop
  ended hl := absurd hl hleft
  asked hor := by
    rcases hor with hmem | hpc | hl
    · exact hs.asked (.inl hmem)
    · exact absurd hpc hend
    · exact absurd hl hleft
  inside hpc := hleft (by rw [show pc = .escaped from hpc]; trivial)

theorem Serves.leave (hs : Serves h ts) (hclears : h.Clears ts) (hreq : h.isRequestShutDown = true)
    (hpc : (h.pc.checks ∧ h.isRequestClose = true) ∨ h.pc = .fire .endTask) : Serves (h.goto .finish) ts := by
  have hout : ∀ id, ¬ h.pc.serves id ∧ h.pc ≠ .running id .notify := by
    intro id
    rcases hpc with ⟨hpc, -⟩ | hpc
    · cases hp : h.pc <;> rw [hp] at hpc <;> first | exact ⟨not_false, by simp⟩ | cases hpc
    · rw [hpc]
      exact ⟨not_false, by simp⟩
  refine ⟨fun u hu => (by cases hu), hs.woken.imp fun id hpc => absurd hpc (hout id).2,
    hs.provided.imp fun id hp => hp.imp (fun hmem => hmem) fun hv => absurd hv (hout id).1,
    fun id hpc => (by cases hpc), fun _ id hacc => ?_, fun _ => hreq, fun hpc => by cases hpc⟩
  by_contra hst
  rcases hs.provided id hacc hst with hmem | hv
  · exact hst (hclears hpc id hacc hmem)
  · exact (hout id).1 hv

/-- The thread is past its work function. -/
theorem Serves.past (hs : Serves h ts) (hl : h.pc.left) {pc : HandlerPc} (hpc : pc = .notifyFinished ∨ pc = .ended)
    (hp : h'.pc = pc) (hacc : h'.acceptedBefore = h.acceptedBefore)
    (hreq : h'.isRequestShutDown = h.isRequestShutDown) : Serves h' ts := by
  have hout : ∀ id, ¬ h.pc.serves id ∧ h.pc ≠ .running id .notify := by
    intro id
    cases hp : h.pc <;> rw [hp] at hl <;> first | exact ⟨not_false, by simp⟩ | cases hl
  have hold := hs.ended hl
  subst hp
  refine ⟨fun u hu => ?_, hs.woken.imp fun id hpc => absurd hpc (hout id).2, fun id hid hst => ?_,
    fun id hd => ?_, fun _ id hid => hold id (hacc ▸ hid), fun _ => hreq.trans (hs.asked (.inr (.inr hl))), ?_⟩
  · rcases hpc with hpc | hpc <;> rw [hpc] at hu <;> cases hu
  · exact absurd (hold id (hacc ▸ hid)) hst
  · rcases hpc with hpc | hpc <;> rw [hpc] at hd <;> cases hd
  · rcases hpc with hpc | hpc <;> rw [hpc] <;> exact fun hc => by cases hc

theorem Serves.run (hs : Serves h ts) {i : ℕ} {p : RunPc} {b : TaskBase} {r : RunNext}
    (hpc : h.pc = .running i p) (hr : RunTrans (ts i).base p b r) (hnt : r ≠ .thrown) :
    Serves (h.goto (r.handlerPc i)) (Function.update ts i { ts i with base := b }) := by
  have hbases : Tasks.bases (Function.update ts i { ts i with base := b }) = Function.update ts.bases i b :=
    bases_update
  have hleft : ¬ (r.handlerPc i).left := by
    cases r <;> first | exact not_false | exact absurd rfl hnt
  refine ⟨?_, ?_, ?_, fun id hd => ?_, fun hl => absurd hl hleft, fun hor => ?_, fun hc => ?_⟩
  · intro u hu
    cases r <;> cases hu
  · rw [hbases]
    refine hs.woken.run hr (fun id hid => .inr ?_) fun hgo => ?_
    · rw [hpc] at hid
      obtain ⟨rfl, rfl⟩ := HandlerPc.running.inj hid
      exact ⟨rfl, rfl⟩
    · rw [hgo]
      rfl
  · rw [hbases]
    refine hs.provided.run hr hnt (fun id hid hp => ?_) fun hp hgo => .inr ?_
    · refine hp.imp (fun hmem => hmem) fun hv => ?_
      rw [hpc] at hv
      rcases hid with hid | hid
      · exact absurd hv.1.symm hid
      · exact absurd hid hv.2
    · cases r with
      | goto pc => exact ⟨rfl, fun heq => hgo (heq ▸ rfl)⟩
      | thrown => exact absurd rfl hnt
      | returned => cases hr <;> exact absurd rfl hp
  · cases r <;> cases hd
  · rcases hor with hmem | hf | hl
    · exact hs.asked (.inl hmem)
    · cases r <;> cases hf
    · exact absurd hl hleft
  · rw [show r.handlerPc i = .escaped from hc] at hleft
    exact hleft trivial

/-- The thread pops a task, and has it if somebody has still to run it. -/
theorem Serves.pop (hs : Serves h ts) (task : TimerPtr)
    (hframe : h'.isRequestShutDown = h.isRequestShutDown ∧ h'.acceptedBefore = h.acceptedBefore)
    (hout : ¬ h.pc.left ∧ ∀ id, ¬ h.pc.serves id ∧ h.pc ≠ .running id .notify)
    (hpc : h'.pc = .lock ∨ h'.pc = .fire task) (hfront : Fronted h')
    (hq : ∀ ptr, ptr ∈ h'.queue → ptr ∈ h.queue)
    (hkeep : ∀ id ∈ h.acceptedBefore, ¬ (ts id).base.state.stopped → .task id ∈ h.queue → h'.pending id)
    (hend : h'.pc = .fire .endTask → .endTask ∈ h.queue) : Serves h' ts := by
  have hleft : ¬ h'.pc.left := by
    rcases hpc with hpc | hpc <;> rw [hpc] <;> exact fun hl => hl
  refine ⟨hfront, hs.woken.imp fun id hn => absurd hn (hout.2 id).2, fun id hacc hst => ?_, fun id hd => ?_,
    fun hl => absurd hl hleft, fun hor => hframe.1.trans ?_, fun hc => hleft (by rw [hc]; trivial)⟩
  · have hacc : id ∈ h.acceptedBefore := hframe.2 ▸ hacc
    exact (hs.provided id hacc hst).elim (hkeep id hacc hst) fun hv => absurd hv (hout.2 id).1
  · rcases hpc with hpc | hpc <;> rw [hpc] at hd <;> cases hd
  · rcases hor with hmem | hf | hl
    · exact hs.asked (.inl (hq _ hmem))
    · exact hs.asked (.inl (hend hf))
    · exact absurd hl hleft

/-- At a pop the thread serves nobody. -/
theorem HandlerPc.serves_none_of_pops {pc : HandlerPc} {task : TimerPtr}
    (hpc : pc = .popMinAndPush task ∨ ∃ fired, pc = .popMin task fired) :
    ¬ pc.left ∧ ∀ id, ¬ pc.serves id ∧ pc ≠ .running id .notify := by
  rcases hpc with rfl | ⟨fired, rfl⟩ <;> exact ⟨not_false, fun _ => ⟨not_false, by simp⟩⟩

theorem Serves.popMinAndPush (hs : Serves h ts) {task : TimerPtr} (hpc : h.pc = .popMinAndPush task)
    (hfront : Fronted ((h.popMinAndPush ts).goto (.fire task)))
    (hframe : (h.popMinAndPush ts).isRequestShutDown = h.isRequestShutDown ∧
      (h.popMinAndPush ts).acceptedBefore = h.acceptedBefore) :
    Serves ((h.popMinAndPush ts).goto (.fire task)) ts := by
  have htop : top h.queue = some task := hs.front task (by rw [hpc]; rfl)
  refine hs.pop task hframe (HandlerPc.serves_none_of_pops (.inl hpc)) (.inr rfl) hfront
    (fun ptr => (mem_popMinAndPush htop ptr).1) (fun id _ _ hmem => .inl ((mem_popMinAndPush htop _).2 hmem)) ?_
  intro hend
  rw [HandlerPc.fire.inj hend] at htop
  exact List.mem_of_mem_head? htop

theorem Serves.popMin (hs : Serves h ts) {task : TimerPtr} {fired : Bool} (hpc : h.pc = .popMin task fired)
    (hfront : Fronted ((h.popMin ts).goto (if fired then .fire task else .lock)))
    (hframe : (h.popMin ts).isRequestShutDown = h.isRequestShutDown ∧
      (h.popMin ts).acceptedBefore = h.acceptedBefore) :
    Serves ((h.popMin ts).goto (if fired then .fire task else .lock)) ts := by
  have htop : top h.queue = some task := hs.front task (by rw [hpc]; rfl)
  refine hs.pop task hframe (HandlerPc.serves_none_of_pops (.inr ⟨fired, hpc⟩)) ?_ hfront
    (fun ptr => (mem_popMin htop).1) (fun id hacc hst hmem => ?_) fun hend => ?_
  · cases fired
    · exact .inl rfl
    · exact .inr rfl
  · refine ((mem_popMin htop).2 hmem).symm.imp (fun hin => hin) ?_
    rintro rfl
    cases fired with
    | true => exact rfl
    | false => exact absurd (hs.dropped id hpc) hst
  · cases fired with
    | true =>
      rw [HandlerPc.fire.inj hend] at htop
      exact List.mem_of_mem_head? htop
    | false => cases hend

/-- The thread begins to run the task it has selected. -/
theorem Serves.fire (hs : Serves h ts) {i : ℕ} (hpc : h.pc = .fire (.task i)) (hfront : Fronted (h.startRun i)) :
    Serves (h.startRun i) ts := by
  refine ⟨hfront, hs.woken.imp fun id hn => ?_, hs.provided.imp fun id hp => hp.imp (fun hm => hm) fun hv => ?_,
    fun id hd => (by cases hd), fun hl => hl.elim, fun hor => ?_, fun hc => by cases hc⟩
  · rw [hpc] at hn
    cases hn
  · rw [hpc] at hv
    exact ⟨hv, by simp⟩
  · rcases hor with hmem | hf | hl
    · exact hs.asked (.inl hmem)
    · cases hf
    · exact hl.elim

theorem Serves.trans (hs : Serves h ts) (hsound : ScheduledThreadPool.HandlerSound h) (hclears : h.Clears ts)
    (ht : HandlerTrans h ts h' ts') (hesc : h'.pc ≠ .escaped) : Serves h' ts' := by
  have hfront := hs.front.trans ht
  have hframe : h'.isRequestShutDown = h.isRequestShutDown ∧ h'.acceptedBefore = h.acceptedBefore :=
    ⟨ht.frame.1, ht.frame.2.2.2.1⟩
  have hgo : ∀ {pc pc' : HandlerPc}, h.pc = pc → Fronted (h.goto pc') →
      (∀ id, ¬ pc.serves id ∧ pc ≠ .running id .notify) → (∀ id, pc' ≠ .popMin (.task id) false) →
      ¬ pc'.left → pc' ≠ .fire .endTask → Serves (h.goto pc') ts :=
    fun hpc hf hout hdrop => hs.goto hf (hpc ▸ hout) fun id hd => absurd hd (hdrop id)
  cases ht with
  | leave hpc hcl =>
    have hreq : h.isRequestShutDown = true := by
      cases hf : h.isRequestShutDown with
      | true => rfl
      | false =>
        have hclosed := hsound.closed hcl
        rw [hsound.requested hf] at hclosed
        cases hclosed
    exact hs.leave hclears hreq (.inl ⟨hpc, hcl⟩)
  | stop hpc => exact hs.leave hclears (hs.asked (.inr (.inl hpc))) (.inr hpc)
  | finish hpc => exact hs.past (by rw [hpc]; trivial) (.inl rfl) rfl rfl rfl
  | notifyFinished hpc => exact hs.past (by rw [hpc]; trivial) (.inr rfl) rfl rfl rfl
  | empty hpc hq | nonempty hpc hq =>
    cases hp : h.pc <;> rw [hp] at hpc <;>
      first
      | exact hgo hp hfront (fun _ => ⟨not_false, by simp⟩) (by simp) not_false (by simp)
      | cases hpc
  | start hpc | wait hpc | check hpc | notDue hpc | timedWait hpc | getCurrentTime hpc | getDeadline hpc
  | notCancelled hpc | isRequestCancel hpc | due hpc | isIntervalTask hpc | noIntervalTask hpc | getInterval hpc =>
    exact hgo hpc hfront (fun _ => ⟨not_false, by simp⟩) (by simp) not_false (by simp)
  | @getMin task hpc htop =>
    have hg : Serves (h.goto (.getCurrentTime task)) ts :=
      hgo hpc hfront (fun _ => ⟨not_false, by simp⟩) (by simp) not_false (by simp)
    exact ⟨hfront, hg.woken, hg.provided, hg.dropped, hg.ended, hg.asked, hg.inside⟩
  | @isCancelled task now deadline hpc hst =>
    refine hs.goto hfront (fun id => ?_) (fun id hd => ?_) not_false (by simp)
    · rw [hpc]
      exact ⟨not_false, by simp⟩
    · obtain rfl : task = .task id := (HandlerPc.popMin.inj hd).1
      rw [show (ts id).base.state = .cancelled from hst]
      trivial
  | @setDeadline i now interval hpc =>
    have hg : Serves (h.goto (.popMinAndPush (.task i))) ts :=
      hgo hpc hfront (fun _ => ⟨not_false, by simp⟩) (by simp) not_false (by simp)
    have hb : Tasks.bases (Function.update ts i { ts i with deadline := now + interval }) = ts.bases :=
      bases_update_of_base rfl
    have hst : ∀ id, (Function.update ts i { ts i with deadline := now + interval } id).base = (ts id).base :=
      fun id => congrFun hb id
    exact ⟨hfront, hb ▸ hg.woken, hb ▸ hg.provided, fun id hd => hst id ▸ hg.dropped id hd,
      fun hl id hid => hst id ▸ hg.ended hl id hid, hg.asked, hg.inside⟩
  | popMinAndPush hpc => exact hs.popMinAndPush hpc hfront hframe
  | popMin hpc => exact hs.popMin hpc hfront hframe
  | fire hpc => exact hs.fire hpc hfront
  | run hpc hr => exact hs.run hpc (runTrans_of_run hr) (by simp)
  | runReturn hpc hr => exact hs.run hpc (runTrans_of_run hr) (by simp)
  | runThrow => exact absurd rfl hesc

theorem escaped_of_next {now : TimeValue} {e : DoRunEnd} (hs : h.next ts now e = some (h', ts'))
    (hpc : h'.pc = .escaped) : e = .otherException := by
  have ht := handlerTrans_of_next hs
  cases ht with
  | @runThrow id p _ b hrun =>
    simp only [Handler.next, hrun, Handler.runNext, Option.map_eq_some_iff, Prod.mk.injEq] at hs
    obtain ⟨⟨b', r⟩, hr, hpc', -⟩ := hs
    have hr' : r = .thrown := by
      have := congrArg Handler.pc hpc'
      cases r <;> first | rfl | cases this
    exact thrown_of_run (hr' ▸ hr)
  | @popMin task fired => cases fired <;> cases hpc
  | _ => cases hpc

/-! ## The callers -/

/-- The callers of the handler signal the thread, push, and set flags. -/
theorem Serves.beside (hs : Serves h ts) (hpc : h'.pc = h.pc ∨ (h'.pc = h.pc.notify ∧ h.pc.holds = false))
    (hfront : h'.pc = h.pc → Fronted h') (hq : ∀ ptr ∈ h.queue, ptr ∈ h'.queue)
    (hend : .endTask ∈ h'.queue → .endTask ∈ h.queue ∨ h.isRequestShutDown = true)
    (hacc : ∀ id ∈ h'.acceptedBefore, id ∈ h.acceptedBefore ∨
      (.task id ∈ h'.queue ∧ h.isRequestShutDown = false))
    (hflag : h.isRequestShutDown = true → h'.isRequestShutDown = true) : Serves h' ts := by
  have hsame : ∀ {q : HandlerPc}, (∀ b, q ≠ .wait b) → (∀ now d b, q ≠ .timedWait now d b) →
      h'.pc = q → h.pc = q := by
    intro q hw ht hq
    rcases hpc with heq | ⟨heq, -⟩
    · exact heq.symm.trans hq
    · exact (HandlerPc.notify_eq hw ht).1 (heq.symm.trans hq)
  have hleft : h'.pc.left → h.pc.left := by
    rcases hpc with heq | ⟨heq, -⟩ <;> rw [heq]
    · exact fun hl => hl
    · exact HandlerPc.left_notify.1
  refine ⟨?_, ?_, fun id hid hst => ?_, fun id hd => ?_, fun hl id hid => ?_, fun hor => ?_, fun hc => ?_⟩
  · rcases hpc with heq | ⟨heq, hfree⟩
    · exact hfront heq
    · intro u hu
      rw [heq] at hu
      exact absurd hu (HandlerPc.not_selected_of_free hfree)
  · refine hs.woken.imp fun id hn => ?_
    rcases hpc with heq | ⟨heq, -⟩ <;> rw [heq]
    · exact hn
    · exact (HandlerPc.notify_eq (by simp) (by simp)).2 hn
  · rcases hacc id hid with hold | ⟨hnew, -⟩
    · refine (hs.provided id hold hst).imp (hq _) fun hv => ?_
      rcases hpc with heq | ⟨heq, -⟩ <;> rw [heq]
      · exact hv
      · exact HandlerPc.serves_notify.2 hv
    · exact .inl hnew
  · exact hs.dropped id (hsame (by simp) (by simp) hd)
  · rcases hacc id hid with hold | ⟨-, hno⟩
    · exact hs.ended (hleft hl) id hold
    · exact absurd ((hs.asked (.inr (.inr (hleft hl)))).symm.trans hno) Bool.noConfusion
  · rcases hor with hmem | hf | hl
    · rcases hend hmem with hold | hreq
      · exact hflag (hs.asked (.inl hold))
      · exact hflag hreq
    · exact hflag (hs.asked (.inr (.inl (hsame (by simp) (by simp) hf))))
    · exact hflag (hs.asked (.inr (.inr (hleft hl))))
  · exact hs.inside (hsame (by simp) (by simp) hc)

theorem Serves.accept (hs : Serves h ts) (hfree : h.pc.holds = false) : Serves (h.accept ts id) ts := by
  refine hs.beside (.inr ⟨rfl, hfree⟩) (fun heq u hu => ?_) (fun ptr hmem => mem_push.2 (.inr hmem))
    (fun hmem => .inl ?_) (fun i hi => ?_) fun hreq => hreq
  · exact absurd hu (HandlerPc.not_selected_of_free hfree)
  · exact (mem_push.1 hmem).resolve_left (by simp)
  · have hi : i ∈ if h.isRequestShutDown then h.acceptedBefore else id :: h.acceptedBefore := hi
    split_ifs at hi with hreq
    · exact .inl hi
    · rcases List.mem_cons.1 hi with rfl | hi
      · exact .inr ⟨mem_push.2 (.inl rfl), Bool.eq_false_iff.2 hreq⟩
      · exact .inl hi

theorem Serves.closer {sp : Bool} (hs : Serves h ts) (hsound : ScheduledThreadPool.HandlerSound h)
    (ht : HandlerCloserTrans h ts sp h') : Serves h' ts := by
  cases ht with
  | @pushEnd now sp hcl hfree =>
    refine hs.beside (.inr ⟨rfl, hfree⟩) (fun heq u hu => ?_) (fun ptr hmem => mem_push.2 (.inr hmem))
      (fun _ => .inr ?_) (fun i hi => .inl hi) fun hreq => hreq
    · exact absurd hu (HandlerPc.not_selected_of_free hfree)
    · cases hreq : h.isRequestShutDown with
      | true => rfl
      | false =>
        rw [hsound.requested hreq] at hcl
        cases hcl
  | closeFail | asyncClose | close | finished | wait =>
    exact hs.beside (.inl rfl) (fun _ => hs.front) (fun _ hmem => hmem) .inl (fun _ hi => .inl hi) fun hreq => hreq

/-- A caller writes to a task, and leaves its state. -/
theorem Serves.setTask (hs : Serves h ts) {i : ℕ} {task : TimerTask} (hst : task.base.state = (ts i).base.state)
    (hw : Woken (Function.update ts.bases i task.base) fun id => h.pc = .running id .notify) :
    Serves h (Function.update ts i task) := by
  have hstate : ∀ id, (Function.update ts i task id).base.state = (ts id).base.state :=
    apply_update_of_eq (f := fun task : TimerTask => task.base.state) hst
  refine ⟨hs.front, bases_update ▸ hw, bases_update ▸ hs.provided.update hst, fun id hd => ?_, fun hl id hid => ?_,
    hs.asked, hs.inside⟩
  · rw [hstate]
    exact hs.dropped id hd
  · rw [hstate]
    exact hs.ended hl id hid

theorem Serves.keepTask (hs : Serves h ts) {i : ℕ} {task : TimerTask} (hb : task.base = (ts i).base) :
    Serves h (Function.update ts i task) := by
  refine hs.setTask (congrArg TaskBase.state hb) ?_
  rw [hb, show Function.update ts.bases i (ts i).base = ts.bases from Function.update_eq_self i ts.bases]
  exact hs.woken

/-! ## Steps -/

namespace ScheduledThreadPool

variable {s t : ScheduledThreadPool} {a : Act}

/-- The thread leaves no accepted task behind, and no task throws. -/
def Cleared (s : ScheduledThreadPool) : Act → Prop
  | .handler i _ e => e ≠ .otherException ∧ (s.handlers i).Clears s.tasks
  | _ => True

instance (s : ScheduledThreadPool) : ∀ a, Decidable (Cleared s a)
  | .handler _ _ _ => inferInstanceAs (Decidable (_ ∧ _))
  | .handlerCloser .. | .closer _ | .caller .. | .add .. | .addHandler .. | .shutDown .. | .shutDownHandler ..
  | .cancel .. => isTrue trivial

/-- The handler 0 and the callers. -/
structure Serving (s : ScheduledThreadPool) : Prop where
  sound : HandlerSound (s.handlers 0)
  serves : Serves (s.handlers 0) s.tasks
  requested : ∀ c id, (s.callers c).cancels = some id → (s.tasks id).base.isRequestCancel = true

theorem Serving.create : Serving .create where
  sound := handlerSound_create
  serves := .create
  requested c id hc := by cases hc

theorem serves_setHandler {i : ℕ} (hs : Serves (s.handlers 0) s.tasks)
    (hi : i = 0 → Serves (s.handlers 0) s.tasks → Serves h s.tasks) :
    Serves ((s.setHandler i h).handlers 0) s.tasks :=
  update_of (P := (Serves · s.tasks)) (fun h0 => hi h0.symm hs) fun _ => hs

theorem Serving.trans (h : Serving s) (ha : Cleared s a) (ht : Trans 1 s a t) : Serving t := by
  refine ⟨h.sound.move (handler_move ht 0), ?_, fun c id => requested_of_trans h.requested ht⟩
  cases ht with
  | @handler i now e h' ts' hi hs =>
    obtain rfl : i = 0 := by omega
    show Serves (Function.update s.handlers 0 h' 0) ts'
    rw [Function.update_self]
    exact h.serves.trans h.sound ha.2 (handlerTrans_of_next hs) fun hpc => ha.1 (escaped_of_next hs hpc)
  | @handlerCloser i sp h' hc =>
    refine serves_setHandler h.serves ?_
    rintro rfl hs
    exact hs.closer h.sound hc
  | @enter now i hcl hf =>
    refine serves_setHandler h.serves ?_
    rintro rfl hs
    exact hs.beside (.inl rfl) (fun _ => hs.front) (fun _ hmem => hmem) .inl (fun _ hi => .inl hi) fun _ => rfl
  | @handlerWin c now now' i hc hf =>
    refine serves_setHandler h.serves ?_
    rintro rfl hs
    exact hs.beside (.inl rfl) (fun _ => hs.front) (fun _ hmem => hmem) .inl (fun _ hi => .inl hi) fun _ => rfl
  | @addPush c now sp i id hc hfree =>
    refine serves_setHandler h.serves ?_
    rintro rfl hs
    exact hs.accept hfree
  | addDeadline | addInterval => exact h.serves.keepTask rfl
  | cancelStore hc => exact h.serves.setTask rfl h.serves.woken.cancelStore
  | @cancelReturn c now sp id hc hst | @cancelWait c now sp id hc hst =>
    refine h.serves.setTask (cancelTest_frame _ c).1 (h.serves.woken.cancelTest (h.requested c id ?_))
    rcases hc with hc | hc <;> rw [hc] <;> rfl
  | _ => exact h.serves

/-! ## Runs -/

/-- The caller waits in `Cancel` of the task, and has not been notified. -/
def Blocked (s : ScheduledThreadPool) (c id : ℕ) : Prop :=
  s.callers c = .cancelWaiting id ∧ c ∈ (s.tasks id).base.cancelCondition

instance (s : ScheduledThreadPool) (c id : ℕ) : Decidable (s.Blocked c id) := inferInstanceAs (Decidable (_ ∧ _))

theorem serving_preserved : Preserved (step 1) Cleared Serving :=
  fun _ _ _ h ha hs => h.trans ha (trans_of_step hs)

/-- A handler whose thread has ended has brought its accepted tasks to a stop state, and nobody waits
    for it. -/
theorem cancel_served {as : List Act} (h : Run (step 1) Cleared .create as s)
    (hend : (s.handlers 0).Ended) {id : ℕ} (hid : id ∈ (s.handlers 0).acceptedBefore) :
    (s.tasks id).base.state.stopped ∧ ∀ c, ¬ s.Blocked c id := by
  have hs : Serves (s.handlers 0) s.tasks := (h.invariant serving_preserved .create).serves
  have hleft : (s.handlers 0).pc.left := by
    rcases hend with hpc | hpc <;> rw [hpc] <;> trivial
  have hno : (s.handlers 0).pc ≠ .running id .notify := by
    rcases hend with hpc | hpc <;> rw [hpc] <;> simp
  have hstop := hs.ended hleft id hid
  exact ⟨hstop, fun c hb => hno ((hs.woken id c hb.2).2 hstop)⟩

end ScheduledThreadPool

end Empool
