/-
  Shutdown of a `ScheduledThreadPool` comes to its end.

  What a fair scheduler brings about, tasks that return provided: a handler whose
  shutdown is requested gets its `EndTimerTask` and its close flag, its thread
  ends, and its closing call returns (`leadsTo_closed`, `leadsTo_ended`,
  `leadsTo_over`); so the closing call of the pool returns, which waits for one
  handler after the other, the state is `SHUTDOWN` and all threads end
  (`timers_terminate`), and every add call and every closing call returns
  (`timer_calls_return`).

  Nothing is asked of the tasks' deadlines or of the clock: the thread leaves by
  the close flag if the `EndTimerTask` is not the first in its queue.
-/
import Empool.Timer.Due
import Empool.Timer.Stop

namespace Empool

open Lts Heap TaskBase

variable {h h' : Handler} {ts ts' : Tasks} {sp : Bool}

/-! ## The thread of a handler -/

/-- The thread keeps to the statements that there are for the `EndTimerTask`. -/
theorem HandlerTrans.endPath (ht : HandlerTrans h ts h' ts') (hpath : h.pc.endPath) : h'.pc.endPath := by
  cases ht with
  | @isCancelled task now deadline hpc hst =>
    cases task with
    | task id => trivial
    | endTask => cases hst
  | @isIntervalTask task now hpc hint =>
    cases task with
    | task id => trivial
    | endTask => cases hint
  | @getInterval task now hpc =>
    rw [hpc] at hpath
    cases task with
    | task id => trivial
    | endTask => exact hpath.elim
  | @isRequestCancel task now deadline hpc | @noIntervalTask task now hpc => cases task <;> trivial
  | @popMin task fired hpc => cases fired <;> trivial
  | _ => trivial

/-- The `EndTimerTask` stays in the queue until the thread pops it and leaves. -/
theorem HandlerTrans.ending (ht : HandlerTrans h ts h' ts') (hf : Fronted h) (hpath : h.pc.endPath)
    (hend : .endTask ∈ h.queue ∨ h.pc.stopping) : .endTask ∈ h'.queue ∨ h'.pc.stopping := by
  cases ht with
  | leave | stop | finish | notifyFinished | runThrow => exact .inr trivial
  | empty hpc hq | nonempty hpc hq =>
    refine hend.imp_right fun hst => ?_
    cases hp : h.pc <;> rw [hp] at hst hpc <;> first | exact hst.elim | exact hpc.elim
  | @popMinAndPush task hpc =>
    have htop := hf task (by rw [hpc]; rfl)
    refine hend.imp (mem_popMinAndPush htop _).2 fun hst => ?_
    rw [hpc] at hst
    exact hst.elim
  | @popMin task fired hpc =>
    have htop := hf task (by rw [hpc]; rfl)
    rw [hpc] at hend hpath
    rcases (mem_popMin htop).2 (hend.resolve_right id) with heq | hmem
    · subst heq
      cases fired with
      | true => exact .inr trivial
      | false => exact hpath.elim
    · exact .inl hmem
  | _ hpc =>
    refine hend.imp_right fun hst => ?_
    rw [hpc] at hst
    exact hst.elim

/-- What the thread has seen of its queue is so. -/
structure Seen (h : Handler) : Prop where
  nonempty : h.pc.nonempty → h.queue ≠ []
  empty : h.pc.foundEmpty → h.queue = []

theorem Seen.trans (hs : Seen h) (ht : HandlerTrans h ts h' ts') : Seen h' := by
  cases ht with
  | nonempty hpc hq => exact ⟨fun _ => hq, False.elim⟩
  | empty hpc hq => exact ⟨False.elim, fun _ => hq⟩
  | check hpc => exact ⟨fun _ => hs.nonempty (by rw [hpc]; trivial), False.elim⟩
  | wait hpc => exact ⟨False.elim, fun _ => hs.empty (by rw [hpc]; trivial)⟩
  | @popMin task fired hpc => cases fired <;> exact ⟨False.elim, False.elim⟩
  | _ => exact ⟨False.elim, False.elim⟩

/-- A push notifies the thread. -/
theorem Seen.push (hfree : h.pc.holds = false) (hpc : h'.pc = h.pc.notify) : Seen h' :=
  ⟨fun hn => absurd (hpc ▸ hn) (HandlerPc.free hfree).2.2, fun he => absurd (hpc ▸ he) (HandlerPc.free_notify hfree).1⟩

/-! ## The thread and the closing call -/

/-- The closing call has executed what it can, and hears of the end of the thread. -/
structure Heard (h : Handler) : Prop where
  requested : h.isRequestShutDown = true → h.closer ≠ .idle
  closed : h.closer.closed → h.isRequestClose = true
  after : h.closer.pushed → .endTask ∈ h.queue ∨ h.pc.stopping
  finished : h.pc = .notifyFinished ∨ h.pc = .ended → h.finished = true
  heard : h.pc = .ended → h.closer ≠ .waiting false

/-- What the thread does to the closing call: its last statement signals it. -/
theorem closer_of_next {now : TimeValue} {e : DoRunEnd} (hs : h.next ts now e = some (h', ts')) :
    (∃ b, h.closer = .waiting b ∧ h'.closer = .waiting (b || h.isRequestClose)) ∨
      h'.closer = h.closer ∧ (h.pc = .notifyFinished → ∀ b, h.closer ≠ .waiting b) := by
  by_cases hpc : h.pc = .notifyFinished
  · simp only [Handler.next, hpc, Option.some.injEq, Prod.mk.injEq] at hs
    rw [← hs.1]
    cases hc : h.closer with
    | waiting b => exact .inl ⟨b, rfl, rfl⟩
    | _ => exact .inr ⟨rfl, fun _ b hb => by cases hb⟩
  · refine .inr ⟨?_, fun h => absurd h hpc⟩
    cases handlerTrans_of_next hs with
    | notifyFinished hp => exact absurd hp hpc
    | popMin =>
      obtain ⟨queue, popped, heq⟩ := popMin_eq h ts
      rw [heq]
      rfl
    | popMinAndPush =>
      obtain ⟨queue, popped, pushed, heq⟩ := popMinAndPush_eq h ts
      rw [heq]
      rfl
    | _ => rfl

theorem finished_of_trans (ht : HandlerTrans h ts h' ts')
    (hfin : h.pc = .notifyFinished ∨ h.pc = .ended → h.finished = true)
    (hpc : h'.pc = .notifyFinished ∨ h'.pc = .ended) : h'.finished = true := by
  cases ht with
  | finish => rfl
  | notifyFinished hp => exact hfin (.inl hp)
  | @popMin task fired hp => cases fired <;> rcases hpc with hpc | hpc <;> cases hpc
  | _ => rcases hpc with hpc | hpc <;> cases hpc

theorem Heard.next {now : TimeValue} {e : DoRunEnd} (hh : Heard h) (hf : Fronted h) (hpath : h.pc.endPath)
    (hs : h.next ts now e = some (h', ts')) : Heard h' := by
  have ht := handlerTrans_of_next hs
  obtain ⟨hflag, hclose, -, -, -⟩ := ht.frame
  have hfin := finished_of_trans ht hh.finished
  have hend := ht.ending hf hpath
  rcases closer_of_next hs with ⟨b, hc, hc'⟩ | ⟨hc, hno⟩
  · have hcl := hh.closed (by rw [hc]; trivial)
    refine ⟨fun hr => by rw [hc']; exact nofun, fun _ => hclose.trans hcl,
      fun _ => hend (hh.after (by rw [hc]; trivial)), hfin, fun _ hw => ?_⟩
    rw [hc', hcl, Bool.or_true] at hw
    cases hw
  · refine ⟨fun hr => hc ▸ hh.requested (hflag ▸ hr), fun hcl => hclose.trans (hh.closed (hc ▸ hcl)),
      fun hp => hend (hh.after (hc ▸ hp)), hfin, fun hpc => ?_⟩
    rw [hc]
    cases ht with
    | notifyFinished hp => exact hno hp false
    | @popMin task fired hp => cases fired <;> cases hpc
    | _ => cases hpc

/-! ## One handler -/

/-- The thread of a handler, on its way to the end. -/
structure Handler.Live (h : Handler) : Prop where
  sound : ScheduledThreadPool.HandlerSound h
  front : Fronted h
  path : h.pc.endPath
  seen : Seen h
  heard : Heard h
  inside : h.pc ≠ .escaped

theorem Handler.Live.create : Handler.create.Live where
  sound := ScheduledThreadPool.handlerSound_create
  front _ hs := by cases hs
  path := trivial
  seen := ⟨False.elim, False.elim⟩
  heard := ⟨fun hr => (by cases hr), False.elim, False.elim, fun hpc => (by rcases hpc with hpc | hpc <;> cases hpc),
    fun hpc => (by cases hpc)⟩
  inside hpc := by cases hpc

/-- A push leaves the thread where it is, and notifies it. -/
theorem Heard.push (hh : Heard h) (ptr : TimerPtr) (hpc : h'.pc = h.pc.notify)
    (hmem : ∀ x, x ∈ h'.queue ↔ x = ptr ∨ x ∈ h.queue) (hflag : h'.isRequestShutDown = h.isRequestShutDown)
    (hclose : h'.isRequestClose = h.isRequestClose) (hfin : h'.finished = h.finished) (hc : h'.closer = h.closer) :
    Heard h' where
  requested hr := hc ▸ hh.requested (hflag ▸ hr)
  closed hcl := hclose ▸ hh.closed (hc ▸ hcl)
  after hp := (hh.after (hc ▸ hp)).imp (fun hend => (hmem _).2 (.inr hend)) fun hst =>
    hpc ▸ HandlerPc.notify_ending.2.1 hst
  finished hor := by
    rw [hpc, HandlerPc.notify_eq (by simp) (by simp), HandlerPc.notify_eq (by simp) (by simp)] at hor
    rw [hfin]
    exact hh.finished hor
  heard hend := by
    rw [hpc, HandlerPc.notify_eq (by simp) (by simp)] at hend
    rw [hc]
    exact hh.heard hend

/-- The closing call goes on. -/
theorem Heard.closer (hh : Heard h) (ht : HandlerCloserTrans h ts false h') : Heard h' := by
  have hend : ∀ {pc : HandlerPc}, pc.notify = .notifyFinished ∨ pc.notify = .ended →
      pc = .notifyFinished ∨ pc = .ended := fun h => by
    rwa [HandlerPc.notify_eq (by simp) (by simp), HandlerPc.notify_eq (by simp) (by simp)] at h
  cases ht with
  | pushEnd hcl =>
    exact ⟨fun _ => HandlerCloserPc.noConfusion, False.elim, fun _ => .inl (mem_push.2 (.inl rfl)),
      fun hpc => hh.finished (hend hpc), fun _ => HandlerCloserPc.noConfusion⟩
  | closeFail hcl hf =>
    have hclose : h.isRequestClose = true := hf.elim id fun hf => by cases hf
    exact ⟨fun _ => HandlerCloserPc.noConfusion, fun _ => hclose, fun _ => hh.after (by rw [hcl]; trivial), hh.finished,
      fun _ => HandlerCloserPc.noConfusion⟩
  | asyncClose hcl | close hcl =>
    exact ⟨fun _ => HandlerCloserPc.noConfusion, fun _ => rfl, fun _ => hh.after (by rw [hcl]; trivial), hh.finished,
      fun _ => HandlerCloserPc.noConfusion⟩
  | finished hcl hfin =>
    refine ⟨fun _ => HandlerCloserPc.noConfusion, fun _ => hh.closed ?_, fun _ => hh.after ?_, hh.finished,
      fun _ => HandlerCloserPc.noConfusion⟩
    · rcases hcl with hcl | ⟨b, hcl⟩ <;> rw [hcl] <;> trivial
    · rcases hcl with hcl | ⟨b, hcl⟩ <;> rw [hcl] <;> trivial
  | wait hcl hfin =>
    refine ⟨fun _ => HandlerCloserPc.noConfusion, fun _ => hh.closed ?_, fun _ => hh.after ?_, hh.finished,
      fun hpc => ?_⟩
    · rcases hcl with hcl | ⟨b, hcl⟩ <;> rw [hcl] <;> trivial
    · rcases hcl with hcl | ⟨b, hcl⟩ <;> rw [hcl] <;> trivial
    · exact absurd ((hh.finished (.inr hpc)).symm.trans hfin) Bool.noConfusion

theorem Handler.Live.move (hl : h.Live) (hm : ScheduledThreadPool.HandlerMove ts false h h') (hesc : h'.pc ≠ .escaped) :
    h'.Live := by
  have hsound := hl.sound.move hm
  have hfront := hl.front.move hm
  cases hm with
  | same => exact hl
  | next hn =>
    have ht := handlerTrans_of_next hn
    exact ⟨hsound, hfront, ht.endPath hl.path, hl.seen.trans ht, hl.heard.next hl.front hl.path hn, hesc⟩
  | request hf =>
    refine ⟨hsound, hfront, hl.path, ⟨hl.seen.nonempty, hl.seen.empty⟩, ?_, hesc⟩
    exact ⟨fun _ => HandlerCloserPc.noConfusion, False.elim, False.elim, hl.heard.finished,
      fun _ => HandlerCloserPc.noConfusion⟩
  | @accept id hfree =>
    refine ⟨hsound, hfront, HandlerPc.notify_ending.1 hl.path, .push hfree rfl, ?_, hesc⟩
    exact hl.heard.push (.task id) rfl (fun x => mem_push) rfl rfl rfl rfl
  | closer ht =>
    have hheard := hl.heard.closer ht
    cases ht with
    | pushEnd hcl hfree => exact ⟨hsound, hfront, HandlerPc.notify_ending.1 hl.path, .push hfree rfl, hheard, hesc⟩
    | closeFail | asyncClose | close | finished | wait =>
      exact ⟨hsound, hfront, hl.path, ⟨hl.seen.nonempty, hl.seen.empty⟩, hheard, hesc⟩

theorem HandlerCloserTrans.pushes (ht : HandlerCloserTrans h ts sp h') (hc : ∃ now, h.closer = .pushEnd now) :
    ∃ now, h'.closer = .close now := by
  obtain ⟨now, hc⟩ := hc
  cases ht with
  | pushEnd => exact ⟨_, rfl⟩
  | closeFail hcl | asyncClose hcl | close hcl => cases hc.symm.trans hcl
  | finished hcl | wait hcl => rcases hcl with hcl | ⟨b, hcl⟩ <;> cases hc.symm.trans hcl

theorem HandlerCloserTrans.closes (ht : HandlerCloserTrans h ts false h') (hc : ∃ now, h.closer = .close now) :
    h'.isRequestClose = true := by
  obtain ⟨now, hc⟩ := hc
  cases ht with
  | pushEnd hcl => cases hc.symm.trans hcl
  | closeFail hcl hf => exact hf.resolve_right Bool.noConfusion
  | asyncClose | close => rfl
  | finished hcl | wait hcl => rcases hcl with hcl | ⟨b, hcl⟩ <;> cases hc.symm.trans hcl

theorem HandlerCloserTrans.returns (ht : HandlerCloserTrans h ts sp h') (hcl : h.closer.closed)
    (hfin : h.finished = true) : h'.closer = .returned := by
  cases ht with
  | closeFail | asyncClose | finished => rfl
  | wait _ hno => exact absurd (hfin.symm.trans hno) Bool.noConfusion
  | pushEnd hc | close hc =>
    rw [hc] at hcl
    exact hcl.elim

theorem HandlerCloserTrans.not_returned (ht : HandlerCloserTrans h ts sp h') : h.closer ≠ .returned := by
  intro hret
  cases ht with
  | pushEnd hcl | closeFail hcl | asyncClose hcl | close hcl => cases hret.symm.trans hcl
  | finished hcl | wait hcl => rcases hcl with hcl | ⟨b, hcl⟩ <;> cases hret.symm.trans hcl

/-- The shutdown of the handler is over. -/
structure Handler.Over (h : Handler) : Prop where
  closer : h.closer = .returned
  pc : h.pc = .ended

theorem ScheduledThreadPool.HandlerMove.ended (hm : HandlerMove ts sp h h') (hpc : h.pc = .ended) : h'.pc = .ended := by
  cases hm with
  | same | request => exact hpc
  | next hn => simp [Handler.next, hpc] at hn
  | accept hfree =>
    show h.pc.notify = .ended
    rw [hpc]
    rfl
  | closer ht =>
    cases ht with
    | pushEnd =>
      show h.pc.notify = .ended
      rw [hpc]
      rfl
    | _ => exact hpc

theorem Handler.Over.move (ho : h.Over) (hl : h.Live) (hm : ScheduledThreadPool.HandlerMove ts sp h h') : h'.Over := by
  refine ⟨?_, hm.ended ho.pc⟩
  cases hm with
  | same | accept => exact ho.closer
  | next hn => simp [Handler.next, ho.pc] at hn
  | request hf =>
    have hreq := hl.sound.requested_of_closed (by simp [ho.closer])
    exact absurd (hreq.symm.trans hf) Bool.noConfusion
  | closer ht => exact absurd ho.closer ht.not_returned

/-! ## What is left to do for the thread -/

/-- The statements that are left, if the close flag is set. -/
def HandlerPc.leaves : HandlerPc → ℕ
  | .getMin => 20
  | .getCurrentTime _ => 19
  | .getDeadline _ _ => 18
  | .isCancelled _ _ _ => 17
  | .isRequestCancel _ _ _ => 16
  | .isIntervalTask _ _ => 15
  | .getInterval _ _ => 14
  | .setDeadline _ _ _ => 13
  | .popMinAndPush _ | .popMin _ _ => 12
  | .fire _ => 11
  | .running _ pc => 5 + pc.togo
  | .timedWait _ _ _ => 5
  | .lock | .wait _ => 4
  | .start | .check | .checkEmpty => 3
  | .finish => 2
  | .notifyFinished => 1
  | .ended | .escaped => 0

/-- The thread has a way to go before it unlocks the queue, if the check lets it pass. -/
def Handler.leaves (h : Handler) : ℕ := h.pc.leaves + if h.pc = .check ∧ h.isRequestClose = false then 18 else 0

theorem HandlerPc.leaves_notify (pc : HandlerPc) : pc.notify.leaves = pc.leaves := by
  cases pc <;> rfl

theorem Handler.leaves_of_ne (hpc : h.pc ≠ .check) : h.leaves = h.pc.leaves := by
  simp [leaves, hpc]

theorem HandlerPc.leaves_le (h : Handler) : h.pc.leaves ≤ h.leaves := Nat.le_add_right _ _

/-- With the close flag set, and with the queue locked, each statement brings the thread nearer to its end, or it
    unlocks the queue with the flag not set. -/
theorem HandlerTrans.leaves_lt (ht : HandlerTrans h ts h' ts') (hesc : h'.pc ≠ .escaped)
    (hor : h.pc.holds = true ∨ h.isRequestClose = true) :
    (h'.pc.holds = false ∧ h.isRequestClose = false) ∨ h'.leaves < h.leaves := by
  have hgo : ∀ {pc pc' : HandlerPc}, h.pc = pc → h'.pc = pc' → pc' ≠ .check → pc'.leaves < pc.leaves →
      h'.leaves < h.leaves := by
    rintro pc pc' rfl rfl hne hlt
    rw [Handler.leaves_of_ne hne]
    exact Nat.lt_of_lt_of_le hlt (HandlerPc.leaves_le h)
  have hclosed : ∀ {pc : HandlerPc}, h.pc = pc → pc.holds = false → h.isRequestClose = true := by
    rintro pc rfl hfree
    exact hor.resolve_left fun hh => absurd (hh.symm.trans hfree) Bool.noConfusion
  cases ht with
  | leave hpc hcl =>
    refine .inr ?_
    cases hp : h.pc <;> rw [hp] at hpc <;> first | exact hpc.elim | exact hgo hp rfl (by simp) (Nat.lt_succ_self 2)
  | start hpc hcl => exact absurd ((hclosed hpc rfl).symm.trans hcl) Bool.noConfusion
  | wait hpc hcl => exact .inl ⟨rfl, hcl⟩
  | check hpc hcl =>
    refine .inr ?_
    rw [Handler.leaves_of_ne (by simp)]
    simp [Handler.leaves, hpc, hcl, HandlerPc.leaves]
  | empty hpc | nonempty hpc =>
    refine .inr ?_
    cases hp : h.pc <;> rw [hp] at hpc <;> first
      | exact hpc.elim
      | simp [Handler.leaves, hp, hclosed hp rfl, HandlerPc.leaves, Handler.goto]
  | runThrow => exact absurd rfl hesc
  | getMin hpc | getCurrentTime hpc | getDeadline hpc | notCancelled hpc | due hpc | isIntervalTask hpc
  | getInterval hpc | setDeadline hpc | popMinAndPush hpc | timedWait hpc | fire hpc | finish hpc
  | notifyFinished hpc =>
    exact .inr (hgo hpc rfl (by simp) (Nat.lt_succ_self _))
  | isCancelled hpc | isRequestCancel hpc | noIntervalTask hpc | notDue hpc | stop hpc =>
    refine .inr (hgo hpc rfl (by simp) ?_)
    simp [HandlerPc.leaves]
  | @popMin task fired hpc =>
    cases fired with
    | true => exact .inr (hgo hpc rfl (by simp) (Nat.lt_succ_self _))
    | false => exact .inr (hgo hpc rfl (by simp) (by simp [HandlerPc.leaves]))
  | run hpc hrun | runReturn hpc hrun =>
    refine .inr (hgo hpc rfl (by simp) ?_)
    cases runTrans_of_run hrun <;> simp [HandlerPc.leaves, RunPc.togo]

/-- The other steps do not take the thread back. -/
theorem ScheduledThreadPool.HandlerMove.leaves_le (hm : HandlerMove ts sp h h') (hesc : h'.pc ≠ .escaped)
    (hor : h.pc.holds = true ∨ h.isRequestClose = true) :
    (h'.pc.holds = false ∧ h.isRequestClose = false) ∨ h'.leaves ≤ h.leaves := by
  have hpush : ∀ {h' : Handler}, h.pc.holds = false → h'.pc = h.pc.notify → h'.leaves ≤ h.leaves := by
    intro h' hfree hpc
    have hne : h'.pc ≠ .check := by
      rw [hpc]
      intro hc
      rw [HandlerPc.notify_eq (by simp) (by simp)] at hc
      rw [hc] at hfree
      cases hfree
    rw [Handler.leaves_of_ne hne, hpc, HandlerPc.leaves_notify]
    exact HandlerPc.leaves_le h
  have hflag : ∀ {h' : Handler}, h'.pc = h.pc → (h'.isRequestClose = false → h.isRequestClose = false) →
      h'.leaves ≤ h.leaves := by
    intro h' hpc hcl
    unfold Handler.leaves
    rw [hpc]
    split_ifs with h₁ h₂
    · exact Nat.le_refl _
    · exact absurd ⟨h₁.1, hcl h₁.2⟩ h₂
    · exact Nat.le_add_right _ _
    · exact Nat.le_refl _
  cases hm with
  | same | request => exact .inr (hflag rfl id)
  | next hn => exact ((handlerTrans_of_next hn).leaves_lt hesc hor).imp_right Nat.le_of_lt
  | accept hfree => exact .inr (hpush hfree rfl)
  | closer ht =>
    cases ht with
    | pushEnd _ hfree => exact .inr (hpush hfree rfl)
    | closeFail | finished | wait => exact .inr (hflag rfl id)
    | asyncClose | close => exact .inr (hflag rfl fun hf => by cases hf)

namespace ScheduledThreadPool

variable {n i c : ℕ} {s t : ScheduledThreadPool} {a : Act}

/-! ## What holds at all times -/

theorem Regular.spurious (ha : Regular s a) : a.spurious = false := by
  cases a with
  | handlerCloser | closer | caller => exact ha
  | handler | add | addHandler | shutDown | shutDownHandler | cancel => rfl

/-- The loop of `ShutDownHelper` is at a handler of the pool. -/
def CloserPc.inLoop (n : ℕ) : CloserPc → Prop
  | .cas i _ | .helper i _ => i < n
  | _ => True

theorem CloserPc.loop_cases (n i : ℕ) (now : Bool) :
    (i < n ∧ loop n i now = .cas i now) ∨ (n ≤ i ∧ loop n i now = .setShutDown now) := by
  unfold loop
  split_ifs with hi
  · exact .inl ⟨hi, rfl⟩
  · exact .inr ⟨Nat.le_of_not_lt hi, rfl⟩

/-- A call of a handler's method is about a handler of the pool, and a call that is in a closing sequence has
    begun it. -/
def CallerPc.inPool (n : ℕ) (s : ScheduledThreadPool) : CallerPc → Prop
  | .addNow i _ _ | .addClose i _ _ _ | .addTest i _ _ _ | .addDeadline i _ _ _ | .addInterval i _ _ | .addPush i _
  | .handlerCas i _ => i < n
  | .handlerClosing i => i < n ∧ (s.handlers i).isRequestShutDown = true
  | .closing _ => s.isRequestShutDown = true
  | _ => True

/-- The pool, on its way to the end. -/
structure Ready (n : ℕ) (s : ScheduledThreadPool) : Prop where
  handler : ∀ i, (s.handlers i).Live
  requested : s.isRequestShutDown = true ↔ s.closer ≠ .idle
  shut : s.closer = .returned → s.state = .shutDown
  inLoop : s.closer.inLoop n
  passed : ∀ i, s.closer.passed n i → (s.handlers i).isRequestShutDown = true
  helper : ∀ i now, s.closer = .helper i now → (s.handlers i).isRequestShutDown = true
  callers : ∀ c, (s.callers c).inPool n s

theorem Ready.create : Ready n .create where
  handler _ := .create
  requested := ⟨fun hf => (by cases hf), fun hne => absurd rfl hne⟩
  shut hc := by cases hc
  inLoop := trivial
  passed _ hc := hc.elim
  helper _ _ hc := by cases hc
  callers _ := trivial

theorem requested_trans (ht : Trans n s a t) (hf : s.isRequestShutDown = true) : t.isRequestShutDown = true := by
  cases ht with
  | win => rfl
  | _ => exact hf

theorem handler_requested_trans (ht : Trans n s a t) (hf : (s.handlers i).isRequestShutDown = true) :
    (t.handlers i).isRequestShutDown = true := HandlerMove.shutDown (handler_move ht i) hf

theorem CallerPc.inPool.trans {pc : CallerPc} (h : pc.inPool n s) (ht : Trans n s a t) : pc.inPool n t := by
  cases pc with
  | closing now => exact requested_trans ht h
  | handlerClosing i => exact ⟨h.1, handler_requested_trans ht h.2⟩
  | _ => exact h

theorem callers_inPool (h : ∀ c, (s.callers c).inPool n s) (hn : 0 < n) (ht : Trans n s a t) (c : ℕ) :
    (t.callers c).inPool n t := by
  have hkeep : (s.callers c).inPool n t := (h c).trans ht
  have hset : ∀ {d : ℕ} {pc : CallerPc}, pc.inPool n t → (Function.update s.callers d pc c).inPool n t := fun hpc =>
    update_of (P := fun pc : CallerPc => pc.inPool n t) (fun _ => hpc) fun _ => hkeep
  have hold : ∀ {d : ℕ} {pc : CallerPc}, s.callers d = pc → pc.inPool n s := fun hd => hd ▸ h _
  cases ht with
  | handler | handlerCloser | setStop | skip | enter | leave | setShutDown => exact hkeep
  | addIndex => exact hset (Nat.mod_lt _ hn)
  | addNow hd => exact hset (hold hd)
  | addClose hd => exact hset (hold hd)
  | addTest hd => exact hset (hold hd)
  | addDeadline hd hpc =>
    refine hset ?_
    rcases hpc with rfl | ⟨interval, rfl⟩ <;> exact hold hd
  | addInterval hd => exact hset (hold hd)
  | win => exact hset rfl
  | handlerWin hd hf =>
    refine hset ⟨hold hd, ?_⟩
    show (Function.update s.handlers _ _ _).isRequestShutDown = true
    rw [Function.update_self]
  | addHandler hd hi | shutDownHandler hd hi => exact hset hi
  | _ => exact hset trivial

/-- A step that leaves the pool's own fields as they are. -/
theorem Ready.quiet (h : Ready n s) (hhandler : ∀ i, (t.handlers i).Live) (hcallers : ∀ c, (t.callers c).inPool n t)
    (hshut : ∀ i, (s.handlers i).isRequestShutDown = true → (t.handlers i).isRequestShutDown = true)
    (hreq : t.isRequestShutDown = s.isRequestShutDown) (hcl : t.closer = s.closer) (hst : t.state = s.state) :
    Ready n t where
  handler := hhandler
  requested := by
    rw [hreq, hcl]
    exact h.requested
  shut hc := hst.trans (h.shut (hcl ▸ hc))
  inLoop := hcl ▸ h.inLoop
  passed i hi := hshut i (h.passed i (hcl ▸ hi))
  helper i now hi := hshut i (h.helper i now (hcl ▸ hi))
  callers := hcallers

/-- The loop goes on with the handler `i`. -/
theorem Ready.loop {now : Bool} (hhandler : ∀ i, (t.handlers i).Live) (hcallers : ∀ c, (t.callers c).inPool n t)
    (hreq : t.isRequestShutDown = true) (hpassed : ∀ j < i, (t.handlers j).isRequestShutDown = true)
    (hcl : t.closer = ScheduledThreadPool.loop n i now) : Ready n t := by
  rcases CloserPc.loop_cases n i now with ⟨hi, heq⟩ | ⟨hi, heq⟩
  · rw [heq] at hcl
    refine ⟨hhandler, by simp [hreq, hcl], by simp [hcl], hcl ▸ hi, fun j hj => hpassed j ?_, by simp [hcl], hcallers⟩
    rw [hcl] at hj
    exact hj
  · rw [heq] at hcl
    refine ⟨hhandler, by simp [hreq, hcl], by simp [hcl], hcl ▸ trivial, fun j hj => hpassed j ?_, by simp [hcl],
      hcallers⟩
    rw [hcl] at hj
    exact Nat.lt_of_lt_of_le hj hi

theorem Ready.trans (h : Ready n s) (hn : 0 < n) (ha : Regular s a) (ht : Trans n s a t) : Ready n t := by
  have hhandler : ∀ i, (t.handlers i).Live := fun i =>
    (h.handler i).move (ha.spurious ▸ handler_move ht i) (inside_trans (fun i => (h.handler i).inside) ha.noThrow ht i)
  have hcallers := callers_inPool h.callers hn ht
  have hshut : ∀ i, (s.handlers i).isRequestShutDown = true → (t.handlers i).isRequestShutDown = true :=
    fun i => handler_requested_trans ht
  cases ht with
  | setStop hcl =>
    exact .loop hhandler hcallers (h.requested.2 (by simp [hcl])) (fun j hj => absurd hj (Nat.not_lt_zero j)) rfl
  | skip hcl hf =>
    refine .loop hhandler hcallers (h.requested.2 (by simp [hcl])) (fun j hj => ?_) rfl
    rcases Nat.lt_succ_iff_lt_or_eq.1 hj with hj | rfl
    · exact h.passed j (hcl ▸ hj)
    · exact hf.resolve_right (by simp [show _ = false from ha])
  | leave hcl hret =>
    refine .loop hhandler hcallers (h.requested.2 (by simp [hcl])) (fun j hj => ?_) rfl
    rcases Nat.lt_succ_iff_lt_or_eq.1 hj with hj | rfl
    · exact h.passed j (hcl ▸ hj)
    · exact h.helper j _ hcl
  | @enter now i hcl hf =>
    refine ⟨hhandler, ⟨fun _ => CloserPc.noConfusion, fun _ => h.requested.2 (by simp [hcl])⟩, fun hc => (by cases hc),
      ?_, fun j hj => hshut j (h.passed j (hcl ▸ hj)), ?_, hcallers⟩
    · have hi := h.inLoop
      rwa [hcl] at hi
    · intro j now' hc
      cases hc
      show (Function.update s.handlers i _ i).isRequestShutDown = true
      rw [Function.update_self]
  | setShutDown hcl =>
    exact ⟨hhandler, ⟨fun _ => CloserPc.noConfusion, fun _ => h.requested.2 (by simp [hcl])⟩, fun _ => rfl, trivial,
      fun j hj => h.passed j (hcl ▸ hj), fun j now' hc => (by cases hc), hcallers⟩
  | win hc hf =>
    exact ⟨hhandler, ⟨fun _ => CloserPc.noConfusion, fun _ => rfl⟩, fun hc => (by cases hc), trivial,
      fun j hj => hj.elim, fun j now' hc => (by cases hc), hcallers⟩
  | _ => exact h.quiet hhandler hcallers hshut rfl rfl rfl

theorem ready_preserved (hn : 0 < n) : Preserved (step n) Regular (Ready n) :=
  fun _ _ _ h ha hs => h.trans hn ha (trans_of_step hs)

/-! ## The steps of a handler -/

/-- The next statement of the body of `ShutDownHelper` of the handler `i`; the end of its wait counts only if it
    has been notified. -/
def HandlerCloserActs (i : ℕ) : ScheduledThreadPool → Act → Prop
  | s, .handlerCloser j _ => j = i ∧ (s.handlers i).closer ≠ .waiting false
  | _, _ => False

theorem Ready.can_handler (h : Ready n s) (hi : i < n) (hend : (s.handlers i).pc ≠ .ended)
    (hw : (s.handlers i).pc ≠ .wait false) : Can (step n) (HandlerActs i) s := by
  have hl := h.handler i
  refine ScheduledThreadPool.can_handler hi (fun now interval hpc => ?_) hend hl.inside
    (fun hpc => hl.seen.nonempty (by rw [hpc]; trivial)) hw
  have hpath := hl.path
  rw [hpc] at hpath
  exact hpath

/-- With the close flag set the thread does not wait for a task: the `EndTimerTask` is there. -/
theorem Ready.not_wait (h : Ready n s) (hcl : (s.handlers i).isRequestClose = true) :
    (s.handlers i).pc ≠ .wait false := by
  intro hpc
  have hl := h.handler i
  have hnil := hl.seen.empty (by rw [hpc]; trivial)
  rcases hl.heard.after (hl.sound.closed hcl).pushed with hmem | hst
  · rw [hnil] at hmem
    cases hmem
  · rw [hpc] at hst
    exact hst

theorem Ready.leaves_le (h : Ready n s) (ha : Regular s a) (ht : Trans n s a t)
    (hor : (s.handlers i).pc.holds = true ∨ (s.handlers i).isRequestClose = true) :
    ((t.handlers i).pc.holds = false ∧ (s.handlers i).isRequestClose = false) ∨
      ((t.handlers i).leaves ≤ (s.handlers i).leaves ∧
        (HandlerActs i s a → (t.handlers i).leaves < (s.handlers i).leaves)) := by
  have hesc := inside_trans (fun i => (h.handler i).inside) ha.noThrow ht i
  by_cases hact : ∃ now e, a = .handler i now e
  · obtain ⟨now, e, rfl⟩ := hact
    exact ((handlerTrans_of_next ht.own).leaves_lt hesc hor).imp_right fun hlt => ⟨Nat.le_of_lt hlt, fun _ => hlt⟩
  · refine ((ha.spurious ▸ handler_move ht i : HandlerMove _ false _ _).leaves_le hesc hor).imp_right
      fun hle => ⟨hle, fun hown => absurd (handlerActs_iff.1 hown).1 hact⟩

/-- The body of `ShutDownHelper` of a handler is executed by its own steps; the thread signals it. -/
theorem handlerCloser_kept (ht : Trans n s a t) (hreq : (s.handlers i).isRequestShutDown = true)
    (hno : ∀ sp, a ≠ .handlerCloser i sp) : (t.handlers i).closer = (s.handlers i).closer ∨
      ∃ b b', (s.handlers i).closer = .waiting b ∧ (t.handlers i).closer = .waiting b' := by
  have hset : ∀ {j : ℕ} {h' : Handler}, (i = j → h'.closer = (s.handlers i).closer ∨
      ∃ b b', (s.handlers i).closer = .waiting b ∧ h'.closer = .waiting b') →
      (Function.update s.handlers j h' i).closer = (s.handlers i).closer ∨
      ∃ b b', (s.handlers i).closer = .waiting b ∧ (Function.update s.handlers j h' i).closer = .waiting b' :=
    fun hx => update_of (P := fun h' : Handler => h'.closer = (s.handlers i).closer ∨
      ∃ b b', (s.handlers i).closer = .waiting b ∧ h'.closer = .waiting b') hx fun _ => .inl rfl
  cases ht with
  | handler hj hs =>
    refine hset ?_
    rintro rfl
    exact (handlerTrans_of_next hs).frame.2.2.2.2
  | handlerCloser hs =>
    refine hset ?_
    rintro rfl
    exact absurd rfl (hno _)
  | enter hcl hf | handlerWin hc hf =>
    refine hset ?_
    rintro rfl
    exact absurd (hreq.symm.trans hf) Bool.noConfusion
  | addPush =>
    refine hset ?_
    rintro rfl
    exact .inl rfl
  | _ => exact .inl rfl

theorem Trans.handlerCloser_own {sp : Bool} (ht : Trans n s (.handlerCloser i sp) t) :
    HandlerCloserTrans (s.handlers i) s.tasks sp (t.handlers i) := by
  cases ht with
  | @handlerCloser i sp h' hs =>
    show HandlerCloserTrans _ _ _ (Function.update s.handlers i h' i)
    rwa [Function.update_self]

theorem can_handlerCloser (hne : (s.handlers i).closer ≠ .idle) (hret : (s.handlers i).closer ≠ .returned)
    (hw : (s.handlers i).closer ≠ .waiting false)
    (hfree : (∃ now, (s.handlers i).closer = .pushEnd now) → (s.handlers i).pc.holds = false) :
    Can (step n) (HandlerCloserActs i) s := by
  have hstep : ∀ {h'}, (s.handlers i).closerNext s.tasks false = some h' → Can (step n) (HandlerCloserActs i) s :=
    fun {h'} hs => ⟨.handlerCloser i false, s.setHandler i h', ⟨rfl, hw⟩, by show Option.map _ _ = _; rw [hs]; rfl⟩
  cases hc : (s.handlers i).closer with
  | idle => exact absurd hc hne
  | returned => exact absurd hc hret
  | pushEnd now =>
    refine @hstep { (s.handlers i).pushTask s.tasks .endTask with closer := .close now } ?_
    unfold Handler.closerNext
    rw [hc]
    simp only [hfree ⟨now, hc⟩, Bool.false_eq_true, if_false]
  | close now =>
    by_cases hf : ((s.handlers i).isRequestClose || false) = true
    · exact hstep (by unfold Handler.closerNext; rw [hc]; exact if_pos hf)
    · exact hstep (by unfold Handler.closerNext; rw [hc]; exact if_neg hf)
  | waitFinished | waiting b => exact hstep (by unfold Handler.closerNext; rw [hc])

/-! ## A handler is shut down -/

section
variable {p : Path (step n) Regular} (hV : ∀ k, Ready n (p.state k)) (hi : i < n)
  (hhandler : p.Fair (HandlerActs i)) (hcloser : p.StronglyFair (HandlerCloserActs i))
include hV hi

include hhandler in
/-- The thread unlocks the queue again and again. -/
theorem leadsTo_unlocked : p.LeadsTo (fun _ => True) fun s => (s.handlers i).pc.holds = false := by
  have hheld : p.LeadsTo (fun s => (s.handlers i).pc.holds = true) fun s => (s.handlers i).pc.holds = false := by
    refine hhandler.leadsTo hV (fun s => (s.handlers i).leaves) (fun s a t h hI ha hs => ?_) fun s h hI => ?_
    · rcases h.leaves_le ha (trans_of_step hs) (.inl hI) with ⟨hfree, -⟩ | hle
      · exact .inl hfree
      · cases hpc : (t.handlers i).pc.holds with
        | false => exact .inl rfl
        | true => exact .inr ⟨rfl, hle⟩
    · refine .inr (h.can_handler hi (fun hpc => ?_) fun hpc => ?_)
      · rw [hpc] at hI
        cases hI
      · rw [hpc] at hI
        cases hI
  intro k _
  cases hpc : ((p.state k).handlers i).pc.holds with
  | false => exact ⟨k, Nat.le_refl k, hpc⟩
  | true => exact hheld k hpc

include hhandler in
/-- The thread ends when the close flag is set. -/
theorem leadsTo_ended : p.LeadsTo (fun s => (s.handlers i).isRequestClose = true)
    fun s => (s.handlers i).isRequestClose = true ∧ (s.handlers i).pc = .ended := by
  refine hhandler.leadsTo hV (fun s => (s.handlers i).leaves) (fun s a t h hI ha hs => ?_) fun s h hI => ?_
  · have ht := trans_of_step hs
    rcases h.leaves_le ha ht (.inr hI) with ⟨-, hf⟩ | hle
    · exact absurd (hI.symm.trans hf) Bool.noConfusion
    · exact .inr ⟨isRequestClose_of_move (handler_move ht i) hI, hle⟩
  · by_cases hend : (s.handlers i).pc = .ended
    · exact .inl ⟨hI, hend⟩
    · exact .inr (h.can_handler hi hend (h.not_wait hI))

include hhandler hcloser in
/-- A stage `Q` of the handler that the next statement of the closing call ends. -/
theorem leadsTo_of_closer {Q R : Handler → Prop}
    (hown : ∀ {h h' : Handler} {ts : Tasks}, h.Live → Q h → HandlerCloserTrans h ts false h' → R h')
    (hkeep : ∀ {h h' : Handler} {ts : Tasks}, Q h → HandlerMove ts false h h' →
      (h'.closer = h.closer ∨ ∃ b b', h.closer = .waiting b ∧ h'.closer = .waiting b') → Q h')
    (hcan : ∀ {h : Handler}, h.Live → Q h → h.closer ≠ .idle ∧ h.closer ≠ .returned ∧ h.closer ≠ .waiting false) :
    p.LeadsTo (fun s => Q (s.handlers i)) fun s => R (s.handlers i) := by
  refine hcloser.leadsTo_again hV (fun _ => 0) (fun s a t h hI ha hs => ?_) (leadsTo_unlocked hV hi hhandler)
    fun s h hI hfree => ?_
  · have ht := trans_of_step hs
    by_cases hact : ∃ sp, a = .handlerCloser i sp
    · obtain ⟨sp, rfl⟩ := hact
      obtain rfl : sp = false := ha
      exact .inl (hown (h.handler i) hI ht.handlerCloser_own)
    · have hreq := (h.handler i).sound.requested_of_closed (hcan (h.handler i) hI).1
      have hcl := handlerCloser_kept ht hreq fun sp hsp => hact ⟨sp, hsp⟩
      refine .inr ⟨hkeep hI (ha.spurious ▸ handler_move ht i) hcl, Nat.le_refl 0, fun hact' => absurd ?_ hact⟩
      cases a with
      | handlerCloser j sp => exact ⟨sp, by rw [hact'.1]⟩
      | _ => exact hact'.elim
  · obtain ⟨hne, hret, hw⟩ := hcan (h.handler i) hI
    exact .inr (can_handlerCloser hne hret hw fun _ => hfree)

include hhandler hcloser in
/-- A requested shutdown sets the close flag. -/
theorem leadsTo_closed : p.LeadsTo (fun s => (s.handlers i).isRequestShutDown = true)
    fun s => (s.handlers i).isRequestClose = true := by
  have hpush : p.LeadsTo (fun s => ∃ now, (s.handlers i).closer = .pushEnd now)
      fun s => ∃ now, (s.handlers i).closer = .close now := by
    refine leadsTo_of_closer hV hi hhandler hcloser (fun _ hQ ht => ht.pushes hQ) (fun ⟨now, hc⟩ _ hcl => ?_)
      fun _ ⟨now, hc⟩ => ⟨by simp [hc], by simp [hc], by simp [hc]⟩
    rcases hcl with hcl | ⟨b, b', hcl, -⟩
    · exact ⟨now, hcl.trans hc⟩
    · cases hc.symm.trans hcl
  have hclose : p.LeadsTo (fun s => ∃ now, (s.handlers i).closer = .close now)
      fun s => (s.handlers i).isRequestClose = true := by
    refine leadsTo_of_closer hV hi hhandler hcloser (fun _ hQ ht => ht.closes hQ) (fun ⟨now, hc⟩ _ hcl => ?_)
      fun _ ⟨now, hc⟩ => ⟨by simp [hc], by simp [hc], by simp [hc]⟩
    rcases hcl with hcl | ⟨b, b', hcl, -⟩
    · exact ⟨now, hcl.trans hc⟩
    · cases hc.symm.trans hcl
  intro k hk
  have hl := ((hV k).handler i).heard
  cases hc : ((p.state k).handlers i).closer with
  | idle => exact absurd hc (hl.requested hk)
  | pushEnd now => exact (hpush.trans hclose) k ⟨now, hc⟩
  | close now => exact hclose k ⟨now, hc⟩
  | waitFinished | waiting b | returned => exact ⟨k, Nat.le_refl k, hl.closed (by rw [hc]; trivial)⟩

include hhandler hcloser in
/-- The closing call hears of the end of the thread. -/
theorem leadsTo_over : p.LeadsTo (fun s => (s.handlers i).isRequestShutDown = true) fun s => (s.handlers i).Over := by
  have hreturn : p.LeadsTo (fun s => ((s.handlers i).isRequestClose = true ∧ (s.handlers i).pc = .ended) ∧
      (s.handlers i).closer ≠ .returned) fun s => (s.handlers i).Over := by
    refine leadsTo_of_closer (Q := fun h => (h.isRequestClose = true ∧ h.pc = .ended) ∧ h.closer ≠ .returned) hV hi
      hhandler hcloser (fun hl ⟨hQ, _⟩ ht => ?_) (fun ⟨hQ, hret⟩ hm hcl => ⟨⟨?_, ?_⟩, ?_⟩) fun hl ⟨hQ, hret⟩ => ?_
    · exact ⟨ht.returns (hl.sound.closed hQ.1) (hl.heard.finished (.inr hQ.2)), HandlerMove.ended (.closer ht) hQ.2⟩
    · exact isRequestClose_of_move hm hQ.1
    · exact hm.ended hQ.2
    · rcases hcl with hcl | ⟨b, b', -, hcl⟩
      · rwa [hcl]
      · simp [hcl]
    · refine ⟨fun hidle => ?_, hret, hl.heard.heard hQ.2⟩
      have hclosed := hl.sound.closed hQ.1
      rw [hidle] at hclosed
      exact hclosed
  refine (leadsTo_closed hV hi hhandler hcloser).trans ((leadsTo_ended hV hi hhandler).trans fun k hk => ?_)
  by_cases hret : ((p.state k).handlers i).closer = .returned
  · exact ⟨k, Nat.le_refl k, hret, hk.2⟩
  · exact hreturn k ⟨hk, hret⟩

end

/-! ## The pool is shut down -/

def CloserActs : ScheduledThreadPool → Act → Prop
  | _, .closer _ => True
  | _, _ => False

/-- The statements of `ShutDownHelper` that are left, for `n` handlers. -/
def CloserPc.rest (n : ℕ) : CloserPc → ℕ
  | .setStop _ => 2 * n + 2
  | .cas i _ => 2 * (n - i) + 1
  | .helper i _ => 2 * (n - i)
  | .setShutDown _ => 1
  | .idle | .returned => 0

theorem CloserPc.rest_loop (n i : ℕ) (now : Bool) : (loop n i now).rest n ≤ 2 * (n - i) + 1 := by
  rcases CloserPc.loop_cases n i now with ⟨-, heq⟩ | ⟨-, heq⟩ <;> simp [heq, rest]

theorem closer_lt {sp : Bool} (h : Ready n s) (ht : Trans n s (.closer sp) t) : t.closer.rest n < s.closer.rest n := by
  have hin := h.inLoop
  cases ht with
  | @setStop _ now hcl =>
    refine Nat.lt_of_le_of_lt (CloserPc.rest_loop n 0 now) ?_
    rw [hcl]
    simp only [CloserPc.rest]
    omega
  | @skip _ now i hcl | @leave _ now i hcl =>
    refine Nat.lt_of_le_of_lt (CloserPc.rest_loop n (i + 1) now) ?_
    rw [hcl] at hin ⊢
    have hi : i < n := hin
    simp only [CloserPc.rest]
    omega
  | enter hcl | setShutDown hcl =>
    rw [hcl]
    exact Nat.lt_succ_self _

theorem closer_kept (ht : Trans n s a t) (hreq : s.isRequestShutDown = true) (hno : ∀ sp, a ≠ .closer sp) :
    t.closer = s.closer := by
  cases ht with
  | setStop | skip | enter | leave | setShutDown => exact absurd rfl (hno _)
  | win hc hf => exact absurd (hreq.symm.trans hf) Bool.noConfusion
  | _ => rfl

theorem can_closer (hidle : s.closer ≠ .idle) (hret : s.closer ≠ .returned)
    (hhelper : ∀ i now, s.closer = .helper i now → (s.handlers i).closer = .returned) : Can (step n) CloserActs s := by
  have hstep : ∀ {t}, s.closerNext n false = some t → Can (step n) CloserActs s :=
    fun ht => ⟨.closer false, _, trivial, ht⟩
  cases hc : s.closer with
  | idle => exact absurd hc hidle
  | returned => exact absurd hc hret
  | cas i now =>
    cases hq : (s.handlers i).requestShutDown now false with
    | none => exact hstep (by unfold closerNext; rw [hc]; simp only [hq]; rfl)
    | some h => exact hstep (by unfold closerNext; rw [hc]; simp only [hq]; rfl)
  | helper i now => exact hstep (by unfold closerNext; rw [hc]; exact if_pos (hhelper i now hc))
  | setStop now | setShutDown now => exact hstep (by unfold closerNext; rw [hc])

section
variable {p : Path (step n) Regular} (hV : ∀ k, Ready n (p.state k)) (hhandler : ∀ i < n, p.Fair (HandlerActs i))
  (hhcloser : ∀ i < n, p.StronglyFair (HandlerCloserActs i)) (hcloser : p.StronglyFair CloserActs)
include hV hhandler hhcloser hcloser

/-- The closing call of the pool comes to its end: it waits for one handler after the other. -/
theorem leadsTo_returned : p.LeadsTo (fun s => s.isRequestShutDown = true) fun s => s.closer = .returned := by
  refine hcloser.leadsTo_rank hV (fun s => s.closer.rest n) (fun s a t h hI ha hs => .inr ?_) fun k hk => ?_
  · have ht := trans_of_step hs
    by_cases hact : ∃ sp, a = .closer sp
    · obtain ⟨sp, rfl⟩ := hact
      have hlt := closer_lt h ht
      exact ⟨requested_trans ht hI, Nat.le_of_lt hlt, fun _ => hlt⟩
    · have hcl := closer_kept ht hI fun sp hsp => hact ⟨sp, hsp⟩
      refine ⟨requested_trans ht hI, Nat.le_of_eq (by rw [hcl]), fun hown => absurd ?_ hact⟩
      cases a with
      | closer sp => exact ⟨sp, rfl⟩
      | _ => exact hown.elim
  · by_cases hret : (p.state k).closer = .returned
    · exact ⟨k, Nat.le_refl k, .inl hret⟩
    have hidle := (hV k).requested.1 hk
    by_cases hw : ∃ i now, (p.state k).closer = .helper i now
    · obtain ⟨i, now, hc⟩ := hw
      have hi : i < n := by
        have hin := (hV k).inLoop
        rwa [hc] at hin
      -- it is still there when the shutdown of the handler is over, or has gone on before
      have hover := leadsTo_over hV hi (hhandler i hi) (hhcloser i hi)
      have hkeep := hover.keeping (K := fun s => s.closer = .helper i now)
        (L := fun s => s.closer = .returned ∨ Can (step n) CloserActs s) hV fun s a t h hc _ hs => ?_
      · obtain ⟨m, hkm, hL | ⟨hover, hc⟩⟩ := hkeep k ⟨(hV k).helper i now hc, hc⟩
        · exact ⟨m, hkm, hL⟩
        · refine ⟨m, hkm, .inr (can_closer (by simp [hc]) (by simp [hc]) fun j now' hc' => ?_)⟩
          cases hc.symm.trans hc'
          exact hover.closer
      · have ht := trans_of_step hs
        by_cases hact : ∃ sp, a = .closer sp
        · obtain ⟨sp, rfl⟩ := hact
          refine .inl (.inr ?_)
          cases ht with
          | setStop hcl | skip hcl | enter hcl | setShutDown hcl => cases hc.symm.trans hcl
          | @leave _ now' j hcl hret =>
            rcases CloserPc.loop_cases n (j + 1) now' with ⟨-, heq⟩ | ⟨-, heq⟩
            · exact can_closer (by simp [heq]) (by simp [heq]) (by simp [heq])
            · exact can_closer (by simp [heq]) (by simp [heq]) (by simp [heq])
        · have hreq := h.requested.2 (by simp [hc])
          exact .inr ((closer_kept ht hreq fun sp hsp => hact ⟨sp, hsp⟩).trans hc)
    · exact ⟨k, Nat.le_refl k, .inr (can_closer hidle hret fun i now hc => absurd ⟨i, now, hc⟩ hw)⟩

end

/-! ## A caller -/

/-- The next statement of the caller `c`. -/
def CallerActs (c : ℕ) : ScheduledThreadPool → Act → Prop
  | _, .caller d _ _ => d = c
  | _, _ => False

/-- The statements of a call that are left, if it is not a `Cancel` that waits. -/
def CallerPc.rest : CallerPc → ℕ
  | .addLoad _ _ => 8
  | .addIndex _ _ => 7
  | .addNow _ _ _ => 6
  | .addClose _ _ _ _ => 5
  | .addTest _ _ _ _ => 4
  | .addDeadline _ _ _ _ => 3
  | .addInterval _ _ _ | .cas _ | .handlerCas _ _ | .cancelStore _ => 2
  | .addPush _ _ | .closing _ | .handlerClosing _ | .cancelTest _ => 1
  | .idle | .cancelWaiting _ => 0

theorem CallerPc.rest_eq_zero {pc : CallerPc} : pc.rest = 0 ↔ pc = .idle ∨ ∃ id, pc = .cancelWaiting id := by
  cases pc <;> simp [rest]

theorem CallerPc.rest_ne {pc : CallerPc} (hpos : 0 < pc.rest) : pc ≠ .idle := by
  rintro rfl
  cases hpos

theorem caller_lt {now : TimeValue} {sp : Bool} (ht : Trans n s (.caller c now sp) t) (hpos : 0 < (s.callers c).rest) :
    (t.callers c).rest < (s.callers c).rest := by
  have hself : ∀ {pc : CallerPc}, Function.update s.callers c pc c = pc := Function.update_self ..
  cases ht with
  | refuse | addClosed | addKnown | addPush | lose | resume | handlerLose | handlerResume | cancelReturn =>
    refine Nat.lt_of_le_of_lt (Nat.le_of_eq ?_) hpos
    exact congrArg CallerPc.rest hself
  | load hc | addIndex hc | addNow hc | addClose hc | addTest hc | addInterval hc | win hc | handlerWin hc
  | cancelStore hc =>
    rw [hc]
    refine Nat.lt_of_le_of_lt (Nat.le_of_eq (congrArg CallerPc.rest hself)) ?_
    exact Nat.lt_succ_self _
  | addDeadline hc hpc =>
    rw [hc]
    refine Nat.lt_of_le_of_lt (Nat.le_of_eq (congrArg CallerPc.rest hself)) ?_
    rcases hpc with rfl | ⟨interval, rfl⟩ <;> simp [CallerPc.rest]
  | cancelWait hc =>
    refine Nat.lt_of_le_of_lt (Nat.le_of_eq ?_) hpos
    exact congrArg CallerPc.rest hself

/-- A caller that is in a call moves only by its own steps. -/
theorem caller_kept (hne : s.callers c ≠ .idle) (hno : ∀ now sp, a ≠ .caller c now sp) (ht : Trans n s a t) :
    t.callers c = s.callers c := by
  have hother : ∀ {d : ℕ} {pc : CallerPc}, d ≠ c → Function.update s.callers d pc c = s.callers c :=
    fun hd => Function.update_of_ne hd.symm ..
  have hcaller : ∀ {d : ℕ} {now : TimeValue} {sp : Bool}, a = .caller d now sp → d ≠ c := by
    rintro d now sp ha rfl
    exact hno now sp ha
  cases ht with
  | add hc | addHandler hc | shutDown hc | shutDownHandler hc | cancel hc =>
    refine hother ?_
    rintro rfl
    exact hne hc
  | handler | handlerCloser | setStop | skip | enter | leave | setShutDown => rfl
  | _ => exact hother (hcaller rfl)

/-- The call waits: for the thread of a handler that holds `m_queue_guard`, or for the body of a `ShutDownHelper`. -/
def HeldUp (c : ℕ) (s : ScheduledThreadPool) : Prop :=
  match s.callers c with
  | .addPush i _ => (s.handlers i).pc.holds = true
  | .closing _ => s.closer ≠ .returned
  | .handlerClosing i => (s.handlers i).closer ≠ .returned
  | _ => False

theorem can_caller (hpos : 0 < (s.callers c).rest) (hb : ¬ s.HeldUp c) : Can (step n) (CallerActs c) s := by
  have hstep : ∀ {t}, s.callerNext n c 0 false = some t → Can (step n) (CallerActs c) s :=
    fun ht => ⟨.caller c 0 false, _, rfl, ht⟩
  unfold HeldUp at hb
  cases hc : s.callers c with
  | idle | cancelWaiting id =>
    rw [hc] at hpos
    cases hpos
  | addLoad task kind =>
    cases hf : s.isRequestShutDown with
    | true => exact hstep (by unfold callerNext; rw [hc, hf])
    | false => cases task <;> exact hstep (by unfold callerNext; rw [hc, hf])
  | cas now =>
    by_cases hf : (s.isRequestShutDown || false) = true
    · exact hstep (by unfold callerNext; rw [hc]; exact if_pos hf)
    · exact hstep (by unfold callerNext; rw [hc]; exact if_neg hf)
  | handlerCas i now =>
    cases hq : (s.handlers i).requestShutDown now false with
    | none => exact hstep (by unfold callerNext; rw [hc]; simp only [hq]; rfl)
    | some h => exact hstep (by unfold callerNext; rw [hc]; simp only [hq]; rfl)
  | addPush i id =>
    rw [hc] at hb
    exact hstep (by unfold callerNext; rw [hc]; exact if_neg hb)
  | closing now =>
    rw [hc] at hb
    exact hstep (by unfold callerNext; rw [hc]; exact if_pos (not_not.1 hb))
  | handlerClosing i =>
    rw [hc] at hb
    exact hstep (by unfold callerNext; rw [hc]; exact if_pos (not_not.1 hb))
  | _ => exact hstep (by unfold callerNext; rw [hc])

section
variable {p : Path (step n) Regular} (hV : ∀ k, Ready n (p.state k)) (hhandler : ∀ i < n, p.Fair (HandlerActs i))
  (hhcloser : ∀ i < n, p.StronglyFair (HandlerCloserActs i)) (hcloser : p.StronglyFair CloserActs)
include hV

/-- While the call stands at `pc`, what it waits for comes about. -/
theorem leadsTo_can {pc : CallerPc} {I J : ScheduledThreadPool → Prop} (hone : pc.rest = 1) (hJ : p.LeadsTo I J)
    (hfree : ∀ s, J s → s.callers c = pc → ¬ s.HeldUp c) : p.LeadsTo (fun s => I s ∧ s.callers c = pc)
    fun s => (s.callers c).rest = 0 ∨ Can (step n) (CallerActs c) s := by
  have hpos : ∀ {s : ScheduledThreadPool}, s.callers c = pc → 0 < (s.callers c).rest := fun hc => by
    rw [hc, hone]
    exact Nat.one_pos
  have hkeep := hJ.keeping (K := fun s => s.callers c = pc) (L := fun s => (s.callers c).rest = 0) hV
    fun s a t h hc _ hs => ?_
  · refine hkeep.trans (Path.leadsTo_of_imp fun s h => h.imp_right fun ⟨hj, hc⟩ => ?_)
    exact can_caller (hpos hc) (hfree s hj hc)
  · have ht := trans_of_step hs
    by_cases hact : ∃ now sp, a = .caller c now sp
    · obtain ⟨now, sp, rfl⟩ := hact
      have hlt := caller_lt ht (hpos hc)
      rw [hc, hone] at hlt
      exact .inl (Nat.lt_one_iff.1 hlt)
    · exact .inr ((caller_kept (CallerPc.rest_ne (hpos hc)) (fun now sp hsp => hact ⟨now, sp, hsp⟩) ht).trans hc)

include hhandler hhcloser hcloser

/-- A call does not wait for ever. -/
theorem leadsTo_unblocked : p.LeadsTo (fun s => 0 < (s.callers c).rest)
    fun s => (s.callers c).rest = 0 ∨ Can (step n) (CallerActs c) s := by
  intro k hk
  by_cases hb : (p.state k).HeldUp c
  swap
  · exact ⟨k, Nat.le_refl k, .inr (can_caller hk hb)⟩
  have hcall := (hV k).callers c
  cases hc : (p.state k).callers c with
  | addPush i id =>
    rw [hc] at hcall
    refine leadsTo_can hV rfl (leadsTo_unlocked hV hcall (hhandler i hcall)) (fun s hfree hc => ?_) k ⟨trivial, hc⟩
    unfold HeldUp
    rw [hc]
    exact fun hh => Bool.noConfusion (hh.symm.trans hfree)
  | closing now =>
    rw [hc] at hcall
    refine leadsTo_can hV rfl (leadsTo_returned hV hhandler hhcloser hcloser) (fun s hret hc => ?_) k ⟨hcall, hc⟩
    unfold HeldUp
    rw [hc]
    exact fun hne => hne hret
  | handlerClosing i =>
    rw [hc] at hcall
    obtain ⟨hi, hreq⟩ := hcall
    refine leadsTo_can hV rfl (leadsTo_over hV hi (hhandler i hi) (hhcloser i hi)) (fun s hover hc => ?_) k ⟨hreq, hc⟩
    unfold HeldUp
    rw [hc]
    exact fun hne => hne hover.closer
  | _ =>
    unfold HeldUp at hb
    rw [hc] at hb
    exact hb.elim

/-- A call returns, or waits in `Cancel`. -/
theorem leadsTo_rest (hcaller : p.StronglyFair (CallerActs c)) :
    p.LeadsTo (fun s => 0 < (s.callers c).rest) fun s => (s.callers c).rest = 0 := by
  refine hcaller.leadsTo_rank hV (fun s => (s.callers c).rest) (fun s a t h hI ha hs => ?_)
    (leadsTo_unblocked hV hhandler hhcloser hcloser)
  have ht := trans_of_step hs
  by_cases hact : ∃ now sp, a = .caller c now sp
  · obtain ⟨now, sp, rfl⟩ := hact
    have hlt := caller_lt ht hI
    exact (Nat.eq_zero_or_pos _).imp_right fun hpos => ⟨hpos, Nat.le_of_lt hlt, fun _ => hlt⟩
  · have heq := caller_kept (CallerPc.rest_ne hI) (fun now sp hsp => hact ⟨now, sp, hsp⟩) ht
    refine .inr ⟨by rwa [heq], Nat.le_of_eq (by rw [heq]), fun hown => absurd ?_ hact⟩
    cases a with
    | caller d now sp => exact ⟨now, sp, by rw [show d = c from hown]⟩
    | _ => exact hown.elim

end

/-! ## The results -/

/-- The pool is shut down, and so are its handlers; their threads have ended. -/
structure Terminated (n : ℕ) (s : ScheduledThreadPool) : Prop where
  closer : s.closer = .returned
  state : s.state = .shutDown
  handlers : ∀ i < n, (s.handlers i).Over

theorem returned_trans (hr : Ready n s) (hret : s.closer = .returned) (ht : Trans n s a t) : t.closer = .returned := by
  cases ht with
  | setStop hcl | skip hcl | enter hcl | leave hcl | setShutDown hcl => cases hret.symm.trans hcl
  | win hc hf => exact absurd ((hr.requested.2 (by simp [hret])).symm.trans hf) Bool.noConfusion
  | _ => exact hret

theorem Terminated.trans (h : Terminated n s) (hr : Ready n s) (ht : Trans n s a t) : Terminated n t := by
  refine ⟨returned_trans hr h.closer ht, ?_, fun i hi => (h.handlers i hi).move (hr.handler i) (handler_move ht i)⟩
  cases ht with
  | setStop hcl | setShutDown hcl => cases h.closer.symm.trans hcl
  | _ => exact h.state

/-- Nobody but the callers has anything left to do. -/
theorem Terminated.cannot (h : Terminated n s) : (∀ i < n, ¬ Can (step n) (HandlerActs i) s) ∧
    (∀ i < n, ¬ Can (step n) (HandlerCloserActs i) s) ∧ ¬ Can (step n) CloserActs s := by
  refine ⟨?_, ?_, ?_⟩
  · rintro i hi ⟨a, t, hown, hs⟩
    obtain ⟨⟨now, e, rfl⟩, -⟩ := handlerActs_iff.1 hown
    have hnext := (trans_of_step hs).own
    simp [Handler.next, (h.handlers i hi).pc] at hnext
  · rintro i hi ⟨a, t, hown, hs⟩
    cases a with
    | handlerCloser j sp =>
      obtain ⟨rfl, -⟩ := hown
      exact (trans_of_step hs).handlerCloser_own.not_returned (h.handlers j hi).closer
    | _ => exact hown
  · rintro ⟨a, t, hown, hs⟩
    cases a with
    | closer sp =>
      cases trans_of_step hs with
      | setStop hcl | skip hcl | enter hcl | leave hcl | setShutDown hcl => cases h.closer.symm.trans hcl
    | _ => exact hown

theorem idle_cannot (hidle : s.callers c = .idle) : ¬ Can (step n) (CallerActs c) s := by
  rintro ⟨a, t, hown, hs⟩
  cases a with
  | caller d now sp =>
    obtain rfl : d = c := hown
    simp [step, callerNext, hidle] at hs
  | _ => exact hown

/-- A run to the end is a path on which everybody is scheduled fairly. -/
theorem Terminated.exists_path {P : ScheduledThreadPool → Act → Prop} {as bs : List Act} {u : ScheduledThreadPool}
    (h : Run (step n) P s as t) (h' : Run (step n) P t bs u) (hu : Terminated n u) (hidle : u.callers c = .idle) :
    ∃ p : Path (step n) P, p.state 0 = s ∧ p.state as.length = t ∧ (∀ i < n, p.Fair (HandlerActs i)) ∧
      (∀ i < n, p.StronglyFair (HandlerCloserActs i)) ∧ p.StronglyFair CloserActs ∧ p.StronglyFair (CallerActs c) := by
  obtain ⟨p, h₀, hmid, hend⟩ := h.exists_path h'
  obtain ⟨hh, hhc, hcl⟩ := hu.cannot
  exact ⟨p, h₀, hmid, fun i hi => Path.fair_of_rest hend (hh i hi),
    fun i hi => Path.stronglyFair_of_rest hend (hhc i hi), Path.stronglyFair_of_rest hend hcl,
    Path.stronglyFair_of_rest hend (idle_cannot hidle)⟩

section
variable {p : Path (step n) Regular} (h₀ : p.state 0 = .create) (hn : 0 < n)
  (hhandler : ∀ i < n, p.Fair (HandlerActs i)) (hhcloser : ∀ i < n, p.StronglyFair (HandlerCloserActs i))
  (hcloser : p.StronglyFair CloserActs)
include h₀ hn hhandler hhcloser hcloser

/-- **The shutdown comes to its end**: the closing call returns, the state is `SHUTDOWN`, and all threads end. -/
theorem timers_terminate {k : ℕ} (hreq : (p.state k).isRequestShutDown = true) :
    ∃ m, k ≤ m ∧ ∀ m', m ≤ m' → Terminated n (p.state m') := by
  have hV : ∀ k, Ready n (p.state k) := Path.invariant (ready_preserved hn) (h₀ ▸ .create)
  have hover : p.LeadsTo (fun s => s.closer = .returned) fun s => ∀ i < n, (s.handlers i).Over :=
    Path.LeadsTo.all hV
      (fun i s a t h ho _ hs => ho.move (h.handler i) (handler_move (trans_of_step hs) i))
      fun i hi k hret => leadsTo_over hV hi (hhandler i hi) (hhcloser i hi) k ((hV k).passed i (hret ▸ hi))
  obtain ⟨m, hkm, hret⟩ := leadsTo_returned hV hhandler hhcloser hcloser k hreq
  obtain ⟨m', hmm', hm'⟩ := hover m hret
  have hret' := Path.stays hV (fun s a t h hret _ hs => returned_trans h hret (trans_of_step hs)) hret hmm'
  refine ⟨m', Nat.le_trans hkm hmm', fun j hj => ?_⟩
  exact Path.stays hV (fun s a t h hT _ hs => hT.trans h (trans_of_step hs))
    ⟨hret', (hV m').shut hret', hm'⟩ hj

/-- **Every call returns**, or waits in `Cancel`. -/
theorem timer_calls_return (hcaller : p.StronglyFair (CallerActs c)) (k : ℕ) :
    ∃ m, k ≤ m ∧ ((p.state m).callers c = .idle ∨ ∃ id, (p.state m).callers c = .cancelWaiting id) := by
  have hV : ∀ k, Ready n (p.state k) := Path.invariant (ready_preserved hn) (h₀ ▸ .create)
  rcases Nat.eq_zero_or_pos ((p.state k).callers c).rest with hz | hpos
  · exact ⟨k, Nat.le_refl k, CallerPc.rest_eq_zero.1 hz⟩
  · obtain ⟨m, hkm, hm⟩ := leadsTo_rest hV hhandler hhcloser hcloser hcaller k hpos
    exact ⟨m, hkm, CallerPc.rest_eq_zero.1 hm⟩

end

/-- `ShutDownNow` is called while a cycle task is inside `DoRun()`. -/
def oneBegins : List Act :=
  [.add 0 (some 7) (.cycle 3 true)] ++ List.replicate 8 (.caller 0 5 false) ++
    List.replicate 15 (.handler 0 5 .returns) ++ [.shutDown 1 true, .caller 1 5 false]

/-- The rest: the task is still in the queue, and the thread leaves by the close flag. -/
def oneEnds : List Act :=
  [.closer false, .closer false] ++ List.replicate 3 (.handlerCloser 0 false) ++
    List.replicate 7 (.handler 0 5 .returns) ++
    [.handlerCloser 0 false, .closer false, .closer false, .caller 1 5 false]

theorem timers_terminate_cycle : ∃ p : Path (step 1) Regular, p.state 0 = .create ∧
    ((p.state 26).handlers 0).pc = .running 7 .doRun ∧ ∃ m, 26 ≤ m ∧ ∀ m', m ≤ m' → Terminated 1 (p.state m') := by
  obtain ⟨t, ht, ⟨hpc, hreq⟩, u, hu, h1, h2, h3, h4, h5⟩ : ∃ t, Run (step 1) Regular .create oneBegins t ∧
      ((t.handlers 0).pc = .running 7 .doRun ∧ t.isRequestShutDown = true) ∧ ∃ u ∈ exec (step 1) Regular t oneEnds,
        u.closer = .returned ∧ u.state = .shutDown ∧ (u.handlers 0).closer = .returned ∧
        (u.handlers 0).pc = .ended ∧ u.callers 1 = .idle := exists_run (by decide +kernel) fun _ _ h => h
  obtain ⟨p, h₀, hmid, hhandler, hhcloser, hcloser, -⟩ :=
    Terminated.exists_path ht (run_of_exec hu) ⟨h1, h2, fun i hi => Nat.lt_one_iff.1 hi ▸ ⟨h3, h4⟩⟩ h5
  exact ⟨p, h₀, hmid ▸ hpc, @timers_terminate 1 p h₀ Nat.one_pos hhandler hhcloser hcloser 26 (hmid ▸ hreq)⟩

/-- There `ShutDownNow` returns. -/
theorem timer_calls_return_cycle : ∃ p : Path (step 1) Regular, p.state 0 = .create ∧
    (p.state 26).callers 1 = .closing true ∧
    ∃ m, 26 ≤ m ∧ ((p.state m).callers 1 = .idle ∨ ∃ id, (p.state m).callers 1 = .cancelWaiting id) := by
  obtain ⟨t, ht, hpc, u, hu, h1, h2, h3, h4, h5⟩ : ∃ t, Run (step 1) Regular .create oneBegins t ∧
      t.callers 1 = .closing true ∧ ∃ u ∈ exec (step 1) Regular t oneEnds,
        u.closer = .returned ∧ u.state = .shutDown ∧ (u.handlers 0).closer = .returned ∧
        (u.handlers 0).pc = .ended ∧ u.callers 1 = .idle := exists_run (by decide +kernel) fun _ _ h => h
  obtain ⟨p, h₀, hmid, hhandler, hhcloser, hcloser, hcaller⟩ :=
    Terminated.exists_path ht (run_of_exec hu) ⟨h1, h2, fun i hi => Nat.lt_one_iff.1 hi ▸ ⟨h3, h4⟩⟩ h5
  exact ⟨p, h₀, hmid ▸ hpc, @timer_calls_return 1 1 p h₀ Nat.one_pos hhandler hhcloser hcloser hcaller 26⟩

end ScheduledThreadPool

end Empool
