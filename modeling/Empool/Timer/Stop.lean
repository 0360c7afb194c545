/-
  After `ShutDown` the timers stop.

  The body of `ShutDownHelper` of a handler pushes the `EndTimerTask`, whose
  deadline is 0, and sets the close flag after that.  If no other deadline is
  0, the `EndTimerTask` is at the front of the queue from its push to its pop;
  so a thread that passes its last check of the flag, and calls `GetMin` with
  the flag set, gets the `EndTimerTask`.

  * `Ending`: the `EndTimerTask` of a handler;
  * `Flagged`: the close flags of the handlers;
  * `shutDown_stops` is the result on whole runs, `fired_after_close` is a run
    in which a deadline is 0.
-/
import Empool.Timer.Closing
import Empool.Timer.Order
import Empool.Lib.HeapPath

namespace Empool

open Lts Heap

variable {h h' : Handler} {ts ts' : Tasks}

/-! ## The `EndTimerTask` -/

/-- The `EndTimerTask` is not cancelled, and no interval task. -/
def HandlerPc.endPath : HandlerPc → Prop
  | .getInterval .endTask _ | .setDeadline .endTask _ _ | .popMinAndPush .endTask | .popMin .endTask false => False
  | _ => True

/-- The thread has popped the `EndTimerTask`, or has left. -/
def HandlerPc.stopping : HandlerPc → Prop
  | .fire .endTask | .finish | .notifyFinished | .ended | .escaped => True
  | _ => False

/-- The thread has selected a task of the user, and has not started it yet. -/
def HandlerPc.hasTask : HandlerPc → Bool
  | .getCurrentTime (.task _) | .getDeadline (.task _) _ | .isCancelled (.task _) _ _
  | .isRequestCancel (.task _) _ _ | .isIntervalTask (.task _) _ | .getInterval (.task _) _
  | .setDeadline (.task _) _ _ | .popMinAndPush (.task _) | .popMin (.task _) _ | .fire (.task _) => true
  | _ => false

/-- The tasks the thread has started, with the one it has selected. -/
def Handler.due (h : Handler) : ℕ := h.started + h.pc.hasTask.toNat

/-- The `EndTimerTask` has been pushed. -/
def HandlerCloserPc.pushed : HandlerCloserPc → Prop
  | .idle | .pushEnd _ => False
  | .close _ | .waitFinished | .waiting _ | .returned => True

theorem HandlerCloserPc.closed.pushed {c : HandlerCloserPc} (h : c.closed) : c.pushed := by
  cases c <;> first | exact trivial | exact h.elim

theorem HandlerPc.notify_ending {pc : HandlerPc} :
    (pc.endPath → pc.notify.endPath) ∧ (pc.stopping → pc.notify.stopping) ∧ pc.notify.hasTask = pc.hasTask := by
  cases pc <;> exact ⟨id, id, rfl⟩

theorem popMinAndPush_frame (h : Handler) (ts : Tasks) : (h.popMinAndPush ts).closer = h.closer ∧
    (h.popMinAndPush ts).late = h.late ∧ (h.popMinAndPush ts).lateStarted = h.lateStarted := by
  obtain ⟨queue, popped, pushed, heq⟩ := popMinAndPush_eq h ts
  rw [heq]
  exact ⟨rfl, rfl, rfl⟩

theorem popMin_frame (h : Handler) (ts : Tasks) : (h.popMin ts).closer = h.closer ∧
    (h.popMin ts).late = h.late ∧ (h.popMin ts).lateStarted = h.lateStarted := by
  obtain ⟨queue, popped, heq⟩ := popMin_eq h ts
  rw [heq]
  exact ⟨rfl, rfl, rfl⟩

namespace ScheduledThreadPool

variable {n : ℕ} {s t : ScheduledThreadPool} {a : Act} {sp : Bool}

/-- The `EndTimerTask` is at the front, from its push to its pop. -/
structure Ending (h : Handler) : Prop where
  path : h.pc.endPath
  front : .endTask ∈ h.queue → top h.queue = some .endTask
  once : h.queue.count .endTask ≤ 1
  before : ¬ h.closer.pushed → .endTask ∉ h.queue
  after : h.closer.pushed → .endTask ∈ h.queue ∨ h.pc.stopping
  late : h.pc.hasTask = true → h.late = false
  none : h.lateStarted = 0

theorem Ending.create : Ending .create where
  path := trivial
  front hmem := by cases hmem
  once := Nat.zero_le 1
  before _ hmem := by cases hmem
  after hc := hc.elim
  late hc := by cases hc
  none := rfl

/-- The thread moves, and leaves the queue. -/
theorem Ending.goto (he : Ending h) {pc : HandlerPc} (hpath : pc.endPath) (hstop : h.pc.stopping → pc.stopping)
    (hlate : pc.hasTask = true → h.pc.hasTask = true) : Ending (h.goto pc) where
  path := hpath
  front := he.front
  once := he.once
  before := he.before
  after hc := (he.after hc).imp id hstop
  late ht := he.late (hlate ht)
  none := he.none

/-- The queue changes, and holds no `EndTimerTask` then; the thread has popped it if it was there. -/
theorem Ending.without (he : Ending h) (hnone : .endTask ∉ h'.queue) (hpath : h'.pc.endPath)
    (hold : ¬ h.pc.stopping) (hpop : .endTask ∈ h.queue → h'.pc.stopping)
    (hlate : h'.pc.hasTask = true → h.pc.hasTask = true)
    (hframe : h'.closer = h.closer ∧ h'.late = h.late ∧ h'.lateStarted = h.lateStarted) : Ending h' where
  path := hpath
  front hmem := absurd hmem hnone
  once := by
    rw [List.count_eq_zero.2 hnone]
    exact Nat.zero_le 1
  before _ := hnone
  after hc := by
    rw [hframe.1] at hc
    rcases he.after hc with hmem | hstop
    · exact .inr (hpop hmem)
    · exact absurd hstop hold
  late ht := hframe.2.1.trans (he.late (hlate ht))
  none := hframe.2.2.trans he.none

/-- While the first task is one of the user, the `EndTimerTask` is not in the queue. -/
theorem Ending.not_mem (he : Ending h) {id : ℕ} (htop : top h.queue = some (.task id)) :
    TimerPtr.endTask ∉ h.queue := by
  intro hmem
  have hend := he.front hmem
  rw [htop] at hend
  cases hend

/-- With the close flag set the `EndTimerTask` is in the queue, so the thread selects it. -/
theorem Ending.getMin (he : Ending h) (hs : HandlerSound h) {task : TimerPtr} (hpc : h.pc = .getMin)
    (htop : top h.queue = some task) :
    Ending { h.goto (.getCurrentTime task) with late := h.isRequestClose } := by
  have hstop : ¬ h.pc.stopping := by
    rw [hpc]
    exact not_false
  refine ⟨?_, he.front, he.once, he.before, fun hc => .inl ((he.after hc).resolve_right hstop), fun ht => ?_, he.none⟩
  · cases task <;> trivial
  · show h.isRequestClose = false
    refine Bool.eq_false_iff.2 fun hcl => ?_
    have hmem := (he.after (hs.closed hcl).pushed).resolve_right hstop
    cases Option.some.inj (htop.symm.trans (he.front hmem))
    cases ht

theorem Ending.popMinAndPush (he : Ending h) (hf : Fronted h) {task : TimerPtr}
    (hpc : h.pc = .popMinAndPush task) : Ending ((h.popMinAndPush ts).goto (.fire task)) := by
  have htop : top h.queue = some task := hf _ (by rw [hpc]; rfl)
  have hold : ¬ h.pc.stopping := by
    rw [hpc]
    exact not_false
  cases task with
  | endTask => exact absurd he.path (by rw [hpc]; exact id)
  | task id =>
    have hnone := he.not_mem htop
    refine he.without ?_ trivial hold (fun hmem => absurd hmem hnone) (fun _ => by rw [hpc]; rfl)
      (popMinAndPush_frame h ts)
    show .endTask ∉ (h.popMinAndPush ts).queue
    rw [popMinAndPush_queue htop, ← List.count_eq_zero, count_push]
    have hpop := count_pop ts htop .endTask
    rw [List.count_eq_zero.2 hnone] at hpop
    simpa using hpop

theorem Ending.popMin (he : Ending h) (hf : Fronted h) {task : TimerPtr} {fired : Bool}
    (hpc : h.pc = .popMin task fired) : Ending ((h.popMin ts).goto (if fired then .fire task else .lock)) := by
  have htop : top h.queue = some task := hf _ (by rw [hpc]; rfl)
  have hold : ¬ h.pc.stopping := by
    rw [hpc]
    exact not_false
  have hpop := count_pop ts htop .endTask
  cases task with
  | task id =>
    have hnone := he.not_mem htop
    refine he.without ?_ ?_ hold (fun hmem => absurd hmem hnone) (fun _ => by rw [hpc]; rfl) (popMin_frame h ts)
    · show .endTask ∉ (h.popMin ts).queue
      rw [List.count_eq_zero.2 hnone] at hpop
      rw [popMin_queue, ← List.count_eq_zero]
      simpa using hpop
    · cases fired <;> trivial
  | endTask =>
    cases fired with
    | false => exact absurd he.path (by rw [hpc]; exact id)
    | true =>
      refine he.without ?_ trivial hold (fun _ => trivial) (fun ht => by cases ht) (popMin_frame h ts)
      show .endTask ∉ (h.popMin ts).queue
      have honce := he.once
      rw [if_pos rfl] at hpop
      rw [popMin_queue, ← List.count_eq_zero]
      omega

/-- A task that is started has been selected with the close flag not set. -/
theorem Ending.fire (he : Ending h) {id : ℕ} (hpc : h.pc = .fire (.task id)) : Ending (h.startRun id) := by
  have hlate := he.late (by rw [hpc]; rfl)
  have hold : ¬ h.pc.stopping := by
    rw [hpc]
    exact not_false
  refine ⟨trivial, he.front, he.once, he.before, fun hc => .inl ((he.after hc).resolve_right hold),
    fun ht => (by cases ht), ?_⟩
  show (if h.late then h.lateStarted + 1 else h.lateStarted) = 0
  rw [hlate]
  exact he.none

theorem Ending.trans (he : Ending h) (hf : Fronted h) (hs : HandlerSound h)
    (ht : HandlerTrans h ts h' ts') : Ending h' := by
  have hgo : ∀ {pc pc' : HandlerPc}, h.pc = pc → ¬ pc.stopping → pc'.endPath →
      (pc'.hasTask = true → pc.hasTask = true) → Ending (h.goto pc') :=
    fun hpc hold hpath hlate => he.goto hpath (fun hstop => absurd (hpc ▸ hstop) hold)
      fun ht => hpc ▸ hlate ht
  cases ht with
  | leave hpc hcl =>
    refine he.goto trivial (fun _ => trivial) fun ht => ?_
    cases ht
  | empty hpc hq | nonempty hpc hq =>
    cases hp : h.pc <;> rw [hp] at hpc <;>
      first | exact hgo hp id trivial (fun ht => by cases ht) | cases hpc
  | start hpc | wait hpc | check hpc | timedWait hpc | run hpc | runReturn hpc =>
    exact hgo hpc id trivial fun ht => by cases ht
  | runThrow hpc | stop hpc =>
    exact he.goto trivial (fun _ => trivial) fun ht => by cases ht
  | finish hpc =>
    exact ⟨trivial, he.front, he.once, he.before, fun _ => .inr trivial, fun ht => (by cases ht), he.none⟩
  | @notifyFinished hpc c hc =>
    refine ⟨trivial, he.front, he.once, fun hold => he.before fun hp => hold ?_, fun _ => .inr trivial,
      fun ht => (by cases ht), he.none⟩
    rcases hc with rfl | ⟨n, m, -, rfl⟩
    · exact hp
    · trivial
  | getMin hpc htop => exact he.getMin hs hpc htop
  | @getCurrentTime task now hpc | @getDeadline task now hpc | @notCancelled task now deadline hpc hst
  | @due task now deadline hpc hreq hdue =>
    cases task <;> exact hgo hpc id trivial id
  | @isCancelled task now deadline hpc hst =>
    cases task with
    | task id => exact hgo hpc (fun hc => hc) trivial fun _ => rfl
    | endTask => cases hst
  | @isRequestCancel task now deadline hpc hreq | @noIntervalTask task now hpc hint =>
    cases task <;> exact hgo hpc id trivial id
  | notDue hpc => exact hgo hpc (by cases ‹TimerPtr› <;> exact id) trivial fun ht => by cases ht
  | @isIntervalTask task now hpc hint =>
    cases task with
    | task id => exact hgo hpc (fun hc => hc) trivial fun _ => rfl
    | endTask => cases hint
  | @getInterval task now hpc =>
    cases task with
    | task id => exact hgo hpc (fun hc => hc) trivial fun _ => rfl
    | endTask => exact absurd he.path (by rw [hpc]; exact id)
  | @setDeadline id now interval hpc => exact hgo hpc (fun hc => hc) trivial fun _ => rfl
  | popMinAndPush hpc => exact he.popMinAndPush hf hpc
  | popMin hpc => exact he.popMin hf hpc
  | fire hpc => exact he.fire hpc

theorem compare_endTask (ts : Tasks) (ptr : TimerPtr) : compareTimerTask ts .endTask ptr = false := by
  refine decide_eq_false fun hlt => ?_
  exact absurd (UInt64.lt_iff_toNat_lt.1 hlt) (Nat.not_lt_zero _)

/-- The queue is pushed to while the thread does not hold it. -/
theorem Ending.accept (he : Ending h) {id : ℕ} : Ending (h.accept ts id) := by
  have hcount : (h.accept ts id).queue.count .endTask = h.queue.count .endTask := by
    show (push _ _ _).count _ = _
    rw [count_push, if_neg (by simp), Nat.add_zero]
  have hmem : .endTask ∈ (h.accept ts id).queue ↔ .endTask ∈ h.queue := by
    rw [← List.count_pos_iff, ← List.count_pos_iff, hcount]
  obtain ⟨hpath, hstop, hhas⟩ := @HandlerPc.notify_ending h.pc
  refine ⟨hpath he.path, fun hm => ?_, hcount ▸ he.once, fun hold hm => he.before hold (hmem.1 hm),
    fun hc => (he.after hc).imp hmem.2 hstop, fun ht => he.late (hhas ▸ ht), he.none⟩
  exact top_push_of_not_comp (he.front (hmem.1 hm)) (compare_endTask ts _)

theorem Ending.pushEnd (he : Ending h) {now : Bool} (hcl : h.closer = .pushEnd now)
    (hd : ∀ id, .task id ∈ h.queue → (ts id).deadline ≠ 0) :
    Ending { h.pushTask ts .endTask with closer := .close now } := by
  have hnone : .endTask ∉ h.queue := he.before (by rw [hcl]; exact fun hc => hc)
  have hcount : (push (compareTimerTask ts) h.queue .endTask).count .endTask = 1 := by
    rw [count_push, if_pos rfl, List.count_eq_zero.2 hnone]
  obtain ⟨hpath, hstop, hhas⟩ := @HandlerPc.notify_ending h.pc
  refine ⟨hpath he.path, fun _ => ?_, Nat.le_of_eq hcount, fun hold => absurd trivial hold, fun _ => .inl ?_,
    fun ht => he.late (hhas ▸ ht), he.none⟩
  · -- every other deadline is greater than 0
    refine top_push fun ptr hptr => ?_
    cases ptr with
    | endTask => exact absurd hptr hnone
    | task id =>
      refine decide_eq_true (UInt64.lt_iff_toNat_lt.2 (Nat.pos_of_ne_zero fun hz => hd id hptr ?_))
      exact UInt64.toNat_inj.1 hz
  · exact List.count_pos_iff.1 (hcount ▸ Nat.one_pos)

theorem Ending.move (he : Ending h) (hf : Fronted h) (hs : HandlerSound h)
    (hd : ∀ id, .task id ∈ h.queue → (ts id).deadline ≠ 0) (hm : HandlerMove ts sp h h') : Ending h' := by
  have hclose : ∀ {flag : Bool} {c : HandlerCloserPc}, h.closer.pushed → c.pushed →
      Ending { h with isRequestClose := flag, closer := c } :=
    fun hold hnew => ⟨he.path, he.front, he.once, fun hno => absurd hnew hno, fun _ => he.after hold, he.late,
      he.none⟩
  cases hm with
  | same => exact he
  | next hn => exact he.trans hf hs (handlerTrans_of_next hn)
  | request hreq =>
    have hidle := hs.requested hreq
    exact ⟨he.path, he.front, he.once, fun _ => he.before (by rw [hidle]; exact fun hc => hc),
      fun hc => hc.elim, he.late, he.none⟩
  | accept hfree => exact he.accept
  | closer ht =>
    cases ht with
    | pushEnd hcl hfree => exact he.pushEnd hcl hd
    | closeFail hcl | asyncClose hcl | close hcl => exact hclose (by rw [hcl]; trivial) trivial
    | finished hcl | wait hcl =>
      refine hclose ?_ trivial
      rcases hcl with hcl | ⟨m, hcl⟩ <;> rw [hcl] <;> trivial

/-! ## The tasks that may still be started -/

theorem Handler.due_le {h h' : Handler} (hst : h'.started = h.started)
    (hhas : h'.pc.hasTask = true → h.pc.hasTask = true) : h'.due ≤ h.due := by
  unfold Handler.due
  rw [hst]
  exact Nat.add_le_add_left (Bool.toNat_le_toNat hhas) _

/-- With the close flag set no further task is selected. -/
theorem due_of_trans (hcl : h.isRequestClose = true) (he : Ending h') (ht : HandlerTrans h ts h' ts') :
    h'.due ≤ h.due := by
  have hsame : ∀ {h' : Handler} {pc : HandlerPc}, h'.started = h.started → h.pc = pc →
      (h'.pc.hasTask = true → pc.hasTask = true) → h'.due ≤ h.due :=
    fun hst hpc hhas => Handler.due_le hst fun ht => hpc ▸ hhas ht
  cases ht with
  | leave | empty | nonempty => exact Handler.due_le rfl fun ht => by cases ht
  | start hpc | wait hpc | check hpc | notDue hpc | timedWait hpc | stop hpc | run hpc | runReturn hpc | runThrow hpc
  | finish hpc | notifyFinished hpc => exact hsame rfl hpc fun ht => by cases ht
  | getMin hpc htop =>
    refine hsame rfl hpc fun ht => ?_
    have hlate : h.isRequestClose = false := he.late ht
    exact absurd (hcl.symm.trans hlate) Bool.noConfusion
  | @getCurrentTime task now hpc | @getDeadline task now hpc | @isCancelled task now deadline hpc hst
  | @notCancelled task now deadline hpc hst | @isRequestCancel task now deadline hpc hreq
  | @due task now deadline hpc hreq hdue | @isIntervalTask task now hpc hint
  | @noIntervalTask task now hpc hint | @getInterval task now hpc =>
    cases task <;> exact hsame rfl hpc id
  | setDeadline hpc => exact hsame rfl hpc id
  | @popMinAndPush task hpc =>
    obtain ⟨queue, popped, pushed, heq⟩ := popMinAndPush_eq h ts
    rw [heq]
    cases task <;> exact hsame rfl hpc id
  | @popMin task fired hpc =>
    obtain ⟨queue, popped, heq⟩ := popMin_eq h ts
    rw [heq]
    cases task <;> cases fired <;> exact hsame rfl hpc (fun ht => by first | rfl | cases ht)
  | fire hpc =>
    unfold Handler.due
    rw [hpc]
    exact Nat.le_refl _

theorem due_of_move (hcl : h.isRequestClose = true) (he : Ending h') (hm : HandlerMove ts sp h h') :
    h'.due ≤ h.due := by
  have hpush : ∀ {h' : Handler}, h'.started = h.started → h'.pc = h.pc.notify → h'.due ≤ h.due :=
    fun hst hpc => Handler.due_le hst fun ht => HandlerPc.notify_ending.2.2.symm.trans (hpc ▸ ht)
  cases hm with
  | same | request => exact Nat.le_refl _
  | next hn => exact due_of_trans hcl he (handlerTrans_of_next hn)
  | accept hfree => exact hpush rfl rfl
  | closer ht =>
    cases ht with
    | pushEnd => exact hpush rfl rfl
    | closeFail | asyncClose | close | finished | wait => exact Nat.le_refl _

/-! ## The close flags -/

/-- The handlers whose `ShutDownHelper` the loop has seen return. -/
def CloserPc.passed (n : ℕ) : CloserPc → ℕ → Prop
  | .idle, _ | .setStop _, _ => False
  | .cas i _, j | .helper i _, j => j < i
  | .setShutDown _, j | .returned, j => j < n

theorem CloserPc.passed_loop {i j : ℕ} {now : Bool} (h : (loop n i now).passed n j) : j < i := by
  unfold loop at h
  split_ifs at h with hi
  · exact h
  · exact Nat.lt_of_lt_of_le h (Nat.le_of_not_lt hi)

/-- `Close()` and `AsyncClose()` set the flag. -/
def Closed (h : Handler) : Prop := h.closer.closed → h.isRequestClose = true

theorem isRequestClose_of_move (hm : HandlerMove ts sp h h') (hcl : h.isRequestClose = true) :
    h'.isRequestClose = true := by
  cases hm with
  | next hn => exact (handlerTrans_of_next hn).frame.2.1.trans hcl
  | closer ht => cases ht <;> first | exact hcl | rfl
  | same | request | accept => exact hcl

theorem Closed.move (hc : Closed h) (hm : HandlerMove ts false h h') : Closed h' := by
  intro hcl
  cases hm with
  | same | accept => exact hc hcl
  | request => exact hcl.elim
  | next hn =>
    obtain ⟨-, hflag, -, -, hcloser⟩ := (handlerTrans_of_next hn).frame
    rw [hflag]
    refine hc ?_
    rcases hcloser with heq | ⟨n, m, heq, -⟩
    · exact heq ▸ hcl
    · rw [heq]
      trivial
  | closer ht =>
    cases ht with
    | pushEnd => exact hcl.elim
    | asyncClose | close => rfl
    | closeFail _ hf => exact hf.elim id fun hf => by cases hf
    | finished hold | wait hold =>
      refine hc ?_
      rcases hold with hold | ⟨m, hold⟩ <;> rw [hold] <;> trivial

/-- The close flags are set behind the loop. -/
structure Flagged (n : ℕ) (s : ScheduledThreadPool) : Prop where
  closed : ∀ i, Closed (s.handlers i)
  passed : ∀ i, s.closer.passed n i → (s.handlers i).isRequestClose = true

theorem Flagged.trans (h : Flagged n s) (hd : Handed s) (hsp : a.spurious = false) (ht : Trans n s a t) :
    Flagged n t := by
  have hmove : ∀ i, HandlerMove s.tasks false (s.handlers i) (t.handlers i) := fun i => hsp ▸ handler_move ht i
  refine ⟨fun i => (h.closed i).move (hmove i), fun j hj => ?_⟩
  have hkeep : s.closer.passed n j → (t.handlers j).isRequestClose = true :=
    fun hp => isRequestClose_of_move (hmove j) (h.passed j hp)
  cases ht with
  | setStop hcl => exact absurd (CloserPc.passed_loop hj) (Nat.not_lt_zero j)
  | @skip spurious now i hcl hf =>
    rcases hf with hf | hf
    · rw [hd.fresh i (hcl ▸ Nat.le_refl i)] at hf
      cases hf
    · rw [show spurious = false from hsp] at hf
      cases hf
  | enter hcl | setShutDown hcl => exact hkeep (hcl ▸ hj)
  | @leave spurious now i hcl hret =>
    have hle := CloserPc.passed_loop hj
    by_cases hji : j = i
    · subst hji
      exact h.closed j (by rw [hret]; trivial)
    · exact hkeep (hcl ▸ (show j < i by omega))
  | win => exact hj.elim
  | _ => exact hkeep hj

/-! ## Runs -/

/-- The caller is in an add call, past the test of the request flag. -/
def CallerPc.entered : CallerPc → Prop
  | .addIndex .. | .addNow .. | .addClose .. | .addTest .. | .addDeadline .. | .addInterval .. | .addPush .. => True
  | _ => False

/-- What `ShutDown` promises when it has returned in `s`, for the steps that meet `P`. -/
structure Stops (P : ScheduledThreadPool → Act → Prop) (n : ℕ) (s : ScheduledThreadPool) : Prop where
  /-- a thread starts one further task at most -/
  started : ∀ as t, Run (step n) P s as t → ∀ i < n, (t.handlers i).started ≤ (s.handlers i).started + 1
  /-- and none that it has selected with the close flag set -/
  selected : ∀ as t, Run (step n) P s as t → ∀ i < n, (t.handlers i).lateStarted = 0
  /-- an add call begins with the test of the request flag -/
  begins : ∀ as t, Run (step n) P s as t → ∀ c task kind u, step n t (.add c task kind) = some u →
    u.handlers = t.handlers ∧ u.tasks = t.tasks ∧ u.callers c = .addLoad task kind
  /-- it returns null there, and has changed nothing -/
  refused : ∀ as t, Run (step n) P s as t → ∀ c task kind now sp u, t.callers c = .addLoad task kind →
    step n t (.caller c now sp) = some u → u = t.callerAt c .idle
  /-- so nobody gets past the test -/
  entered : ∀ as t, Run (step n) P s as t → ∀ c, ¬ (s.callers c).entered → ¬ (t.callers c).entered

/-- The handlers are closed by the pool, no task throws, no `compare_exchange_weak` fails spuriously, and no
    deadline is set to 0. -/
def Timely (s : ScheduledThreadPool) (a : Act) : Prop := Regular s a ∧ Pooled s a ∧ Nonzero s a

instance (s : ScheduledThreadPool) (a : Act) : Decidable (Timely s a) := inferInstanceAs (Decidable (_ ∧ _ ∧ _))

theorem Timely.spurious (ha : Timely s a) : a.spurious = false := by
  cases a with
  | handlerCloser | closer | caller => exact ha.1
  | handler | add | addHandler | shutDown | shutDownHandler | cancel => rfl

/-- The handlers while the pool is closed, and before. -/
structure Ends (n : ℕ) (s : ScheduledThreadPool) : Prop where
  handed : Handed s
  flagged : Flagged n s
  sound : ∀ i, HandlerSound (s.handlers i)
  front : ∀ i, Fronted (s.handlers i)
  stocked : ∀ i, Stocked (s.handlers i)
  dated : ∀ id, Dated s id
  ending : ∀ i, Ending (s.handlers i)

theorem Ends.create : Ends n .create where
  handed := .create
  flagged := ⟨fun _ hc => hc.elim, fun _ hp => hp.elim⟩
  sound _ := handlerSound_create
  front _ _ hs := by cases hs
  stocked _ _ := Nat.le_refl _
  dated _ := .create
  ending _ := .create

theorem Ends.nonzero (h : Ends n s) {i id : ℕ} (hmem : .task id ∈ (s.handlers i).queue) :
    (s.tasks id).deadline ≠ 0 := by
  have hcount := Nat.lt_of_lt_of_le (List.count_pos_iff.2 hmem) (h.stocked i id)
  exact (h.dated id).accepted i (List.count_pos_iff.1 hcount)

theorem Ends.trans (h : Ends n s) (ha : Timely s a) (ht : Trans n s a t) : Ends n t := by
  have hmove := handler_move ht
  exact {
    handed := h.handed.trans ha.2.1 ht
    flagged := h.flagged.trans h.handed ha.spurious ht
    sound := fun i => (h.sound i).move (hmove i)
    front := fun i => (h.front i).move (hmove i)
    stocked := fun i => (h.stocked i).move (hmove i)
    dated := fun id => (h.dated id).trans ha.2.2 ht
    ending := fun i => (h.ending i).move (h.front i) (h.sound i) (fun _ hmem => h.nonzero hmem) (hmove i) }

theorem ends_preserved : Preserved (step n) Timely (Ends n) :=
  fun _ _ _ h ha hs => h.trans ha (trans_of_step hs)

/-- With the close flag of a handler set, its thread starts the task it has selected at most. -/
theorem due_run {i : ℕ} {as : List Act} (h : Ends n s) (hcl : (s.handlers i).isRequestClose = true)
    (hrun : Run (step n) Timely s as t) : (t.handlers i).due ≤ (s.handlers i).due := by
  refine hrun.le_of_steps (J := fun s => Ends n s ∧ (s.handlers i).isRequestClose = true)
    (f := fun s => (s.handlers i).due) ?_ ?_ ⟨h, hcl⟩
  · intro u a v hu ha hs
    have ht := trans_of_step hs
    exact ⟨hu.1.trans ha ht, isRequestClose_of_move (handler_move ht i) hu.2⟩
  · intro u a v hu ha hs
    have ht := trans_of_step hs
    exact due_of_move hu.2 ((hu.1.trans ha ht).ending i) (handler_move ht i)

theorem requested_preserved : Preserved (step n) Free fun s => s.isRequestShutDown = true := by
  intro u a v hu _ hs
  cases trans_of_step hs <;> first | exact hu | rfl

/-- Past the request flag nobody enters. -/
theorem entered_preserved (c : ℕ) : PreservedUnder (step n) Pooled (fun s => s.isRequestShutDown = true)
    fun s => ¬ (s.callers c).entered := by
  intro u a v hreq hu ha hs
  have hupd : ∀ {d : ℕ} {pc : CallerPc}, (pc.entered → (u.callers d).entered) →
      ¬ (Function.update u.callers d pc c).entered :=
    fun hpc he => hu (of_update hpc he)
  cases trans_of_step hs with
  | handler | handlerCloser | setStop | skip | enter | leave | setShutDown => exact hu
  | load hc hf => exact absurd (hreq.symm.trans hf) Bool.noConfusion
  | addIndex hc | addNow hc | addClose hc | addTest hc | addInterval hc =>
    exact hupd fun _ => by rw [hc]; trivial
  | addDeadline hc => exact hupd fun _ => by rw [hc]; trivial
  | addHandler | shutDownHandler => exact ha.elim
  | _ => exact hupd fun he => he.elim

theorem shutDown_stops {as : List Act} (h : Run (step n) Timely .create as s) (hret : s.closer = .returned) :
    Stops Timely n s := by
  have hends : Ends n s := h.invariant ends_preserved .create
  have hreq : s.isRequestShutDown = true := hends.handed.requested (by simp [hret])
  have hreq' : ∀ bs t, Run (step n) Timely s bs t → t.isRequestShutDown = true :=
    fun bs t hrun => hrun.free.invariant requested_preserved hreq
  refine ⟨fun bs t hrun i hi => ?_, fun bs t hrun i _ => ?_, fun bs t _ c task kind u hs => ?_,
    fun bs t hrun c task kind now sp u hc hs => ?_, fun bs t hrun c hc => ?_⟩
  · have hcl := hends.flagged.passed i (hret ▸ hi)
    have hdue := due_run hends hcl hrun
    have hone := Bool.toNat_le (s.handlers i).pc.hasTask
    unfold Handler.due at hdue
    omega
  · exact ((hrun.invariant ends_preserved hends).ending i).none
  · cases trans_of_step hs
    exact ⟨rfl, rfl, Function.update_self ..⟩
  · have hflag := hreq' bs t hrun
    simp only [step, callerNext, hc, hflag, Option.some.injEq] at hs
    exact hs.symm
  · exact hrun.invariant_under (requested_preserved.imp fun _ _ _ => trivial)
      (fun u a v hj hi ha hs => entered_preserved c u a v hj hi ha.2.1 hs) hreq hc

/-- The thread has a task to start when `ShutDown` returns. -/
theorem shutDown_stops_selected : ∃ s, Run (step 1) Timely .create
    ([.add 0 (some 7) (.cron 0)] ++ List.replicate 7 (.caller 0 5 false) ++
      List.replicate 10 (.handler 0 5 .returns) ++
      [.shutDown 1 false, .caller 1 5 false, .closer false, .closer false, .handlerCloser 0 false,
        .handlerCloser 0 false, .closer false, .closer false, .caller 1 5 false]) s ∧
    (s.handlers 0).pc = .fire (.task 7) ∧ Stops Timely 1 s := by
  refine exists_run (I := fun s => (s.handlers 0).pc = .fire (.task 7) ∧ s.closer = .returned)
    (by decide +kernel) fun s hrun ⟨hpc, hcl⟩ => ⟨hpc, ?_⟩
  exact shutDown_stops hrun hcl

/-- A task whose deadline is 0 is ahead of the `EndTimerTask`, and is selected with the close flag set. -/
theorem fired_after_close : ¬ ∀ (n : ℕ) (as : List Act) (s : ScheduledThreadPool), 1 ≤ n →
    Run (step n) (fun s a => Regular s a ∧ Pooled s a) .create as s → s.closer = .returned →
    Stops (fun s a => Regular s a ∧ Pooled s a) n s := by
  intro hall
  obtain ⟨s, hrun, hcl, hlater⟩ : ∃ s, Run (step 1) (fun s a => Regular s a ∧ Pooled s a) .create
      ([.add 0 (some 7) (.cron 18446744073709551611)] ++ List.replicate 7 (.caller 0 5 false) ++
        [.handler 0 5 .returns, .shutDown 1 false, .caller 1 5 false, .closer false, .closer false,
          .handlerCloser 0 false] ++ List.replicate 2 (.handler 0 5 .returns) ++
        [.handlerCloser 0 false, .closer false, .closer false, .caller 1 5 false]) s ∧
      s.closer = .returned ∧
      ∃ t ∈ exec (step 1) (fun s a => Regular s a ∧ Pooled s a) s (List.replicate 8 (.handler 0 5 .returns)),
        (t.handlers 0).lateStarted ≠ 0 := exists_run (by decide +kernel) fun _ _ h => h
  obtain ⟨t, hrun', hlate⟩ := exists_run hlater fun _ _ h => h
  exact hlate ((hall 1 _ s (Nat.le_refl 1) hrun hcl).selected _ t hrun' 0 Nat.one_pos)

end ScheduledThreadPool

end Empool
