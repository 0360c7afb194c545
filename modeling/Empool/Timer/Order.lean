/-
  The queue of a handler serves the task with the least deadline, and loses none.

  A cycle task gets its next deadline while it is at the front of the heap, and
  is popped and pushed after that.  The heap is then in order but for its front,
  which `pop` does not look at (`OrderedExcept.pop`).  All other changes of a
  deadline are made to tasks that are in no queue, if each task is added by one
  call (`Fresh`).

  * `Single`: where the task of an add call is;
  * `Sorted`: the order of a handler's heap;
  * `earliest_first` is the result on whole runs.
-/
import Empool.Timer.Admission

namespace Empool

open Lts Heap

variable {h h' : Handler} {ts ts' : Tasks}

/-! ## The comparison -/

theorem compareTimerTask_negTrans (ts : Tasks) : NegTrans (compareTimerTask ts) := by
  intro x y z hxy hyz
  simp only [compareTimerTask, decide_eq_false_iff_not, gt_iff_lt, UInt64.not_lt] at hxy hyz ⊢
  exact UInt64.le_trans hxy hyz

theorem compareTimerTask_asymm (ts : Tasks) : Asymm (compareTimerTask ts) := by
  intro x y hxy
  simp only [compareTimerTask, decide_eq_true_eq, decide_eq_false_iff_not, gt_iff_lt, UInt64.not_lt] at hxy ⊢
  exact UInt64.le_of_lt hxy

/-- The comparison reads the deadlines of its arguments. -/
theorem compareTimerTask_congr {x y : TimerPtr} (hx : ∀ id, x = .task id → (ts' id).deadline = (ts id).deadline)
    (hy : ∀ id, y = .task id → (ts' id).deadline = (ts id).deadline) :
    compareTimerTask ts' x y = compareTimerTask ts x y := by
  have hget : ∀ {ptr : TimerPtr}, (∀ id, ptr = .task id → (ts' id).deadline = (ts id).deadline) →
      (ts'.get ptr).deadline = (ts.get ptr).deadline := by
    intro ptr hptr
    cases ptr with
    | task id => exact hptr id rfl
    | endTask => rfl
  rw [compareTimerTask, compareTimerTask, hget hx, hget hy]

/-- The thread sets the deadline of a task in one statement. -/
theorem HandlerTrans.deadline_eq {id : ℕ} (ht : HandlerTrans h ts h' ts')
    (hno : ∀ now interval, h.pc ≠ .setDeadline (.task id) now interval) :
    (ts' id).deadline = (ts id).deadline := by
  cases ht with
  | @setDeadline i now interval hpc =>
    have hid : id ≠ i := by
      rintro rfl
      exact hno now interval hpc
    rw [Function.update_of_ne hid]
  | run | runReturn | runThrow => exact apply_update_of_eq (by rfl) id
  | _ => rfl

/-! ## One handler -/

/-- The task that the thread has got from `GetMin` and not popped yet. -/
def HandlerPc.selected : HandlerPc → Option TimerPtr
  | .getCurrentTime task | .getDeadline task _ | .isCancelled task _ _ | .isRequestCancel task _ _
  | .isIntervalTask task _ | .getInterval task _ | .setDeadline task _ _ | .popMinAndPush task
  | .popMin task _ => some task
  | _ => none

/-- The front of the queue has been given another deadline in place. -/
def HandlerPc.stale : HandlerPc → Bool
  | .popMinAndPush _ => true
  | _ => false

/-- The thread has seen that the queue is not empty, and has still to call `GetMin`. -/
def HandlerPc.nonempty : HandlerPc → Prop
  | .check | .getMin => True
  | _ => False

/-- While the queue is free, the thread is not between `IsEmpty` and the pop. -/
theorem HandlerPc.free {pc : HandlerPc} (hfree : pc.holds = false) :
    pc.stale = false ∧ pc.notify.selected = none ∧ ¬ pc.notify.nonempty := by
  cases pc with
  | start | lock | wait | timedWait | fire | running | finish | notifyFinished | ended | escaped =>
    exact ⟨rfl, rfl, id⟩
  | checkEmpty | check | getMin | getCurrentTime | getDeadline | isCancelled | isRequestCancel
  | isIntervalTask | getInterval | setDeadline | popMinAndPush | popMin => cases hfree

theorem HandlerPc.not_selected_of_free {pc : HandlerPc} {task : TimerPtr} (hfree : pc.holds = false) :
    pc.notify.selected ≠ some task := by
  rw [(HandlerPc.free hfree).2.1]
  exact nofun

theorem HandlerPc.selected_notify (pc : HandlerPc) : pc.notify.selected = pc.selected := by
  cases pc <;> rfl

/-- The selected task is at the front of the queue. -/
def Fronted (h : Handler) : Prop := ∀ task, h.pc.selected = some task → top h.queue = some task

theorem Fronted.trans (hf : Fronted h) (ht : HandlerTrans h ts h' ts') : Fronted h' := by
  intro u hu
  cases ht with
  | getMin hpc htop =>
    cases hu
    exact htop
  | getCurrentTime hpc | getDeadline hpc | isCancelled hpc | notCancelled hpc | isRequestCancel hpc
  | due hpc | isIntervalTask hpc | noIntervalTask hpc | getInterval hpc | setDeadline hpc =>
    cases hu
    exact hf _ (by rw [hpc]; rfl)
  | @popMin task fired hpc => cases fired <;> cases hu
  | _ => cases hu

theorem Fronted.move {sp : Bool} (hf : Fronted h) (hm : ScheduledThreadPool.HandlerMove ts sp h h') :
    Fronted h' := by
  have hpush : ∀ {ptr : TimerPtr}, h.pc.holds = false → Fronted (h.pushTask ts ptr) := by
    exact fun hfree u hu => absurd hu (HandlerPc.not_selected_of_free hfree)
  cases hm with
  | same | request => exact hf
  | next hn => exact hf.trans (handlerTrans_of_next hn)
  | accept hfree => exact hpush hfree
  | closer ht =>
    cases ht with
    | pushEnd hcl hfree => exact hpush hfree
    | closeFail | asyncClose | close | finished | wait => exact hf

/-- The queue is in order, but for a stale front. -/
structure Sorted (ts : Tasks) (h : Handler) : Prop where
  order : h.pc.stale = false → Ordered (compareTimerTask ts) h.queue
  rest : OrderedExcept (compareTimerTask ts) h.queue 0
  nonempty : h.pc.nonempty → h.queue ≠ []

theorem Sorted.create : Sorted ts .create where
  order _ := .nil
  rest := Ordered.nil.except 0
  nonempty hn := hn.elim

/-- The thread moves, and leaves the queue and the deadlines. -/
theorem Sorted.goto (hs : Sorted ts h) {pc : HandlerPc} (hst : h.pc.stale = false)
    (hne : pc.nonempty → h.queue ≠ []) : Sorted ts (h.goto pc) where
  order _ := hs.order hst
  rest := hs.rest
  nonempty := hne

/-- The deadlines of tasks that are not in the queue change. -/
theorem Sorted.tasks (hs : Sorted ts h)
    (hd : ∀ id, .task id ∈ h.queue → (ts' id).deadline = (ts id).deadline) : Sorted ts' h := by
  have hcomp : ∀ x ∈ h.queue, ∀ y ∈ h.queue, compareTimerTask ts' x y = compareTimerTask ts x y :=
    fun x hx y hy => compareTimerTask_congr (fun id heq => hd id (heq ▸ hx)) fun id heq => hd id (heq ▸ hy)
  refine ⟨fun hst => (hs.order hst).congr hcomp, ?_, hs.nonempty⟩
  exact hs.rest.congr_tail fun x hx y hy => hcomp x (List.mem_of_mem_tail hx) y (List.mem_of_mem_tail hy)

theorem Sorted.of_ordered (hord : Ordered (compareTimerTask ts) h.queue) (hne : ¬ h.pc.nonempty) :
    Sorted ts h where
  order _ := hord
  rest := hord.except 0
  nonempty hn := absurd hn hne

theorem ordered_push {q : List TimerPtr} {ptr : TimerPtr} (hord : Ordered (compareTimerTask ts) q) :
    Ordered (compareTimerTask ts) (push (compareTimerTask ts) q ptr) :=
  hord.push (compareTimerTask_negTrans ts) fun x _ => compareTimerTask_asymm ts x ptr

/-- The front of a heap in order has the least deadline. -/
theorem le_of_top {q : List TimerPtr} {x y : TimerPtr} (hord : Ordered (compareTimerTask ts) q)
    (htop : top q = some x) (hy : y ∈ q) : (ts.get x).deadline ≤ (ts.get y).deadline := by
  rcases hord.top (compareTimerTask_negTrans ts) htop hy with rfl | hcomp
  · exact UInt64.le_refl _
  · simpa [compareTimerTask] using hcomp

theorem popMin_queue (h : Handler) (ts : Tasks) :
    (h.popMin ts).queue = pop (compareTimerTask ts) h.queue := by
  unfold Handler.popMin
  cases htop : top h.queue with
  | none =>
    have hnil : h.queue = [] := List.head?_eq_none_iff.1 htop
    show h.queue = _
    rw [hnil]
    rfl
  | some x => rfl

theorem popMinAndPush_queue {x : TimerPtr} (htop : top h.queue = some x) : (h.popMinAndPush ts).queue =
    push (compareTimerTask ts) (pop (compareTimerTask ts) h.queue) x := by
  unfold Handler.popMinAndPush
  rw [htop]

theorem mem_push {q : List TimerPtr} {x ptr : TimerPtr} :
    ptr ∈ push (compareTimerTask ts) q x ↔ ptr = x ∨ ptr ∈ q := by
  rw [(push_perm ..).mem_iff, List.mem_cons]

theorem mem_popMinAndPush {x : TimerPtr} (htop : top h.queue = some x) (ptr : TimerPtr) :
    ptr ∈ (h.popMinAndPush ts).queue ↔ ptr ∈ h.queue := by
  have hpop := count_pop ts htop ptr
  rw [popMinAndPush_queue htop, ← List.count_pos_iff, ← List.count_pos_iff, count_push]
  omega

theorem mem_popMin {x : TimerPtr} (htop : top h.queue = some x) {ptr : TimerPtr} :
    (ptr ∈ (h.popMin ts).queue → ptr ∈ h.queue) ∧ (ptr ∈ h.queue → ptr = x ∨ ptr ∈ (h.popMin ts).queue) := by
  have hpop := count_pop ts htop ptr
  rw [popMin_queue, ← List.count_pos_iff, ← List.count_pos_iff]
  refine ⟨fun hmem => by omega, fun hmem => ?_⟩
  by_cases hx : x = ptr
  · exact .inl hx.symm
  · rw [if_neg hx] at hpop
    exact .inr (by omega)

/-- `pop` puts the heap in order, also if its front is stale. -/
theorem Sorted.ordered_pop (hs : Sorted ts h) :
    Ordered (compareTimerTask ts) (pop (compareTimerTask ts) h.queue) :=
  hs.rest.pop (compareTimerTask_negTrans ts) (compareTimerTask_asymm ts)

/-- A statement of the thread; in the queue each task occurs once. -/
theorem Sorted.trans (hs : Sorted ts h) (hf : Fronted h) (hone : ∀ id, h.queue.count (.task id) ≤ 1)
    (ht : HandlerTrans h ts h' ts') : Sorted ts' h' := by
  have hbase : ∀ {id : ℕ} {b : TaskBase} {h : Handler}, Sorted ts h →
      Sorted (Function.update ts id { ts id with base := b }) h := by
    intro id b h hs
    exact hs.tasks fun id' _ => apply_update_of_eq (by rfl) id'
  have hmove : ∀ {pc pc' : HandlerPc}, h.pc = pc → pc.stale = false → ¬ pc'.nonempty → Sorted ts (h.goto pc') :=
    fun hpc hst hne => hs.goto (hpc ▸ hst) fun hn => absurd hn hne
  cases ht with
  | leave hpc hcl =>
    cases hp : h.pc <;> rw [hp] at hpc <;> first | exact hmove hp rfl id | cases hpc
  | empty hpc hq =>
    cases hp : h.pc <;> rw [hp] at hpc <;> first | exact hmove hp rfl id | cases hpc
  | check hpc hcl => exact hs.goto (by rw [hpc]; rfl) fun _ => hs.nonempty (hpc ▸ trivial)
  | nonempty hpc hq =>
    refine hs.goto ?_ fun _ => hq
    cases hp : h.pc <;> rw [hp] at hpc <;> first | rfl | cases hpc
  | getMin hpc htop => exact ⟨fun _ => hs.order (by rw [hpc]; rfl), hs.rest, fun hn => hn.elim⟩
  | start hpc | wait hpc | notDue hpc | timedWait hpc | stop hpc | getCurrentTime hpc | getDeadline hpc
  | isCancelled hpc | notCancelled hpc | isRequestCancel hpc | due hpc | isIntervalTask hpc
  | noIntervalTask hpc | getInterval hpc =>
    exact hmove hpc rfl id
  | @setDeadline id now interval hpc =>
    have htop := hf (.task id) (by rw [hpc]; rfl)
    -- the front is the only element whose deadline changes
    have hrest : TimerPtr.task id ∉ h.queue.tail := by
      intro hmem
      have hcons : h.queue = .task id :: h.queue.tail := (List.cons_head?_tail htop).symm
      have hle := hone id
      rw [hcons, List.count_cons_self] at hle
      have := List.count_pos_iff.2 hmem
      omega
    have hsame : ∀ x ∈ h.queue.tail, ∀ id', x = .task id' →
        (Function.update ts id { ts id with deadline := now + interval } id').deadline = (ts id').deadline := by
      rintro x hx id' rfl
      have hne : id' ≠ id := fun heq => hrest (heq ▸ hx)
      rw [Function.update_of_ne hne]
    refine ⟨fun hst => (by cases hst), ?_, fun hn => hn.elim⟩
    exact hs.rest.congr_tail fun x hx y hy => compareTimerTask_congr (hsame x hx) (hsame y hy)
  | @popMinAndPush task hpc =>
    have htop := hf task (by rw [hpc]; rfl)
    refine .of_ordered ?_ id
    show Ordered _ (h.popMinAndPush ts).queue
    rw [popMinAndPush_queue htop]
    exact ordered_push hs.ordered_pop
  | @popMin task fired hpc =>
    refine .of_ordered ?_ (by cases fired <;> exact id)
    show Ordered _ (h.popMin ts).queue
    rw [popMin_queue]
    exact hs.ordered_pop
  | fire hpc => exact .of_ordered (hs.order (by rw [hpc]; rfl)) id
  | run hpc | runReturn hpc | runThrow hpc => exact hbase (hmove hpc rfl id)
  | finish hpc | notifyFinished hpc => exact .of_ordered (hs.order (by rw [hpc]; rfl)) id

namespace ScheduledThreadPool

variable {n : ℕ} {s t : ScheduledThreadPool} {a : Act} {sp : Bool} {id : ℕ}

/-! ## Fresh tasks -/

/-- The task of the add call in which the caller is. -/
def CallerPc.adding : CallerPc → Option ℕ
  | .addLoad task _ => task
  | .addIndex id _ | .addNow _ id _ | .addClose _ id _ _ | .addTest _ id _ _ | .addDeadline _ id _ _
  | .addInterval _ id _ | .addPush _ id => some id
  | _ => none

/-- Each add call is made with a task of its own, which nobody has added before. -/
def Fresh (s : ScheduledThreadPool) : Act → Prop
  | .add _ task _ => ∀ id, task = some id → id ∉ s.called
  | .addHandler _ _ id _ => id ∉ s.called
  | _ => True

instance (s : ScheduledThreadPool) : ∀ a, Decidable (Fresh s a)
  | .add _ none _ => isTrue fun _ hid => by cases hid
  | .add _ (some id) _ =>
    decidable_of_iff (id ∉ s.called) ⟨fun h _ hid => Option.some.inj hid ▸ h, fun h => h id rfl⟩
  | .addHandler _ _ id _ => inferInstanceAs (Decidable (id ∉ s.called))
  | .handler .. | .handlerCloser .. | .closer _ | .caller .. | .shutDown .. | .shutDownHandler ..
  | .cancel .. => isTrue trivial

/-- The task is in its add call, or in the queue of one handler at most. -/
structure Single (s : ScheduledThreadPool) (id : ℕ) : Prop where
  calls : ∀ c d, (s.callers c).adding = some id → (s.callers d).adding = some id → c = d
  fresh : ∀ c, (s.callers c).adding = some id → ∀ i, id ∉ (s.handlers i).accepted
  once : ∀ i, (s.handlers i).accepted.count id ≤ 1
  place : ∀ i j, id ∈ (s.handlers i).accepted → id ∈ (s.handlers j).accepted → i = j
  known : id ∉ s.called → (∀ c, (s.callers c).adding ≠ some id) ∧ ∀ i, id ∉ (s.handlers i).accepted

theorem Single.create : Single .create id where
  calls c d hc := by cases hc
  fresh c hc := by cases hc
  once i := Nat.zero_le _
  place i j hi := by cases hi
  known _ := ⟨fun c hc => (by cases hc), fun i hi => (by cases hi)⟩

/-- Steps in which no add call begins or ends, and those in which one is refused. -/
theorem Single.keep (h : Single s id) (hadd : ∀ c, (t.callers c).adding = some id → (s.callers c).adding = some id)
    (hacc : ∀ i, (t.handlers i).accepted = (s.handlers i).accepted) (hcalled : t.called = s.called) :
    Single t id where
  calls c d hc hd := h.calls c d (hadd c hc) (hadd d hd)
  fresh c hc i := hacc i ▸ h.fresh c (hadd c hc) i
  once i := hacc i ▸ h.once i
  place i j hi hj := h.place i j (hacc i ▸ hi) (hacc j ▸ hj)
  known hid := by
    obtain ⟨hno, hnone⟩ := h.known (hcalled ▸ hid)
    exact ⟨fun c hc => hno c (hadd c hc), fun i => hacc i ▸ hnone i⟩

/-- The caller `c` calls for the tasks `ids`, at most one of them. -/
theorem Single.begin {c : ℕ} {pc : CallerPc} (h : Single s id) (ids : List ℕ) (hids : id ∈ ids → id ∉ s.called)
    (hpc : pc.adding = some id → id ∈ ids) :
    Single { s.callerAt c pc with called := ids ++ s.called } id := by
  by_cases hid : pc.adding = some id
  · obtain ⟨hno, hnone⟩ := h.known (hids (hpc hid))
    have honly : ∀ d, (Function.update s.callers c pc d).adding = some id → d = c :=
      fun d => eq_of_update (P := fun pc => CallerPc.adding pc = some id) hno
    refine ⟨fun d d' hd hd' => (honly d hd).trans (honly d' hd').symm, fun d _ => hnone, h.once, h.place,
      fun hcalled => ?_⟩
    exact absurd (List.mem_append_left _ (hpc hid)) hcalled
  · have hkeep : Single (s.callerAt c pc) id :=
      h.keep (fun d => update_callers fun hp => absurd hp hid) (fun _ => rfl) rfl
    exact ⟨hkeep.calls, hkeep.fresh, hkeep.once, hkeep.place,
      fun hcalled => hkeep.known fun hin => hcalled (List.mem_append_right _ hin)⟩

/-- The add call of the task `id'` pushes it and returns success. -/
theorem Single.push {c i id' : ℕ} (h : Single s id) (hc : s.callers c = .addPush i id') :
    Single ((s.setHandler i ((s.handlers i).accept s.tasks id')).callerAt c .idle) id := by
  have hadding : id' = id → (s.callers c).adding = some id := by
    rintro rfl
    rw [hc]
    rfl
  have hadd : ∀ d, (Function.update s.callers c .idle d).adding = some id →
      (s.callers d).adding = some id ∧ d ≠ c := by
    intro d hd
    rcases cases_update (P := fun pc => CallerPc.adding pc = some id) hd with ⟨-, hd⟩ | ⟨hdc, hd⟩
    · cases hd
    · exact ⟨hd, hdc⟩
  have hacc : ∀ j, id ∈ (Function.update s.handlers i ((s.handlers i).accept s.tasks id') j).accepted →
      id ∈ (s.handlers j).accepted ∨ id' = id ∧ j = i := by
    intro j hj
    rcases cases_update (P := fun h : Handler => id ∈ h.accepted) hj with ⟨rfl, hj⟩ | ⟨-, hj⟩
    · rcases List.mem_cons.1 hj with heq | hold
      · exact .inr ⟨heq.symm, rfl⟩
      · exact .inl hold
    · exact .inl hj
  refine ⟨fun d d' hd hd' => h.calls d d' (hadd d hd).1 (hadd d' hd').1, fun d hd j hj => ?_, fun j => ?_,
    fun j j' hj hj' => ?_, fun hcalled => ?_⟩
  · obtain ⟨hd, hdc⟩ := hadd d hd
    rcases hacc j hj with hold | ⟨hid, -⟩
    · exact h.fresh d hd j hold
    · exact hdc (h.calls d c hd (hadding hid))
  · show (Function.update s.handlers i ((s.handlers i).accept s.tasks id') j).accepted.count id ≤ 1
    by_cases hji : j = i
    · subst hji
      rw [Function.update_self]
      show (id' :: _).count id ≤ 1
      by_cases hid : id' = id
      · rw [hid, List.count_cons_self, List.count_eq_zero.2 (h.fresh c (hadding hid) j)]
      · rw [List.count_cons_of_ne hid]
        exact h.once j
    · rw [Function.update_of_ne hji]
      exact h.once j
  · rcases hacc j hj with hold | ⟨hid, rfl⟩
    · rcases hacc j' hj' with hold' | ⟨hid, -⟩
      · exact h.place j j' hold hold'
      · exact absurd hold (h.fresh c (hadding hid) j)
    · rcases hacc j' hj' with hold' | ⟨-, rfl⟩
      · exact absurd hold' (h.fresh c (hadding hid) j')
      · rfl
  · obtain ⟨hno, hnone⟩ := h.known hcalled
    refine ⟨fun d hd => hno d (hadd d hd).1, fun j hj => ?_⟩
    rcases hacc j hj with hold | ⟨hid, -⟩
    · exact hnone j hold
    · exact hno c (hadding hid)

theorem Single.trans (h : Single s id) (ha : Fresh s a) (ht : Trans n s a t) : Single t id := by
  cases ht with
  | handler hi hs =>
    exact h.keep (fun _ hc => hc) (accepted_setHandler (handlerTrans_of_next hs).frame.2.2.1) rfl
  | handlerCloser hs =>
    exact h.keep (fun _ hc => hc) (accepted_setHandler (HandlerCloserTrans.accepted hs)) rfl
  | setStop | skip | leave | setShutDown => exact h.keep (fun _ hc => hc) (fun _ => rfl) rfl
  | enter => exact h.keep (fun _ hc => hc) (accepted_setHandler (s := s) rfl) rfl
  | handlerWin =>
    exact h.keep (fun d => update_callers fun hp => by cases hp) (accepted_setHandler (s := s) rfl) rfl
  | load hc | addIndex hc | addNow hc | addClose hc | addTest hc | addInterval hc =>
    exact h.keep (fun d => update_callers fun hp => (congrArg CallerPc.adding hc).trans hp) (fun _ => rfl) rfl
  | addDeadline hc hpc =>
    refine h.keep (fun d => update_callers fun hp => (congrArg CallerPc.adding hc).trans ?_) (fun _ => rfl) rfl
    rcases hpc with rfl | ⟨interval, rfl⟩ <;> exact hp
  | addPush hc => exact h.push hc
  | @add c task kind hc =>
    refine h.begin task.toList (fun hmem => ha id ?_) fun hp => ?_
    · simpa using hmem
    · have hp' : task = some id := hp
      simp [hp']
  | @addHandler c i id' kind hc hi =>
    refine h.begin [id'] (fun hmem => ?_) fun hp => ?_
    · rw [List.mem_singleton.1 hmem]
      exact ha
    · exact List.mem_singleton.2 (Option.some.inj hp).symm
  | _ => exact h.keep (fun d => update_callers fun hp => by cases hp) (fun _ => rfl) rfl

/-! ## The order of the heaps -/

/-- The step sets the deadline of the task `id`. -/
def SetsDeadline (s : ScheduledThreadPool) (id : ℕ) : Act → Prop
  | .handler i _ _ => ∃ now interval, (s.handlers i).pc = .setDeadline (.task id) now interval
  | .caller c _ _ => ∃ i kind now, s.callers c = .addDeadline i id kind now
  | _ => False

theorem Trans.deadline (ht : Trans n s a t) (hno : ¬ SetsDeadline s id a) :
    (t.tasks id).deadline = (s.tasks id).deadline := by
  cases ht with
  | handler hi hs =>
    exact (handlerTrans_of_next hs).deadline_eq fun now interval hpc => hno ⟨now, interval, hpc⟩
  | @addDeadline c now now' spurious i id' kind pc hc hpc =>
    refine congrArg TimerTask.deadline (Function.update_of_ne ?_ ..)
    rintro rfl
    exact hno ⟨i, kind, now', hc⟩
  | addInterval | cancelStore | cancelReturn | cancelWait => exact deadline_setTask (s := s) (by rfl)
  | _ => rfl

/-- Each task is in one place, each queue holds accepted tasks, and the selected one at its front. -/
structure Placed (s : ScheduledThreadPool) : Prop where
  single : ∀ id, Single s id
  stocked : ∀ i, Stocked (s.handlers i)
  front : ∀ i, Fronted (s.handlers i)

theorem Placed.create : Placed .create where
  single _ := .create
  stocked _ _ := Nat.le_refl _
  front _ _ hs := by cases hs

theorem Placed.mem_accepted (h : Placed s) {i : ℕ} (hmem : .task id ∈ (s.handlers i).queue) :
    id ∈ (s.handlers i).accepted :=
  List.count_pos_iff.1 (Nat.lt_of_lt_of_le (List.count_pos_iff.2 hmem) (h.stocked i id))

theorem Placed.count_le (h : Placed s) (i id : ℕ) : (s.handlers i).queue.count (.task id) ≤ 1 :=
  Nat.le_trans (h.stocked i id) ((h.single id).once i)

/-- The queues of all handlers are in order. -/
def AllSorted (s : ScheduledThreadPool) : Prop := ∀ i, Sorted s.tasks (s.handlers i)

/-- What a step is for a handler: a statement of its thread, a push into its queue, or neither. -/
inductive HandlerView (n : ℕ) (s : ScheduledThreadPool) (a : Act) (t : ScheduledThreadPool) (j : ℕ) : Prop
  | own {now : TimeValue} {e : DoRunEnd} (hj : j < n) (ha : a = .handler j now e)
      (hs : (s.handlers j).next s.tasks now e = some (t.handlers j, t.tasks))
  | keep (ha : ∀ now e, a ≠ .handler j now e) (hpc : (t.handlers j).pc = (s.handlers j).pc)
      (hq : (t.handlers j).queue = (s.handlers j).queue) (hacc : (t.handlers j).accepted = (s.handlers j).accepted)
  | push (ptr : TimerPtr) (hfree : (s.handlers j).pc.holds = false)
      (hpc : (t.handlers j).pc = (s.handlers j).pc.notify)
      (hq : (t.handlers j).queue = Heap.push (compareTimerTask s.tasks) (s.handlers j).queue ptr)
      (hacc : ∀ id, ptr = .task id → (t.handlers j).accepted = id :: (s.handlers j).accepted)
      (hts : t.tasks = s.tasks)

/-- The handler `i` changes, and no task. -/
theorem view_setHandler {i j : ℕ} (ht : t.handlers = Function.update s.handlers i h) (hts : t.tasks = s.tasks)
    (ha : ∀ j now e, a ≠ .handler j now e)
    (hv : (h.pc = (s.handlers i).pc ∧ h.queue = (s.handlers i).queue ∧ h.accepted = (s.handlers i).accepted) ∨
      ∃ ptr, (s.handlers i).pc.holds = false ∧ h.pc = (s.handlers i).pc.notify ∧
        h.queue = Heap.push (compareTimerTask s.tasks) (s.handlers i).queue ptr ∧
        ∀ id, ptr = .task id → h.accepted = id :: (s.handlers i).accepted) : HandlerView n s a t j := by
  by_cases hj : j = i
  · subst hj
    have hself : t.handlers j = h := by
      rw [ht]
      exact Function.update_self ..
    rcases hv with ⟨hpc, hq, hacc⟩ | ⟨ptr, hfree, hpc, hq, hacc⟩
    · exact .keep (ha j) (hself ▸ hpc) (hself ▸ hq) (hself ▸ hacc)
    · exact .push ptr hfree (hself ▸ hpc) (hself ▸ hq) (hself ▸ hacc) hts
  · have hother : t.handlers j = s.handlers j := by
      rw [ht]
      exact Function.update_of_ne hj ..
    exact .keep (ha j) (by rw [hother]) (by rw [hother]) (by rw [hother])

theorem Trans.view (ht : Trans n s a t) (j : ℕ) : HandlerView n s a t j := by
  cases ht with
  | @handler i now e h' ts' hi hs =>
    by_cases hj : j = i
    · subst hj
      refine .own hi rfl ?_
      show _ = some (Function.update s.handlers j h' j, ts')
      rwa [Function.update_self]
    · have hother : Function.update s.handlers i h' j = s.handlers j := Function.update_of_ne hj ..
      refine .keep (fun now' e' heq => ?_) (congrArg Handler.pc hother) (congrArg Handler.queue hother)
        (congrArg Handler.accepted hother)
      cases heq
      exact hj rfl
  | @handlerCloser i spurious h' hc =>
    refine view_setHandler rfl rfl nofun ?_
    cases hc with
    | pushEnd hcl hfree => exact .inr ⟨.endTask, hfree, rfl, rfl, nofun⟩
    | closeFail | asyncClose | close | finished | wait => exact .inl ⟨rfl, rfl, rfl⟩
  | enter | handlerWin => exact view_setHandler rfl rfl nofun (.inl ⟨rfl, rfl, rfl⟩)
  | @addPush c now spurious i id hc hfree =>
    refine view_setHandler rfl rfl nofun (.inr ⟨.task id, hfree, rfl, rfl, ?_⟩)
    rintro _ ⟨⟩
    rfl
  | _ => exact .keep nofun rfl rfl rfl

/-- The deadlines in a queue are left alone by all but the thread of the handler. -/
theorem Placed.deadline (hp : Placed s) (ht : Trans n s a t) {j : ℕ} (ha : ∀ now e, a ≠ .handler j now e)
    (hmem : .task id ∈ (s.handlers j).queue) : (t.tasks id).deadline = (s.tasks id).deadline := by
  refine ht.deadline fun hset => ?_
  cases a with
  | handler i now e =>
    obtain ⟨now', interval, hpc⟩ := hset
    have hfront := List.mem_of_mem_head? (hp.front i (.task id) (by rw [hpc]; rfl))
    exact ha now e (by rw [(hp.single id).place j i (hp.mem_accepted hmem) (hp.mem_accepted hfront)])
  | caller c now spurious =>
    obtain ⟨i, kind, now', hc⟩ := hset
    exact (hp.single id).fresh c (by rw [hc]; rfl) j (hp.mem_accepted hmem)
  | _ => exact hset

theorem AllSorted.trans (hs : AllSorted s) (hp : Placed s) (ht : Trans n s a t) : AllSorted t := by
  intro j
  cases ht.view j with
  | own hj ha hn => exact (hs j).trans (hp.front j) (hp.count_le j) (handlerTrans_of_next hn)
  | keep ha hpc hq =>
    have hkept : Sorted t.tasks (s.handlers j) := (hs j).tasks fun id hmem => hp.deadline ht ha hmem
    exact ⟨hpc ▸ hq ▸ hkept.order, hq ▸ hkept.rest, hpc ▸ hq ▸ hkept.nonempty⟩
  | push ptr hfree hpc hq hacc hts =>
    rw [hts]
    refine .of_ordered ?_ ?_
    · rw [hq]
      exact ordered_push ((hs j).order (HandlerPc.free hfree).1)
    · rw [hpc]
      exact (HandlerPc.free hfree).2.2

/-! ## The contents of the queues -/

/-- The queue holds what was pushed and not popped, and each accepted task was pushed. -/
structure Balanced (h : Handler) : Prop where
  balance : ∀ ptr, h.queue.count ptr + h.popped.count ptr = h.pushed.count ptr
  pushed : ∀ id ∈ h.accepted, .task id ∈ h.pushed

theorem Balanced.pushTask {ptr : TimerPtr} (hb : Balanced h) : Balanced (h.pushTask ts ptr) where
  balance u := by
    show (push _ _ _).count u + h.popped.count u = (ptr :: h.pushed).count u
    have hbal := hb.balance u
    rw [count_push, List.count_cons]
    by_cases hu : ptr = u
    · subst hu
      simp
      omega
    · simp [hu]
      exact hbal
  pushed id hid := List.mem_cons_of_mem _ (hb.pushed id hid)

theorem Balanced.popMin (hb : Balanced h) : Balanced (h.popMin ts) := by
  unfold Handler.popMin
  cases htop : top h.queue with
  | none => exact hb
  | some x =>
    refine ⟨fun u => ?_, hb.pushed⟩
    show (pop _ _).count u + (x :: h.popped).count u = _
    have hbal := hb.balance u
    have hpop := count_pop ts htop u
    rw [List.count_cons]
    by_cases hu : x = u
    · subst hu
      simp at hpop ⊢
      omega
    · simp [hu] at hpop ⊢
      omega

theorem Balanced.popMinAndPush (hb : Balanced h) : Balanced (h.popMinAndPush ts) := by
  unfold Handler.popMinAndPush
  cases htop : top h.queue with
  | none => exact hb
  | some x =>
    refine ⟨fun u => ?_, fun id hid => List.mem_cons_of_mem _ (hb.pushed id hid)⟩
    show (push _ _ _).count u + (x :: h.popped).count u = (x :: h.pushed).count u
    have hbal := hb.balance u
    have hpop := count_pop ts htop u
    rw [count_push, List.count_cons, List.count_cons, hpop]
    simp only [beq_iff_eq]
    omega

theorem Balanced.move (hb : Balanced h) (hm : HandlerMove ts sp h h') : Balanced h' := by
  cases hm with
  | same => exact hb
  | request => exact ⟨hb.balance, hb.pushed⟩
  | next hn =>
    cases handlerTrans_of_next hn with
    | popMin =>
      have hpop : Balanced (h.popMin ts) := hb.popMin
      exact ⟨hpop.balance, hpop.pushed⟩
    | popMinAndPush =>
      have hpop : Balanced (h.popMinAndPush ts) := hb.popMinAndPush
      exact ⟨hpop.balance, hpop.pushed⟩
    | _ => exact ⟨hb.balance, hb.pushed⟩
  | closer ht =>
    cases ht with
    | pushEnd =>
      have hpush : Balanced (h.pushTask ts .endTask) := hb.pushTask
      exact ⟨hpush.balance, hpush.pushed⟩
    | closeFail | asyncClose | close | finished | wait => exact ⟨hb.balance, hb.pushed⟩
  | @accept id hfree =>
    have hpush : Balanced (h.pushTask ts (.task id)) := hb.pushTask
    refine ⟨hpush.balance, fun id' hid => ?_⟩
    rcases List.mem_cons.1 hid with rfl | hid
    · exact List.mem_cons_self
    · exact hpush.pushed id' hid

/-! ## Runs -/

theorem placed_preserved : Preserved (step n) Fresh Placed :=
  fun _ _ _ h ha hs => ⟨fun id => (h.single id).trans ha (trans_of_step hs),
    fun i => (h.stocked i).move (handler_move (trans_of_step hs) i),
    fun i => (h.front i).move (handler_move (trans_of_step hs) i)⟩

theorem allSorted_preserved : PreservedUnder (step n) Fresh Placed AllSorted :=
  fun _ _ _ hp hs _ hst => hs.trans hp (trans_of_step hst)

theorem earliest_first {as : List Act} (h : Run (step n) Fresh .create as s) (i : ℕ) :
    ((s.handlers i).pc = .getMin → ∃ task, top (s.handlers i).queue = some task ∧
      ∀ x ∈ (s.handlers i).queue, (s.tasks.get task).deadline ≤ (s.tasks.get x).deadline) ∧
    (∀ ptr, (s.handlers i).queue.count ptr + (s.handlers i).popped.count ptr =
      (s.handlers i).pushed.count ptr) ∧
    ∀ id ∈ (s.handlers i).accepted, .task id ∉ (s.handlers i).popped →
      (s.handlers i).queue.count (.task id) = 1 := by
  have hplaced : Placed s := h.invariant placed_preserved .create
  have hsorted : AllSorted s :=
    h.invariant_under placed_preserved allSorted_preserved .create fun _ => .create
  have hbal : Balanced (s.handlers i) := h.invariant (I := fun s => Balanced (s.handlers i))
    (fun _ _ _ hb _ hs => hb.move (handler_move (trans_of_step hs) i))
    ⟨fun _ => rfl, fun _ hid => by cases hid⟩
  refine ⟨fun hpc => ?_, hbal.balance, fun id hid hpop => ?_⟩
  · have hord := (hsorted i).order (by rw [hpc]; rfl)
    cases htop : top (s.handlers i).queue with
    | none => exact absurd (List.head?_eq_none_iff.1 htop) ((hsorted i).nonempty (hpc ▸ trivial))
    | some task =>
      exact ⟨task, rfl, fun x hx => le_of_top hord htop hx⟩
  · have hle := hplaced.count_le i id
    have hsum := hbal.balance (.task id)
    rw [List.count_eq_zero.2 hpop] at hsum
    have hpos := List.count_pos_iff.2 (hbal.pushed id hid)
    omega

/-- A cycle task has been fired and is behind the other task now. -/
theorem earliest_first_again : ∃ s, Run (step 1) Fresh .create
    ([.addHandler 0 0 7 (.cycle 3 true)] ++ List.replicate 6 (.caller 0 5 false) ++
      [.addHandler 0 0 8 (.cron 1)] ++ List.replicate 5 (.caller 0 5 false) ++
      List.replicate 20 (.handler 0 5 .returns)) s ∧
    (s.handlers 0).pc = .getMin ∧ (s.handlers 0).queue = [.task 8, .task 7] ∧
    ∃ task, top (s.handlers 0).queue = some task ∧
      ∀ x ∈ (s.handlers 0).queue, (s.tasks.get task).deadline ≤ (s.tasks.get x).deadline := by
  refine exists_run (I := fun s => (s.handlers 0).pc = .getMin ∧ (s.handlers 0).queue = [.task 8, .task 7])
    (by decide +kernel) fun s hrun ⟨hpc, hq⟩ => ⟨hpc, hq, ?_⟩
  exact (earliest_first hrun 0).1 hpc

end ScheduledThreadPool

end Empool
