/-
  The thread of a handler does not oversleep.

  A thread that is blocked and not notified has seen the queue as it is: it
  found the queue empty, or it computed its delay from the deadline of the
  front.  All that others can do to a queue meanwhile is to push into it, and a
  push notifies the thread.

  * `Alert`: what the thread knows of its queue;
  * `never_oversleeps` is the result on whole runs.
-/
import Empool.Timer.Order

namespace Empool

open Lts Heap

variable {h h' : Handler} {ts ts' : Tasks}

/-- Blocked on the condition of the queue, and not notified. -/
def HandlerPc.asleep : HandlerPc → Bool
  | .wait notified | .timedWait _ _ notified => !notified
  | _ => false

theorem HandlerPc.asleep_notify (pc : HandlerPc) : pc.notify.asleep = false := by
  cases pc <;> rfl

theorem HandlerPc.asleep_cases {pc : HandlerPc} (hpc : pc.asleep = true) :
    pc = .wait false ∨ ∃ now deadline, pc = .timedWait now deadline false := by
  cases pc with
  | wait notified =>
    cases notified with
    | false => exact .inl rfl
    | true => cases hpc
  | timedWait now deadline notified =>
    cases notified with
    | false => exact .inr ⟨now, deadline, rfl⟩
    | true => cases hpc
  | _ => cases hpc

/-- The thread has found the queue empty, and nobody has pushed since. -/
def HandlerPc.foundEmpty : HandlerPc → Prop
  | .checkEmpty | .wait false => True
  | _ => False

/-- The selected task, and the deadline that has been read from it. -/
def HandlerPc.read : HandlerPc → Option (TimerPtr × TimeValue)
  | .isCancelled task _ deadline | .isRequestCancel task _ deadline => some (task, deadline)
  | _ => none

theorem HandlerPc.selected_of_read {pc : HandlerPc} {task : TimerPtr} {deadline : TimeValue}
    (hpc : pc.read = some (task, deadline)) : pc.selected = some task := by
  cases pc <;> cases hpc <;> rfl

/-- A push leaves the thread knowing nothing of the queue. -/
theorem HandlerPc.free_notify {pc : HandlerPc} (hfree : pc.holds = false) :
    ¬ pc.notify.foundEmpty ∧ pc.notify.read = none := by
  cases pc with
  | start | lock | wait | timedWait | fire | running | finish | notifyFinished | ended | escaped =>
    exact ⟨id, rfl⟩
  | checkEmpty | check | getMin | getCurrentTime | getDeadline | isCancelled | isRequestCancel
  | isIntervalTask | getInterval | setDeadline | popMinAndPush | popMin => cases hfree

/-- What the thread knows of its queue is so. -/
structure Alert (ts : Tasks) (h : Handler) : Prop where
  empty : h.pc.foundEmpty → h.queue = []
  read : ∀ task deadline, h.pc.read = some (task, deadline) → (ts.get task).deadline = deadline
  timed : ∀ now deadline, h.pc = .timedWait now deadline false →
    now < deadline ∧ ∃ task, top h.queue = some task ∧ (ts.get task).deadline = deadline

/-- The thread is where it knows nothing of the queue. -/
theorem Alert.blind (hempty : ¬ h.pc.foundEmpty) (hread : h.pc.read = none) (hsleep : h.pc.asleep = false) :
    Alert ts h where
  empty hpc := absurd hpc hempty
  read task deadline hpc := by rw [hread] at hpc; cases hpc
  timed now deadline hpc := by rw [hpc] at hsleep; cases hsleep

theorem Alert.create : Alert ts .create := .blind id rfl rfl

/-- The deadlines of tasks that are not in the queue change. -/
theorem Alert.tasks (ha : Alert ts h) (hf : Fronted h)
    (hd : ∀ id, .task id ∈ h.queue → (ts' id).deadline = (ts id).deadline) : Alert ts' h := by
  have hget : ∀ {task}, top h.queue = some task → (ts'.get task).deadline = (ts.get task).deadline := by
    intro task htop
    cases task with
    | task id => exact hd id (List.mem_of_mem_head? htop)
    | endTask => rfl
  refine ⟨ha.empty, fun task deadline hpc => ?_, fun now deadline hpc => ?_⟩
  · rw [hget (hf task (HandlerPc.selected_of_read hpc))]
    exact ha.read task deadline hpc
  · obtain ⟨hlt, task, htop, hdl⟩ := ha.timed now deadline hpc
    exact ⟨hlt, task, htop, (hget htop).trans hdl⟩

/-- A statement of the thread. -/
theorem Alert.trans (ha : Alert ts h) (hf : Fronted h) (ht : HandlerTrans h ts h' ts') : Alert ts' h' := by
  cases ht with
  | empty hpc hq => exact ⟨fun _ => hq, fun _ _ hr => (by cases hr), fun _ _ hw => (by cases hw)⟩
  | wait hpc hcl =>
    exact ⟨fun _ => ha.empty (hpc ▸ trivial), fun _ _ hr => (by cases hr), fun _ _ hw => (by cases hw)⟩
  | getDeadline hpc =>
    refine ⟨fun he => he.elim, fun task' deadline hr => ?_, fun _ _ hw => (by cases hw)⟩
    cases hr
    rfl
  | @notCancelled task now deadline hpc hst =>
    refine ⟨fun he => he.elim, fun task' deadline' hr => ?_, fun _ _ hw => (by cases hw)⟩
    cases hr
    exact ha.read task deadline (by rw [hpc]; rfl)
  | @notDue task now deadline hpc hreq hdue =>
    refine ⟨fun he => he.elim, fun _ _ hr => (by cases hr), fun now' deadline' hw => ?_⟩
    cases hw
    refine ⟨UInt64.not_le.1 hdue, task, hf task (by rw [hpc]; rfl), ?_⟩
    exact ha.read task deadline (by rw [hpc]; rfl)
  | @popMin task fired hpc => cases fired <;> exact .blind id rfl rfl
  | _ => exact .blind id rfl rfl

namespace ScheduledThreadPool

variable {n : ℕ} {s t : ScheduledThreadPool} {a : Act} {sp : Bool}

def AllAlert (s : ScheduledThreadPool) : Prop := ∀ i, Alert s.tasks (s.handlers i)

theorem AllAlert.trans (ha : AllAlert s) (hp : Placed s) (ht : Trans n s a t) : AllAlert t := by
  intro j
  cases ht.view j with
  | own hj hact hn => exact (ha j).trans (hp.front j) (handlerTrans_of_next hn)
  | keep hact hpc hq =>
    have hkept : Alert t.tasks (s.handlers j) := (ha j).tasks (hp.front j) fun id hmem => hp.deadline ht hact hmem
    exact ⟨hpc ▸ hq ▸ hkept.empty, hpc ▸ hkept.read, hpc ▸ hq ▸ hkept.timed⟩
  | push ptr hfree hpc hq hacc hts =>
    obtain ⟨hempty, hread⟩ := HandlerPc.free_notify hfree
    exact .blind (hpc ▸ hempty) (hpc ▸ hread) (hpc ▸ HandlerPc.asleep_notify _)

theorem allAlert_preserved : PreservedUnder (step n) Fresh Placed AllAlert :=
  fun _ _ _ hp ha _ hst => ha.trans hp (trans_of_step hst)

/-- A step that pushes into a queue leaves the thread of the handler notified, or at work. -/
theorem awake_of_push (hm : HandlerMove ts sp h h') (hpush : h'.pushed ≠ h.pushed) : h'.pc.asleep = false := by
  cases hm with
  | same | request => exact absurd rfl hpush
  | accept => exact HandlerPc.asleep_notify _
  | closer ht =>
    cases ht with
    | pushEnd => exact HandlerPc.asleep_notify _
    | closeFail | asyncClose | close | finished | wait => exact absurd rfl hpush
  | next hn =>
    cases handlerTrans_of_next hn with
    | popMinAndPush => rfl
    | @popMin task fired hpc => cases fired <;> rfl
    | _ => exact absurd rfl hpush

theorem never_oversleeps {as : List Act} (h : Run (step n) Fresh .create as s) (i : ℕ) :
    ((s.handlers i).pc.asleep = true →
      ((s.handlers i).pc = .wait false ∧ (s.handlers i).queue = []) ∨
      ∃ now deadline, (s.handlers i).pc = .timedWait now deadline false ∧ now < deadline ∧
        (∃ task ∈ (s.handlers i).queue, (s.tasks.get task).deadline = deadline) ∧
        ∀ x ∈ (s.handlers i).queue, deadline ≤ (s.tasks.get x).deadline) ∧
    ∀ a t, step n s a = some t → (t.handlers i).pushed ≠ (s.handlers i).pushed →
      (t.handlers i).pc.asleep = false := by
  have hplaced : Placed s := h.invariant placed_preserved .create
  have hsorted : AllSorted s :=
    h.invariant_under placed_preserved allSorted_preserved .create fun _ => .create
  have halert : AllAlert s := h.invariant_under placed_preserved allAlert_preserved .create fun _ => .create
  refine ⟨fun hsleep => ?_, fun a t hs => awake_of_push (handler_move (trans_of_step hs) i)⟩
  rcases HandlerPc.asleep_cases hsleep with hpc | ⟨now, deadline, hpc⟩
  · exact .inl ⟨hpc, (halert i).empty (by rw [hpc]; trivial)⟩
  · obtain ⟨hlt, task, htop, hd⟩ := (halert i).timed now deadline hpc
    refine .inr ⟨now, deadline, hpc, hlt, ⟨task, List.mem_of_mem_head? htop, hd⟩, fun x hx => ?_⟩
    have hord := (hsorted i).order (by rw [hpc]; rfl)
    rw [← hd]
    exact le_of_top hord htop hx

/-- The second task is pushed while the thread sleeps on the deadline of the first, which is later. -/
theorem never_oversleeps_again : ∃ s, Run (step 1) Fresh .create
    ([.addHandler 0 0 7 (.cron 9)] ++ List.replicate 5 (.caller 0 5 false) ++
      List.replicate 8 (.handler 0 6 .returns) ++
      [.addHandler 0 0 8 (.cron 5)] ++ List.replicate 5 (.caller 0 5 false) ++
      List.replicate 8 (.handler 0 6 .returns)) s ∧
    (s.handlers 0).pc.asleep = true ∧ (s.handlers 0).queue = [.task 8, .task 7] ∧
    ∃ now deadline, (s.handlers 0).pc = .timedWait now deadline false ∧ now < deadline ∧
      (∃ task ∈ (s.handlers 0).queue, (s.tasks.get task).deadline = deadline) ∧
      ∀ x ∈ (s.handlers 0).queue, deadline ≤ (s.tasks.get x).deadline := by
  refine exists_run (I := fun s => (s.handlers 0).pc.asleep = true ∧ (s.handlers 0).queue = [.task 8, .task 7])
    (by decide +kernel) fun s hrun ⟨hsleep, hq⟩ => ⟨hsleep, hq, ?_⟩
  rcases (never_oversleeps hrun 0).1 hsleep with ⟨-, hnil⟩ | htimed
  · rw [hq] at hnil
    cases hnil
  · exact htimed

end ScheduledThreadPool

end Empool
