/-
  What a run of a `ScheduledThreadPool` does to one task over time.

  A `Timeline` is the history of a run: what the clock has said, with what the
  tasks were added, and when they were fired and started.  The runs with their
  timelines are those of `record step Timeline.after`.

  `Booked` is where a task and its users can be if its add calls keep apart
  (`Exclusive`) and no deadline is set to 0 (`Nonzero`), the conditions of
  `admitted_once`.
-/
import Empool.Timer.Order
import Empool.Timer.Cancel
import Empool.Lib.History

namespace Empool

open Lts Heap

variable {h h' : Handler} {ts ts' : Tasks}

/-- The deadline an add call is to set, as an exact sum. -/
def AddKind.due (now : TimeValue) : AddKind → ℕ
  | .cron delay => now.toNat + delay.toNat
  | .cycle interval isRunNow => if isRunNow then now.toNat else now.toNat + interval.toNat

theorem AddKind.toNat_deadline {kind : AddKind} {now : TimeValue} (hsum : kind.due now < 2 ^ 64) :
    (kind.deadline now).toNat = kind.due now := by
  cases kind with
  | cron delay => exact (UInt64.toNat_add ..).trans (Nat.mod_eq_of_lt hsum)
  | cycle interval isRunNow =>
    cases isRunNow with
    | true => rfl
    | false => exact (UInt64.toNat_add ..).trans (Nat.mod_eq_of_lt hsum)

/-! ## The thread and one task -/

/-- The task the thread has selected, is about to run or runs. -/
def HandlerPc.current : HandlerPc → Option TimerPtr
  | .fire task => some task
  | .running id _ => some (.task id)
  | pc => pc.selected

theorem HandlerPc.current_of_selected {pc : HandlerPc} {task : TimerPtr} (hpc : pc.selected = some task) :
    pc.current = some task := by
  cases pc <;> first | exact hpc | cases hpc

theorem HandlerPc.current_notify (pc : HandlerPc) : pc.notify.current = pc.current := by
  cases pc <;> rfl

/-- The statement of the thread is the one that finds a task due and fires it, at the reading it has taken. -/
def Handler.fires (h : Handler) (ts : Tasks) : Option (ℕ × TimeValue) :=
  match h.pc with
  | .isRequestCancel (.task id) now deadline =>
    if (ts id).base.isRequestCancel = false ∧ deadline ≤ now then some (id, now) else none
  | _ => none

/-- The statement of the thread is the one that starts `DoRun()` of a task. -/
def HandlerPc.starts : HandlerPc → Option ℕ
  | .running id .setRunning => some id
  | _ => none

theorem fires_eq_some {id : ℕ} {now : TimeValue} (hf : h.fires ts = some (id, now)) :
    ∃ deadline, h.pc = .isRequestCancel (.task id) now deadline ∧ (ts id).base.isRequestCancel = false ∧
      deadline ≤ now := by
  unfold Handler.fires at hf
  split at hf
  next i now' deadline hpc =>
    split_ifs at hf with hdue
    cases hf
    exact ⟨deadline, hpc, hdue⟩
  next => cases hf

theorem HandlerPc.starts_eq_some {pc : HandlerPc} {id : ℕ} (hs : pc.starts = some id) :
    pc = .running id .setRunning := by
  unfold HandlerPc.starts at hs
  split at hs
  next => exact Option.some.inj hs ▸ rfl
  next => cases hs

namespace ScheduledThreadPool

variable {n : ℕ} {s t : ScheduledThreadPool} {a : Act} {sp : Bool} {id : ℕ}

/-! ## Histories -/

/-- The history of a run; all of it is read by no step of the code. -/
structure Timeline where
  /-- what the clock has said last -/
  clock : TimeValue
  /-- the add call that has set the deadline of the task, with the reading it had taken -/
  added : ℕ → Option (AddKind × TimeValue)
  /-- the readings at which the task was found due and fired, the last one first -/
  fired : ℕ → List TimeValue
  /-- the readings at which `DoRun()` of the task was started, the last one first -/
  started : ℕ → List TimeValue

def Timeline.create : Timeline where
  clock := 0
  added := fun _ => none
  fired := fun _ => []
  started := fun _ => []

/-- `f` with the event `x` in front, if there is one. -/
def prepend (x : Option (ℕ × TimeValue)) (f : ℕ → List TimeValue) (id : ℕ) : List TimeValue :=
  match x with
  | some (i, now) => if i = id then now :: f id else f id
  | none => f id

/-- The history after a step. -/
def Timeline.after (l : Timeline) (s : ScheduledThreadPool) : Act → Timeline
  | .handler i now _ =>
    { l with
      clock := now
      fired := prepend ((s.handlers i).fires s.tasks) l.fired
      started := prepend ((s.handlers i).pc.starts.map fun id => (id, now)) l.started }
  | .caller c now _ =>
    { l with
      clock := now
      added := match (s.callers c).dates with
        | some (id, kind, reading) => Function.update l.added id (some (kind, reading))
        | none => l.added }
  | _ => l

theorem prepend_of_ne {x : Option (ℕ × TimeValue)} {f : ℕ → List TimeValue} (hx : ∀ now, x ≠ some (id, now)) :
    prepend x f id = f id := by
  unfold prepend
  split
  next i now =>
    rw [if_neg]
    rintro rfl
    exact hx now rfl
  next => rfl

theorem prepend_self {now : TimeValue} {f : ℕ → List TimeValue} :
    prepend (some (id, now)) f id = now :: f id := if_pos rfl

/-- The clock does not go back. -/
def Forward (p : Timeline × ScheduledThreadPool) : Act → Prop
  | .handler _ now _ | .caller _ now _ => p.1.clock ≤ now
  | _ => True

instance (p : Timeline × ScheduledThreadPool) : ∀ a, Decidable (Forward p a)
  | .handler _ now _ | .caller _ now _ => inferInstanceAs (Decidable (p.1.clock ≤ now))
  | .handlerCloser .. | .closer _ | .add .. | .addHandler .. | .shutDown .. | .shutDownHandler ..
  | .cancel .. => isTrue trivial

/-- The deadline an add call sets does not wrap around. -/
def AddExact (s : ScheduledThreadPool) : Act → Prop
  | .caller c _ _ => ∀ call ∈ (s.callers c).dates, call.2.1.due call.2.2 < 2 ^ 64
  | _ => True

instance (s : ScheduledThreadPool) : ∀ a, Decidable (AddExact s a)
  | .caller c _ _ => inferInstanceAs (Decidable (∀ call ∈ (s.callers c).dates, call.2.1.due call.2.2 < 2 ^ 64))
  | .handler .. | .handlerCloser .. | .closer _ | .add .. | .addHandler .. | .shutDown ..
  | .shutDownHandler .. | .cancel .. => isTrue trivial

theorem added_after (l : Timeline) (hno : ¬ Dates s id a) : (l.after s a).added id = l.added id := by
  cases a with
  | caller c now spurious =>
    cases hc : (s.callers c).dates with
    | none => simp only [Timeline.after, hc]
    | some call =>
      have hid : id ≠ call.1 := fun heq => hno ⟨call.2, by rw [hc, heq]⟩
      simp only [Timeline.after, hc]
      exact Function.update_of_ne hid ..
  | _ => rfl

theorem clock_le_after {l : Timeline} (hfw : Forward (l, s) a) : l.clock ≤ (l.after s a).clock := by
  cases a with
  | handler i now e => exact hfw
  | caller c now spurious => exact hfw
  | _ => exact UInt64.le_refl _

/-! ## Where a task is -/

theorem Admitted.not_accepted (h : Admitted n s id) {c i : ℕ} (hc : (s.callers c).admits = some id) (hi : i < n) :
    id ∉ (s.handlers i).accepted := by
  have hzero := h.none_yet c hc
  rw [successes, Finset.sum_eq_zero_iff] at hzero
  exact List.count_eq_zero.1 (hzero i (Finset.mem_range.2 hi))

theorem Admitted.count_le (h : Admitted n s id) {i : ℕ} (hi : i < n) : (s.handlers i).accepted.count id ≤ 1 :=
  Nat.le_trans (Finset.single_le_sum (f := fun i => (s.handlers i).accepted.count id)
    (fun _ _ => Nat.zero_le _) (Finset.mem_range.2 hi)) h.once

/-- An accepted task is with one handler. -/
theorem Admitted.place (h : Admitted n s id) {i j : ℕ} (hi : i < n) (hj : j < n)
    (hacci : id ∈ (s.handlers i).accepted) (haccj : id ∈ (s.handlers j).accepted) : i = j := by
  by_contra hij
  have hle : ∑ k ∈ {i, j}, (s.handlers k).accepted.count id ≤ successes n s id := by
    refine Finset.sum_le_sum_of_subset fun k hk => ?_
    rcases Finset.mem_insert.1 hk with rfl | hk
    · exact Finset.mem_range.2 hi
    · rw [Finset.mem_singleton.1 hk]
      exact Finset.mem_range.2 hj
  rw [Finset.sum_pair hij] at hle
  have hone := h.once
  have hposi := List.count_pos_iff.2 hacci
  have hposj := List.count_pos_iff.2 haccj
  omega

/-- The thread is busy with accepted tasks only. -/
def Engaged (h : Handler) : Prop := ∀ id, h.pc.current = some (.task id) → id ∈ h.accepted

theorem Engaged.move (he : Engaged h) (hs : Stocked h) (hm : HandlerMove ts sp h h') : Engaged h' := by
  intro id hid
  cases hm with
  | same | request => exact he id hid
  | accept =>
    refine List.mem_cons_of_mem _ (he id ?_)
    rwa [← HandlerPc.current_notify]
  | closer ht =>
    cases ht with
    | pushEnd =>
      refine he id ?_
      rwa [← HandlerPc.current_notify]
    | closeFail | asyncClose | close | finished | wait => exact he id hid
  | next hn =>
    have ht := handlerTrans_of_next hn
    rw [ht.frame.2.2.1]
    cases ht with
    | getMin hpc htop =>
      cases hid
      exact List.count_pos_iff.1
        (Nat.lt_of_lt_of_le (List.count_pos_iff.2 (List.mem_of_mem_head? htop)) (hs id))
    | @popMin task fired hpc =>
      cases fired with
      | true =>
        cases hid
        exact he id (by rw [hpc]; rfl)
      | false => cases hid
    | getCurrentTime hpc | getDeadline hpc | isCancelled hpc | notCancelled hpc | isRequestCancel hpc
    | due hpc | isIntervalTask hpc | noIntervalTask hpc | getInterval hpc | setDeadline hpc
    | popMinAndPush hpc | fire hpc | run hpc =>
      cases hid
      exact he id (by rw [hpc]; rfl)
    | _ => cases hid

/-- Each task is admitted once at most, each queue holds accepted tasks, and each thread is busy with such. -/
structure Booked (n : ℕ) (s : ScheduledThreadPool) : Prop where
  dated : ∀ id, Dated s id
  admitted : ∀ id, Admitted n s id
  stocked : ∀ i, Stocked (s.handlers i)
  front : ∀ i, Fronted (s.handlers i)
  engaged : ∀ i, Engaged (s.handlers i)

theorem Booked.create : Booked n .create where
  dated _ := .create
  admitted _ := .create
  stocked _ _ := Nat.le_refl _
  front _ _ hs := by cases hs
  engaged _ _ hs := by cases hs

theorem Booked.trans (h : Booked n s) (hex : Exclusive s a) (hnz : Nonzero s a) (ht : Trans n s a t) :
    Booked n t where
  dated id := (h.dated id).trans hnz ht
  admitted id := (h.admitted id).trans (h.dated id) hex ht
  stocked i := (h.stocked i).move (handler_move ht i)
  front i := (h.front i).move (handler_move ht i)
  engaged i := (h.engaged i).move (h.stocked i) (handler_move ht i)

theorem booked_preserved : Preserved (step n) (fun s a => Exclusive s a ∧ Nonzero s a) (Booked n) :=
  fun _ _ _ h ha hs => h.trans ha.1 ha.2 (trans_of_step hs)

/-- No thread is busy with a task that is in its add call. -/
theorem Booked.not_current (h : Booked n s) {c i : ℕ} (hc : (s.callers c).admits = some id) (hi : i < n) :
    (s.handlers i).pc.current ≠ some (.task id) :=
  fun hcur => (h.admitted id).not_accepted hc hi (h.engaged i id hcur)

/-- The deadline of an accepted task is left alone by all but the thread of its handler. -/
theorem Booked.deadline (h : Booked n s) (ht : Trans n s a t) {i : ℕ} (hi : i < n)
    (hacc : id ∈ (s.handlers i).accepted) (ha : ∀ now e, a ≠ .handler i now e) :
    (t.tasks id).deadline = (s.tasks id).deadline := by
  refine ht.deadline fun hset => ?_
  cases a with
  | handler j now e =>
    obtain ⟨now', interval, hpc⟩ := hset
    have hj : j < n := by
      cases ht with
      | handler hj => exact hj
    have hin := h.engaged j id (by rw [hpc]; rfl)
    exact ha now e (by rw [(h.admitted id).place hi hj hacc hin])
  | caller c now spurious =>
    obtain ⟨j, kind, now', hc⟩ := hset
    exact (h.admitted id).not_accepted (by rw [hc]; rfl) hi hacc
  | _ => exact hset

/-- An accepted task stays accepted. -/
theorem accepted_of_move (hm : HandlerMove ts sp h h') (hacc : id ∈ h.accepted) : id ∈ h'.accepted := by
  cases hm with
  | same | request => exact hacc
  | next hn =>
    rw [(handlerTrans_of_next hn).frame.2.2.1]
    exact hacc
  | closer ht =>
    rw [HandlerCloserTrans.accepted ht]
    exact hacc
  | accept => exact List.mem_cons_of_mem _ hacc

/-! ## The add call of a task -/

/-- An add call has set the deadline of the task. -/
def Known (n : ℕ) (s : ScheduledThreadPool) (id : ℕ) : Prop :=
  (∃ i < n, id ∈ (s.handlers i).accepted) ∨ ∃ c, (s.callers c).dated = some id

theorem known_of_trans (ht : Trans n s a t) (hno : ¬ Dates s id a) (hk : Known n t id) : Known n s id := by
  rcases hk with ⟨i, hi, hacc⟩ | ⟨c, hc⟩
  · rcases ht.accepted_of hacc with hold | ⟨c, -, -, -, hc, -⟩
    · exact .inl ⟨i, hi, hold⟩
    · exact .inr ⟨c, by rw [hc]; rfl⟩
  · exact .inr ⟨c, ht.dated_of hno hc⟩

theorem added_after_self (l : Timeline) {c : ℕ} {now : TimeValue} {call : AddKind × TimeValue}
    (hc : (s.callers c).dates = some (id, call)) : (l.after s (.caller c now sp)).added id = some call := by
  simp only [Timeline.after, hc]
  exact Function.update_self ..

/-- The history has the add call of each task whose deadline has been set. -/
def Recorded (n : ℕ) (l : Timeline) (s : ScheduledThreadPool) : Prop :=
  ∀ id, Known n s id → ∃ call, l.added id = some call

theorem Recorded.create : Recorded n .create .create := by
  rintro id (⟨i, -, hi⟩ | ⟨c, hc⟩)
  · cases hi
  · cases hc

theorem Recorded.trans {l : Timeline} (h : Recorded n l s) (ht : Trans n s a t) : Recorded n (l.after s a) t := by
  intro id hk
  by_cases hd : Dates s id a
  · cases a with
    | caller c now spurious =>
      obtain ⟨call, hc⟩ := hd
      exact ⟨call, added_after_self l hc⟩
    | _ => exact hd.elim
  · rw [added_after l hd]
    exact h id (known_of_trans ht hd hk)

theorem recorded_preserved {P : Timeline × ScheduledThreadPool → Act → Prop} :
    Preserved (record (step n) Timeline.after) P fun p => Recorded n p.1 p.2 := by
  rintro ⟨l, s⟩ a ⟨l', t⟩ hr - hs
  obtain ⟨hst, rfl⟩ := record_eq_some.1 hs
  exact hr.trans (trans_of_step hst)

end ScheduledThreadPool

end Empool
