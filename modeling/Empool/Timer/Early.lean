/-
  A handler fires no task early.

  An add call reads the clock as `t` and stores `t + delay`, modulo `2 ^ 64`.
  If the sum does not wrap around (`AddExact`), then up to that time the handler
  holds the task back: it has read no earlier deadline from it and decided to
  fire it at most to cancel it (`Held`).  If it does, the stored deadline is
  early by `2 ^ 64`: `fires_early`.
-/
import Empool.Timer.Timeline

namespace Empool

open Lts Heap TaskBase

variable {h h' : Handler} {ts ts' : Tasks} {id b : ℕ} {req : Bool}

/-! ## The thread -/

/-- The reading of the clock that the thread is to compare with the deadline. -/
def HandlerPc.reading : HandlerPc → Option TimeValue
  | .getDeadline _ now | .isCancelled _ now _ | .isRequestCancel _ now _ => some now
  | _ => none

theorem HandlerPc.reading_notify (pc : HandlerPc) : pc.notify.reading = pc.reading := by
  cases pc <;> rfl

theorem reading_of_next {now : TimeValue} {e : DoRunEnd} (hs : h.next ts now e = some (h', ts')) {r : TimeValue}
    (hr : h'.pc.reading = some r) : r = now ∨ h.pc.reading = some r := by
  cases handlerTrans_of_next hs with
  | @getCurrentTime task now' hpc =>
    cases hr
    have hs : some (h.goto (.getDeadline task now), ts) = some (h.goto (.getDeadline task r), ts) := by
      rw [← hs, Handler.next, hpc]
    have hgoto := congrArg (fun p => p.1.pc.reading) (Option.some.inj hs)
    exact .inl (Option.some.inj hgoto).symm
  | getDeadline hpc | notCancelled hpc =>
    cases hr
    exact .inr (by rw [hpc]; rfl)
  | @popMin task fired hpc => cases fired <;> cases hr
  | _ => cases hr

/-- The thread has read from the task no deadline before `b`, and fires it at most to cancel it. -/
def HandlerPc.patient (b : ℕ) (req : Bool) (id : ℕ) : HandlerPc → Prop
  | .isCancelled task _ deadline | .isRequestCancel task _ deadline => task = .task id → b ≤ deadline.toNat
  | .isIntervalTask task _ | .getInterval task _ | .setDeadline task _ _ | .popMinAndPush task => task ≠ .task id
  | .popMin task true | .fire task => task = .task id → req = true
  | .running i .checkCancellation => i = id → req = true
  | .running i .setRunning => i ≠ id
  | _ => True

theorem HandlerPc.patient_notify {pc : HandlerPc} (hp : pc.patient b req id) : pc.notify.patient b req id := by
  cases pc <;> exact hp

theorem HandlerPc.patient_of_not_current {pc : HandlerPc} (hcur : pc.current ≠ some (.task id)) :
    pc.patient b req id := by
  have hne : ∀ {task : TimerPtr}, pc.current = some task → task ≠ .task id :=
    fun heq htask => hcur (htask ▸ heq)
  cases pc with
  | isCancelled task | isRequestCancel task => exact fun htask => absurd htask (hne rfl)
  | isIntervalTask | getInterval | setDeadline | popMinAndPush => exact hne rfl
  | popMin task fired =>
    cases fired with
    | true => exact fun htask => absurd htask (hne rfl)
    | false => trivial
  | fire task => exact fun htask => absurd htask (hne rfl)
  | running i p =>
    have hi : i ≠ id := fun heq => hne rfl (congrArg TimerPtr.task heq)
    cases p with
    | checkCancellation => exact fun heq => absurd heq hi
    | setRunning => exact hi
    | doRun | setFinished | setCancelled | notify => trivial
  | start | lock | checkEmpty | wait | check | getMin | getCurrentTime | getDeadline | timedWait | finish
  | notifyFinished | ended | escaped => trivial

theorem HandlerPc.patient_mono {pc : HandlerPc} {req' : Bool} (hreq : req = true → req' = true)
    (hp : pc.patient b req id) : pc.patient b req' id := by
  cases pc with
  | popMin task fired =>
    cases fired with
    | true => exact fun htask => hreq (hp htask)
    | false => trivial
  | fire task => exact fun htask => hreq (hp htask)
  | running i p =>
    cases p with
    | checkCancellation => exact fun heq => hreq (hp heq)
    | setRunning | doRun | setFinished | setCancelled | notify => exact hp
  | _ => exact hp

/-- The thread withdraws no request. -/
theorem HandlerTrans.isRequestCancel_eq (ht : HandlerTrans h ts h' ts') (id : ℕ) :
    (ts' id).base.isRequestCancel = (ts id).base.isRequestCancel := by
  rcases ht.run_cases id with ⟨heq, -⟩ | ⟨pc, r, -, hrun, -⟩
  · rw [heq]
  · exact hrun.isRequestCancel

/-- A statement of the thread, while the clock has not reached `b`. -/
theorem HandlerTrans.patient (ht : HandlerTrans h ts h' ts') (hp : h.pc.patient b (ts id).base.isRequestCancel id)
    (hd : h.pc.selected = some (.task id) → b ≤ (ts id).deadline.toNat)
    (hr : ∀ now, h.pc.reading = some now → now.toNat < b) :
    h'.pc.patient b (ts' id).base.isRequestCancel id := by
  rw [ht.isRequestCancel_eq id]
  cases ht with
  | getDeadline hpc =>
    rintro rfl
    exact hd (by rw [hpc]; rfl)
  | notCancelled hpc =>
    rw [hpc] at hp
    exact hp
  | isRequestCancel hpc hreq =>
    rintro rfl
    exact hreq
  | @due task now deadline hpc hreq hdue =>
    rintro rfl
    rw [hpc] at hp hr
    have hlt := hr now rfl
    have hle := hp rfl
    have := UInt64.le_iff_toNat_le.1 hdue
    omega
  | isIntervalTask hpc | getInterval hpc | setDeadline hpc =>
    rw [hpc] at hp
    exact hp
  | noIntervalTask hpc | popMinAndPush hpc =>
    rw [hpc] at hp
    exact fun htask => absurd htask hp
  | @popMin task fired hpc =>
    rw [hpc] at hp
    cases fired with
    | true => exact hp
    | false => trivial
  | fire hpc =>
    rw [hpc] at hp
    exact fun heq => hp (congrArg TimerPtr.task heq)
  | @run i pc pc' e base hpc hrun =>
    rw [hpc] at hp
    show (HandlerPc.running i pc').patient b _ id
    cases runTrans_of_run hrun with
    | clear hreq =>
      rintro rfl
      exact absurd ((hp rfl).symm.trans hreq) Bool.noConfusion
    | cancelled | setRunning | returns | cancelException | setFinished | setCancelled => trivial
  | _ => trivial

namespace ScheduledThreadPool

variable {n : ℕ} {s t : ScheduledThreadPool} {a : Act} {l : Timeline}

/-! ## One task -/

/-- The task is not fired before `b`. -/
structure Held (n : ℕ) (b : ℕ) (s : ScheduledThreadPool) (id : ℕ) : Prop where
  deadline : Known n s id → b ≤ (s.tasks id).deadline.toNat
  patient : ∀ i < n, (s.handlers i).pc.patient b (s.tasks id).base.isRequestCancel id

/-- The readings with which the threads compare deadlines are before `b`. -/
def Before (b : ℕ) (s : ScheduledThreadPool) : Prop :=
  ∀ i now, (s.handlers i).pc.reading = some now → now.toNat < b

theorem Held.deadline_eq (hh : Held n b s id) (hno : ¬ Dates s id a) (ht : Trans n s a t) :
    (t.tasks id).deadline = (s.tasks id).deadline := by
  refine ht.deadline fun hset => ?_
  cases a with
  | handler i now e =>
    obtain ⟨now', interval, hpc⟩ := hset
    cases ht with
    | handler hi hs =>
      have hp := hh.patient i hi
      rw [hpc] at hp
      exact hp rfl
  | caller c now spurious =>
    obtain ⟨i, kind, now', hc⟩ := hset
    exact hno ⟨(kind, now'), by rw [hc]; rfl⟩
  | _ => exact hset

theorem Held.trans (hh : Held n b s id) (hbook : Booked n s) (hbefore : Before b s) (hno : ¬ Dates s id a)
    (ht : Trans n s a t) : Held n b t id := by
  have hreq : (s.tasks id).base.isRequestCancel = true → (t.tasks id).base.isRequestCancel = true := ht.requested
  refine ⟨fun hk => ?_, fun i hi => ?_⟩
  · rw [hh.deadline_eq hno ht]
    exact hh.deadline (known_of_trans ht hno hk)
  · cases ht.view i with
    | own hj ha hs =>
      refine (handlerTrans_of_next hs).patient (hh.patient i hi) (fun hsel => hh.deadline ?_) (hbefore i)
      exact .inl ⟨i, hi, hbook.engaged i id (HandlerPc.current_of_selected hsel)⟩
    | keep ha hpc =>
      rw [hpc]
      exact HandlerPc.patient_mono hreq (hh.patient i hi)
    | push ptr hfree hpc =>
      rw [hpc]
      exact HandlerPc.patient_notify (HandlerPc.patient_mono hreq (hh.patient i hi))

/-- The add call sets the deadline of the task, and nobody has the task yet. -/
theorem Held.of_dates {c : ℕ} {now now' : TimeValue} {sp : Bool} {kind : AddKind} (hbook : Booked n s)
    (hc : (s.callers c).dates = some (id, kind, now')) (hsum : kind.due now' < 2 ^ 64)
    (ht : Trans n s (.caller c now sp) t) : Held n (kind.due now') t id := by
  refine ⟨fun _ => ?_, fun j hj => ?_⟩
  · rw [ht.deadline_of_dates hc, AddKind.toNat_deadline hsum]
  · have hpatient : (s.handlers j).pc.patient (kind.due now') (t.tasks id).base.isRequestCancel id :=
      HandlerPc.patient_of_not_current (hbook.not_current (CallerPc.admits_of_dates hc) hj)
    cases ht.view j with
    | own hj ha => cases ha
    | keep ha heq =>
      rw [heq]
      exact hpatient
    | push ptr hfree heq =>
      rw [heq]
      exact HandlerPc.patient_notify hpatient

/-- What the history says of one task. -/
structure Patient (n : ℕ) (l : Timeline) (s : ScheduledThreadPool) (id : ℕ) : Prop where
  accepted : l.started id ≠ [] → ∃ i < n, id ∈ (s.handlers i).accepted
  started : ∀ now ∈ l.started id, ∃ call, l.added id = some call ∧ call.1.due call.2 ≤ now.toNat
  early : ∀ call, l.added id = some call → l.clock.toNat < call.1.due call.2 → Held n (call.1.due call.2) s id

theorem Patient.create : Patient n .create .create id where
  accepted hne := absurd rfl hne
  started _ hmem := by cases hmem
  early _ hcall := by cases hcall

/-- No reading is ahead of the clock. -/
def Clocked (l : Timeline) (s : ScheduledThreadPool) : Prop :=
  ∀ i now, (s.handlers i).pc.reading = some now → now ≤ l.clock

theorem Clocked.create : Clocked .create .create := fun _ _ hr => by cases hr

theorem Clocked.trans (hc : Clocked l s) (hfw : Forward (l, s) a) (ht : Trans n s a t) :
    Clocked (l.after s a) t := by
  intro i r hr
  have hold : (s.handlers i).pc.reading = some r → r ≤ (l.after s a).clock :=
    fun hr => UInt64.le_trans (hc i r hr) (clock_le_after hfw)
  cases ht.view i with
  | own hj ha hs =>
    subst ha
    rcases reading_of_next hs hr with rfl | hr
    · exact UInt64.le_refl _
    · exact hold hr
  | keep ha hpc => exact hold (hpc ▸ hr)
  | push ptr hfree hpc =>
    refine hold ?_
    rwa [hpc, HandlerPc.reading_notify] at hr

/-- The next step starts `DoRun()` of the task, and is taken when the clock says `now`. -/
theorem mem_started_after {now : TimeValue} (hmem : now ∈ (l.after s a).started id) :
    now ∈ l.started id ∨ ∃ i e, a = .handler i now e ∧ (s.handlers i).pc = .running id .setRunning := by
  cases a with
  | handler i now' e =>
    cases hst : (s.handlers i).pc.starts with
    | none =>
      refine .inl ?_
      simpa [Timeline.after, hst, prepend] using hmem
    | some id' =>
      by_cases hid : id' = id
      · subst hid
        have hcons : now ∈ now' :: l.started id' := by simpa [Timeline.after, hst, prepend] using hmem
        rcases List.mem_cons.1 hcons with rfl | hold
        · exact .inr ⟨i, e, rfl, HandlerPc.starts_eq_some hst⟩
        · exact .inl hold
      · refine .inl ?_
        simpa [Timeline.after, hst, prepend, hid] using hmem
  | _ => exact .inl hmem

/-- The add call of the task: it is with no handler, and has not been started. -/
theorem Patient.begin {c : ℕ} {now now' : TimeValue} {sp : Bool} {kind : AddKind} (h : Patient n l s id)
    (hbook : Booked n s) (hc : (s.callers c).dates = some (id, kind, now')) (hsum : kind.due now' < 2 ^ 64)
    (ht : Trans n s (.caller c now sp) t) : Patient n (l.after s (.caller c now sp)) t id := by
  have hadd : (l.after s (.caller c now sp)).added id = some (kind, now') := added_after_self l hc
  have hnone : l.started id = [] := by
    by_contra hne
    obtain ⟨i, hi, hmem⟩ := h.accepted hne
    exact (hbook.admitted id).not_accepted (CallerPc.admits_of_dates hc) hi hmem
  refine ⟨fun hne => absurd hnone hne, fun r hr => ?_, fun call hcall _ => ?_⟩
  · have hr : r ∈ l.started id := hr
    rw [hnone] at hr
    cases hr
  · cases hadd.symm.trans hcall
    exact .of_dates hbook hc hsum ht

theorem Patient.keep (h : Patient n l s id) (hbook : Booked n s) (hrec : Recorded n l s) (hclock : Clocked l s)
    (hfw : Forward (l, s) a) (hno : ¬ Dates s id a) (ht : Trans n s a t) : Patient n (l.after s a) t id := by
  have hadd : (l.after s a).added id = l.added id := added_after l hno
  have hnew : ∀ {now}, now ∈ (l.after s a).started id → now ∈ l.started id ∨
      ((∃ i < n, id ∈ (s.handlers i).accepted) ∧
        ∀ call, l.added id = some call → call.1.due call.2 ≤ now.toNat) := by
    intro now hmem
    rcases mem_started_after hmem with hold | ⟨i, e, rfl, hpc⟩
    · exact .inl hold
    · have hi : i < n := by
        cases ht with
        | handler hi => exact hi
      have hacc := hbook.engaged i id (by rw [hpc]; rfl)
      refine .inr ⟨⟨i, hi, hacc⟩, fun call hcall => Nat.le_of_not_lt fun hlt => ?_⟩
      -- at this reading the task is held back
      have hle : l.clock.toNat ≤ now.toNat := UInt64.le_iff_toNat_le.1 hfw
      have hp := (h.early call hcall (Nat.lt_of_le_of_lt hle hlt)).patient i hi
      rw [hpc] at hp
      exact hp rfl
  refine ⟨fun hne => ?_, fun now hmem => ?_, fun call hcall hlt => ?_⟩
  · obtain ⟨now, hmem⟩ := List.exists_mem_of_ne_nil _ hne
    have hacc : ∃ i < n, id ∈ (s.handlers i).accepted := by
      rcases hnew hmem with hold | ⟨hacc, -⟩
      · exact h.accepted (List.ne_nil_of_mem hold)
      · exact hacc
    obtain ⟨i, hi, hin⟩ := hacc
    exact ⟨i, hi, accepted_of_move (handler_move ht i) hin⟩
  · rw [hadd]
    rcases hnew hmem with hold | ⟨hacc, hdue⟩
    · exact h.started now hold
    · obtain ⟨call, hcall⟩ := hrec id (.inl hacc)
      exact ⟨call, hcall, hdue call hcall⟩
  · rw [hadd] at hcall
    have hearly : l.clock.toNat < call.1.due call.2 :=
      Nat.lt_of_le_of_lt (UInt64.le_iff_toNat_le.1 (clock_le_after hfw)) hlt
    refine (h.early call hcall hearly).trans hbook (fun i now hr => ?_) hno ht
    exact Nat.lt_of_le_of_lt (UInt64.le_iff_toNat_le.1 (hclock i now hr)) hearly

theorem Patient.trans (h : Patient n l s id) (hbook : Booked n s) (hrec : Recorded n l s) (hclock : Clocked l s)
    (hfw : Forward (l, s) a) (hex : AddExact s a) (ht : Trans n s a t) : Patient n (l.after s a) t id := by
  by_cases hd : Dates s id a
  · cases a with
    | caller c now spurious =>
      obtain ⟨call, hc⟩ := hd
      exact h.begin hbook hc (hex _ hc) ht
    | _ => exact hd.elim
  · exact h.keep hbook hrec hclock hfw hd ht

/-! ## Runs -/

/-- The clock does not go back, the add calls for a task keep apart, no deadline is set to 0, and no add call's
    sum wraps around. -/
def Punctual (p : Timeline × ScheduledThreadPool) (a : Act) : Prop :=
  Forward p a ∧ Exclusive p.2 a ∧ Nonzero p.2 a ∧ AddExact p.2 a

theorem never_early {as : List Act} {p : Timeline × ScheduledThreadPool}
    (h : Run (record (step n) Timeline.after) Punctual (.create, .create) as p) (id : ℕ) :
    (∀ now ∈ p.1.started id, ∃ kind t, p.1.added id = some (kind, t) ∧ kind.due t ≤ now.toNat) ∧
    ∀ i, id ∈ (p.2.handlers i).accepted → (p.2.tasks id).deadline ≠ 0 := by
  have hbook : Preserved (record (step n) Timeline.after) Punctual fun p => Booked n p.2 :=
    booked_preserved.record fun _ _ _ ha => ⟨ha.2.1, ha.2.2.1⟩
  have hclock : Preserved (record (step n) Timeline.after) Punctual fun p => Clocked p.1 p.2 := by
    rintro ⟨l, s⟩ a ⟨l', t⟩ hc ha hs
    obtain ⟨hst, rfl⟩ := record_eq_some.1 hs
    exact hc.trans ha.1 (trans_of_step hst)
  have hpatient : Patient n p.1 p.2 id := by
    refine h.invariant_under (I := fun p => Patient n p.1 p.2 id) (hbook.and (recorded_preserved.and hclock)) ?_
      ⟨.create, .create, .create⟩ .create
    rintro ⟨l, s⟩ a ⟨l', t⟩ ⟨hbook, hrec, hclock⟩ hi ha hs
    obtain ⟨hst, rfl⟩ := record_eq_some.1 hs
    exact hi.trans hbook hrec hclock ha.1 ha.2.2.2 (trans_of_step hst)
  refine ⟨fun now hmem => ?_, (h.invariant hbook .create).dated id |>.accepted⟩
  obtain ⟨⟨kind, t⟩, hadd, hle⟩ := hpatient.started now hmem
  exact ⟨kind, t, hadd, hle⟩

/-- The thread sleeps until the deadline, which is 5 behind the add call. -/
theorem never_early_delayed : ∃ p, Run (record (step 1) Timeline.after) Punctual (.create, .create)
    ([.addHandler 0 0 7 (.cron 5)] ++ List.replicate 5 (.caller 0 1000 false) ++
      List.replicate 8 (.handler 0 1000 .returns) ++ List.replicate 14 (.handler 0 1005 .returns)) p ∧
    p.1.started 7 = [1005] ∧
    ∀ now ∈ p.1.started 7, ∃ kind t, p.1.added 7 = some (kind, t) ∧ kind.due t ≤ now.toNat := by
  obtain ⟨p, hrun, hst⟩ : ∃ p, Run (record (step 1) Timeline.after)
      (fun p a => Forward p a ∧ Alone p.2 a ∧ Nonzero p.2 a ∧ AddExact p.2 a) (.create, .create)
      ([.addHandler 0 0 7 (.cron 5)] ++ List.replicate 5 (.caller 0 1000 false) ++
        List.replicate 8 (.handler 0 1000 .returns) ++ List.replicate 14 (.handler 0 1005 .returns)) p ∧
      p.1.started 7 = [1005] := exists_run (by decide +kernel) fun _ _ h => h
  have hpun : Run (record (step 1) Timeline.after) Punctual (.create, .create) _ p :=
    hrun.strengthen (J := fun p => ∀ d ≠ 0, p.2.callers d = .idle)
      (fun _ _ _ hi ha hs => alone_idle ha.2.1 (record_eq_some.1 hs).1 hi)
      (fun _ _ _ hi ha _ => ⟨ha.1, exclusive_of_alone hi ha.2.1, ha.2.2⟩) fun _ _ => rfl
  exact ⟨p, hpun, hst, (never_early hpun 7).1⟩

/-- A task with the delay `2 ^ 64 - 1` is fired at once. -/
theorem fires_early : ¬ ∀ (n : ℕ) (as : List Act) (p : Timeline × ScheduledThreadPool), 1 ≤ n →
    Run (record (step n) Timeline.after) (fun p a => Forward p a ∧ Regular p.2 a ∧ Fresh p.2 a)
      (.create, .create) as p →
    ∀ id, (∀ now ∈ p.1.started id, ∃ kind t, p.1.added id = some (kind, t) ∧ kind.due t ≤ now.toNat) ∧
      ∀ i, id ∈ (p.2.handlers i).accepted → (p.2.tasks id).deadline ≠ 0 := by
  intro hall
  obtain ⟨p, hrun, hst, hadd⟩ : ∃ p, Run (record (step 1) Timeline.after)
      (fun p a => Forward p a ∧ Regular p.2 a ∧ Fresh p.2 a) (.create, .create)
      ([.addHandler 0 0 7 (.cron (-1))] ++ List.replicate 5 (.caller 0 1000 false) ++
        List.replicate 13 (.handler 0 1000 .returns)) p ∧
      p.1.started 7 = [1000] ∧ p.1.added 7 = some (.cron (-1), 1000) :=
    exists_run (by decide +kernel) fun _ _ h => h
  obtain ⟨kind, t, hadd', hle⟩ := (hall 1 _ p (Nat.le_refl 1) hrun 7).1 1000 (by rw [hst]; exact List.mem_singleton_self _)
  cases hadd.symm.trans hadd'
  exact absurd hle (by decide)

end ScheduledThreadPool

end Empool
