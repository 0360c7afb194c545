/-
  A task is admitted once, if its add calls keep apart.

  `DoAddCronTimerTask` and `DoAddCycleTimerTask` test the deadline of the task
  and set it in two critical sections.  Between them a second call passes the
  same test; and a call that sets the deadline to 0 leaves the task as it
  found it.  `admitted_once` excludes the two (`Exclusive`, `Nonzero`), and
  `admitted_twice` is the first of them.
-/
import Empool.Timer.Trans
import Empool.Lib.Count

namespace Empool

open Lts Heap

variable {h h' : Handler} {ts ts' : Tasks}

/-- The deadline that the next statement of the thread sets. -/
def HandlerPc.sets : HandlerPc → Option TimeValue
  | .setDeadline _ now interval => some (now + interval)
  | _ => none

/-- The thread changes deadlines nowhere else. -/
theorem HandlerTrans.deadline (ht : HandlerTrans h ts h' ts') (id : ℕ) :
    (ts' id).deadline = (ts id).deadline ∨ h.pc.sets = some (ts' id).deadline := by
  cases ht with
  | @setDeadline i now interval hpc =>
    by_cases hid : id = i
    · subst hid
      rw [hpc, Function.update_self]
      exact .inr rfl
    · rw [Function.update_of_ne hid]
      exact .inl rfl
  | run | runReturn | runThrow => exact .inl (Lts.apply_update_of_eq (by rfl) id)
  | _ => exact .inl rfl

theorem count_pop (ts : Tasks) {q : List TimerPtr} {x : TimerPtr} (hx : top q = some x) (ptr : TimerPtr) :
    (pop (compareTimerTask ts) q).count ptr + (if x = ptr then 1 else 0) = q.count ptr := by
  have hperm : List.Perm (x :: pop (compareTimerTask ts) q) q := top_pop_perm hx
  rw [← hperm.count_eq, List.count_cons]
  simp

theorem count_push (ts : Tasks) (q : List TimerPtr) (x ptr : TimerPtr) :
    (push (compareTimerTask ts) q x).count ptr = q.count ptr + (if x = ptr then 1 else 0) := by
  rw [(push_perm ..).count_eq, List.count_cons]
  simp

namespace ScheduledThreadPool

variable {n : ℕ} {s t : ScheduledThreadPool} {a : Act} {sp : Bool} {id : ℕ}

/-- The task whose add call has passed the test of the deadline and has still to push it. -/
def CallerPc.admits : CallerPc → Option ℕ
  | .addDeadline _ id _ _ | .addInterval _ id _ | .addPush _ id => some id
  | _ => none

/-- Such a task, once the deadline is set. -/
def CallerPc.dated : CallerPc → Option ℕ
  | .addInterval _ id _ | .addPush _ id => some id
  | _ => none

/-- The deadline that the next statement of the caller sets. -/
def CallerPc.sets : CallerPc → Option TimeValue
  | .addDeadline _ _ kind now => some (kind.deadline now)
  | _ => none

/-- The add call that sets a deadline in this statement, with its task and its reading. -/
def CallerPc.dates : CallerPc → Option (ℕ × AddKind × TimeValue)
  | .addDeadline _ id kind now => some (id, kind, now)
  | _ => none

/-- The add call of the task `id` sets the deadline in this step. -/
def Dates (s : ScheduledThreadPool) (id : ℕ) : Act → Prop
  | .caller c _ _ => ∃ call, (s.callers c).dates = some (id, call)
  | _ => False

/-- No deadline is set to 0. -/
def Nonzero (s : ScheduledThreadPool) : Act → Prop
  | .handler i _ _ => (s.handlers i).pc.sets ≠ some 0
  | .caller c _ _ => (s.callers c).sets ≠ some 0
  | _ => True

/-- Between the test of the deadline of a task and `SetDeadline`, no other add call passes the test. -/
def Exclusive (s : ScheduledThreadPool) : Act → Prop
  | .caller c _ _ => ∀ i id kind now, s.callers c = .addTest i id kind now → (s.tasks id).deadline = 0 →
      ∀ d j kind' now', s.callers d ≠ .addDeadline j id kind' now'
  | _ => True

/-- The add calls for the task `id` that have returned success. -/
def successes (n : ℕ) (s : ScheduledThreadPool) (id : ℕ) : ℕ :=
  ∑ i ∈ Finset.range n, (s.handlers i).accepted.count id

/-- The occurrences of the task `id` in the queues. -/
def occurrences (n : ℕ) (s : ScheduledThreadPool) (id : ℕ) : ℕ :=
  ∑ i ∈ Finset.range n, (s.handlers i).queue.count (.task id)

/-! ## The deadlines -/

/-- A caller moves on with the task it has, or lets go of it. -/
theorem update_callers {f : CallerPc → Option ℕ} {c d : ℕ} {pc : CallerPc}
    (hpc : f pc = some id → f (s.callers c) = some id)
    (hd : f (Function.update s.callers c pc d) = some id) : f (s.callers d) = some id :=
  of_update (P := fun pc => f pc = some id) hpc hd

theorem accepted_setHandler {i : ℕ} (hacc : h.accepted = (s.handlers i).accepted) (j : ℕ) :
    ((s.setHandler i h).handlers j).accepted = (s.handlers j).accepted :=
  apply_update_of_eq hacc j

theorem HandlerCloserTrans.accepted (ht : HandlerCloserTrans h ts sp h') : h'.accepted = h.accepted := by
  cases ht <;> rfl

theorem deadline_setTask {i : ℕ} {task : TimerTask} (htask : task.deadline = (s.tasks i).deadline) :
    ((s.setTask i task).tasks id).deadline = (s.tasks id).deadline :=
  apply_update_of_eq htask id

theorem CallerPc.admits_of_dates {pc : CallerPc} {call : AddKind × TimeValue} (hc : pc.dates = some (id, call)) :
    pc.admits = some id := by
  cases pc <;> cases hc
  rfl

/-- A caller that holds the task with its deadline set has done so before, or sets it now. -/
theorem Trans.dated_of (ht : Trans n s a t) (hno : ¬ Dates s id a) {c : ℕ} :
    (t.callers c).dated = some id → (s.callers c).dated = some id := by
  cases ht with
  | handler | handlerCloser | setStop | skip | leave | setShutDown | enter => exact fun hc => hc
  | addInterval hc => exact update_callers fun hp => (congrArg CallerPc.dated hc).trans hp
  | @addDeadline d now now' spurious i id' kind pc hc hpc =>
    refine update_callers fun hp => ?_
    have hid : id' = id := by rcases hpc with rfl | ⟨interval, rfl⟩ <;> exact Option.some.inj hp
    exact absurd ⟨(kind, now'), by rw [hc, hid]; rfl⟩ hno
  | _ => exact update_callers fun hp => by cases hp

/-- An accepted task has been so before, or is pushed now. -/
theorem Trans.accepted_of (ht : Trans n s a t) {i : ℕ} (hacc : id ∈ (t.handlers i).accepted) :
    id ∈ (s.handlers i).accepted ∨ ∃ c now spurious, a = .caller c now spurious ∧
      s.callers c = .addPush i id ∧ (s.handlers i).pc.holds = false ∧
      t.handlers i = (s.handlers i).accept s.tasks id ∧ t.tasks = s.tasks := by
  have hkeep : (t.handlers i).accepted = (s.handlers i).accepted → id ∈ (s.handlers i).accepted :=
    fun heq => heq ▸ hacc
  cases ht with
  | @addPush c now spurious j id' hc hfree =>
    have hacc : id ∈ (Function.update s.handlers j ((s.handlers j).accept s.tasks id') i).accepted := hacc
    rcases cases_update (P := fun h : Handler => id ∈ h.accepted) hacc with ⟨rfl, hacc⟩ | ⟨-, hacc⟩
    · rcases List.mem_cons.1 hacc with rfl | hold
      · exact .inr ⟨c, now, spurious, rfl, hc, hfree, Function.update_self .., rfl⟩
      · exact .inl hold
    · exact .inl hacc
  | handler hi hs => exact .inl (hkeep (accepted_setHandler (handlerTrans_of_next hs).frame.2.2.1 i))
  | handlerCloser hs => exact .inl (hkeep (accepted_setHandler (HandlerCloserTrans.accepted hs) i))
  | enter | handlerWin => exact .inl (hkeep (accepted_setHandler (s := s) (by rfl) i))
  | _ => exact .inl hacc

/-- A task has a deadline from `SetDeadline` in its add call on. -/
structure Dated (s : ScheduledThreadPool) (id : ℕ) : Prop where
  accepted : ∀ i, id ∈ (s.handlers i).accepted → (s.tasks id).deadline ≠ 0
  adding : ∀ c, (s.callers c).dated = some id → (s.tasks id).deadline ≠ 0

theorem Dated.create : Dated .create id where
  accepted i hacc := by cases hacc
  adding c hc := by cases hc

theorem Trans.nonzero (ha : Nonzero s a) (ht : Trans n s a t) (hd : (s.tasks id).deadline ≠ 0) :
    (t.tasks id).deadline ≠ 0 := by
  cases ht with
  | @handler i now e h' ts' hi hs =>
    rcases (handlerTrans_of_next hs).deadline id with heq | hset
    · exact fun hz => hd (heq.symm.trans hz)
    · exact fun hz => ha (hset.trans (congrArg some hz))
  | @addDeadline c now now' spurious i id' kind pc hc hpc =>
    have hval : kind.deadline now' ≠ 0 := fun hz => ha (by rw [hc, ← hz]; rfl)
    exact update_of (P := fun task : TimerTask => task.deadline ≠ 0) (fun _ => hval) fun _ => hd
  | addInterval | cancelStore | cancelReturn | cancelWait =>
    refine fun hz => hd (Eq.trans (deadline_setTask (s := s) ?_).symm hz)
    rfl
  | _ => exact hd

theorem CallerPc.sets_of_dates {pc : CallerPc} {kind : AddKind} {now : TimeValue}
    (hc : pc.dates = some (id, kind, now)) : pc.sets = some (kind.deadline now) := by
  cases pc <;> cases hc
  rfl

theorem Trans.deadline_of_dates {c : ℕ} {now now' : TimeValue} {kind : AddKind}
    (hc : (s.callers c).dates = some (id, kind, now')) (ht : Trans n s (.caller c now sp) t) :
    (t.tasks id).deadline = kind.deadline now' := by
  cases hpc : s.callers c with
  | addDeadline =>
    rw [hpc] at hc
    cases hc
    cases ht with
    | addDeadline hc' =>
      cases hpc.symm.trans hc'
      show (Function.update s.tasks id _ id).deadline = _
      rw [Function.update_self]
    | cancelReturn hc' | cancelWait hc' => rcases hc' with hc' | hc' <;> cases hpc.symm.trans hc'
    | _ hc' => cases hpc.symm.trans hc'
  | _ =>
    rw [hpc] at hc
    cases hc

theorem Dated.trans (h : Dated s id) (ha : Nonzero s a) (ht : Trans n s a t) : Dated t id := by
  have hnz : (s.tasks id).deadline ≠ 0 → (t.tasks id).deadline ≠ 0 := Trans.nonzero ha ht
  refine ⟨fun i hacc => ?_, fun c hc => ?_⟩
  · rcases ht.accepted_of hacc with hold | ⟨c, -, -, -, hc, -⟩
    · exact hnz (h.accepted i hold)
    · exact hnz (h.adding c (by rw [hc]; rfl))
  · by_cases hd : Dates s id a
    · cases a with
      | caller d now spurious =>
        obtain ⟨⟨kind, now'⟩, hd⟩ := hd
        rw [ht.deadline_of_dates hd]
        exact fun hz => ha (by rw [CallerPc.sets_of_dates hd, hz])
      | _ => exact hd.elim
    · exact hnz (h.adding c (ht.dated_of hd hc))

theorem Dated.marked (h : Dated s id) (hpos : 0 < successes n s id) : (s.tasks id).deadline ≠ 0 := by
  obtain ⟨i, -, hi⟩ := Finset.exists_ne_zero_of_sum_ne_zero (Nat.pos_iff_ne_zero.1 hpos)
  exact h.accepted i (List.count_pos_iff.1 (Nat.pos_of_ne_zero hi))

/-! ## The calls -/

/-- Of the add calls for the task `id`, at most one is past the test or has returned success. -/
structure Admitted (n : ℕ) (s : ScheduledThreadPool) (id : ℕ) : Prop where
  unique : ∀ c d, (s.callers c).admits = some id → (s.callers d).admits = some id → c = d
  none_yet : ∀ c, (s.callers c).admits = some id → successes n s id = 0
  once : successes n s id ≤ 1

theorem Admitted.create : Admitted n .create id where
  unique c d hc := by cases hc
  none_yet c hc := by cases hc
  once := by simp [successes, ScheduledThreadPool.create, Handler.create]

/-- Steps in which no call passes the test, and none returns success. -/
theorem Admitted.keep (h : Admitted n s id)
    (hcal : ∀ c, (t.callers c).admits = some id → (s.callers c).admits = some id)
    (hsucc : successes n t id = successes n s id) : Admitted n t id where
  unique c d hc hd := h.unique c d (hcal c hc) (hcal d hd)
  none_yet c hc := hsucc.trans (h.none_yet c (hcal c hc))
  once := hsucc ▸ h.once

theorem successes_setHandler {i : ℕ} (hacc : h.accepted = (s.handlers i).accepted) :
    successes n (s.setHandler i h) id = successes n s id :=
  sum_update_of_eq (g := fun h : Handler => h.accepted.count id) (Finset.range n) (by rw [hacc])

/-- The caller `c` finds that the task has no deadline. -/
theorem Admitted.addTest (h : Admitted n s id) (hdate : Dated s id) {c i : ℕ} {kind : AddKind} {now : TimeValue}
    (hd : (s.tasks id).deadline = 0)
    (ha : ∀ d j kind' now', s.callers d ≠ .addDeadline j id kind' now') :
    Admitted n (s.callerAt c (.addDeadline i id kind now)) id := by
  -- nobody else is past the test: not before `SetDeadline`, and not behind it
  have hnobody : ∀ d, (s.callers d).admits ≠ some id := by
    intro d hd'
    have hdat : (s.callers d).dated ≠ some id := fun hdat => hdate.adding d hdat hd
    cases hpc : s.callers d with
    | addDeadline j id' kind' now' =>
      rw [hpc] at hd'
      cases hd'
      exact ha d j kind' now' hpc
    | addInterval j id' interval =>
      rw [hpc] at hd' hdat
      exact hdat hd'
    | addPush j id' =>
      rw [hpc] at hd' hdat
      exact hdat hd'
    | _ =>
      rw [hpc] at hd'
      cases hd'
  have hzero : successes n s id = 0 :=
    Nat.eq_zero_of_not_pos fun hpos => hdate.marked hpos hd
  have honly : ∀ d, (Function.update s.callers c (.addDeadline i id kind now) d).admits = some id → d = c :=
    fun d => eq_of_update (P := fun pc => CallerPc.admits pc = some id) hnobody
  exact ⟨fun d d' hd1 hd2 => (honly d hd1).trans (honly d' hd2).symm, fun _ _ => hzero, h.once⟩

/-- The caller `c` pushes the task, and returns. -/
theorem Admitted.addPush (h : Admitted n s id) {c i : ℕ} (hc : s.callers c = .addPush i id) :
    Admitted n ((s.setHandler i ((s.handlers i).accept s.tasks id)).callerAt c .idle) id := by
  have hadm : (s.callers c).admits = some id := by rw [hc]; rfl
  have hsucc : successes n (s.setHandler i ((s.handlers i).accept s.tasks id)) id ≤ 1 := by
    have hle := sum_update_le (f := s.handlers) (i := i) (x := (s.handlers i).accept s.tasks id)
      (g := fun h : Handler => h.accepted.count id) (Finset.range n) (k := 1)
      (by simp [Handler.accept])
    have hzero := h.none_yet c hadm
    unfold successes at hzero
    rw [hzero] at hle
    exact hle
  have hnobody : ∀ d, (Function.update s.callers c .idle d).admits ≠ some id := by
    intro d hd
    rcases cases_update (P := fun pc => CallerPc.admits pc = some id) hd with ⟨-, hd⟩ | ⟨hdc, hd⟩
    · cases hd
    · exact hdc (h.unique d c hd hadm)
  exact ⟨fun d d' hd => absurd hd (hnobody d), fun d hd => absurd hd (hnobody d), hsucc⟩

theorem Admitted.trans (h : Admitted n s id) (hdate : Dated s id) (ha : Exclusive s a) (ht : Trans n s a t) :
    Admitted n t id := by
  cases ht with
  | handler hi hs =>
    exact h.keep (s := s) (fun _ hc => hc) (successes_setHandler (handlerTrans_of_next hs).frame.2.2.1)
  | handlerCloser hs =>
    exact h.keep (fun _ hc => hc) (successes_setHandler (HandlerCloserTrans.accepted hs))
  | setStop | skip | leave | setShutDown => exact h.keep (fun _ hc => hc) rfl
  | enter => exact h.keep (s := s) (fun _ hc => hc) (successes_setHandler rfl)
  | @addTest c now now' spurious i id' kind hc hd =>
    by_cases hid : id' = id
    · subst hid
      exact h.addTest hdate hd fun d => ha i _ kind now' hc hd d
    · exact h.keep (fun d => update_callers fun hp => absurd (Option.some.inj hp) hid) rfl
  | addInterval hc =>
    exact h.keep (fun d => update_callers fun hp => (congrArg CallerPc.admits hc).trans hp) rfl
  | @addDeadline c now now' spurious i id' kind pc hc hpc =>
    refine h.keep (fun d => update_callers fun hp => (congrArg CallerPc.admits hc).trans ?_) rfl
    rcases hpc with rfl | ⟨interval, rfl⟩ <;> exact hp
  | @addPush c now spurious i id' hc hfree =>
    by_cases hid : id' = id
    · subst hid
      exact h.addPush hc
    · refine h.keep (fun d => update_callers fun hp => by cases hp) ?_
      refine sum_update_of_eq (g := fun h : Handler => h.accepted.count id) (Finset.range n) ?_
      exact List.count_cons_of_ne hid
  | handlerWin =>
    exact h.keep (fun d => update_callers fun hp => by cases hp) (successes_setHandler (s := s) rfl)
  | _ => exact h.keep (fun d => update_callers fun hp => by cases hp) rfl

/-! ## The queues -/

/-- A queue holds a task no more often than the task was accepted. -/
def Stocked (h : Handler) : Prop := ∀ id, h.queue.count (.task id) ≤ h.accepted.count id

theorem Stocked.popMin (hs : Stocked h) : Stocked (h.popMin ts) := by
  intro id
  unfold Handler.popMin
  cases htop : top h.queue with
  | none => exact hs id
  | some x => exact Nat.le_trans (Nat.le.intro (count_pop ts htop (.task id))) (hs id)

theorem Stocked.popMinAndPush (hs : Stocked h) : Stocked (h.popMinAndPush ts) := by
  intro id
  unfold Handler.popMinAndPush
  cases htop : top h.queue with
  | none => exact hs id
  | some x =>
    show (push _ _ _).count _ ≤ _
    rw [count_push, count_pop ts htop]
    exact hs id

theorem Stocked.move (hs : Stocked h) (hm : HandlerMove ts sp h h') : Stocked h' := by
  cases hm with
  | same | request => exact hs
  | next hn =>
    cases handlerTrans_of_next hn with
    | popMin => exact Stocked.popMin hs
    | popMinAndPush => exact Stocked.popMinAndPush hs
    | _ => exact hs
  | closer ht =>
    cases ht with
    | pushEnd =>
      intro id
      show (push _ _ _).count _ ≤ _
      rw [count_push]
      exact hs id
    | closeFail | asyncClose | close | finished | wait => exact hs
  | @accept id' hfree =>
    intro id
    show (push _ _ _).count _ ≤ (id' :: h.accepted).count id
    rw [count_push, List.count_cons]
    have hle := hs id
    by_cases hid : id' = id
    · subst hid
      simpa using hle
    · simpa [hid] using hle

/-! ## Runs -/

theorem dated_preserved : Preserved (step n) Nonzero fun s => Dated s id :=
  fun _ _ _ h ha hs => h.trans ha (trans_of_step hs)

theorem stocked_preserved : Preserved (step n) Free fun s => ∀ i, Stocked (s.handlers i) :=
  fun _ _ _ h _ hs i => (h i).move (handler_move (trans_of_step hs) i)

theorem admitted_once {as : List Act}
    (h : Run (step n) (fun s a => Exclusive s a ∧ Nonzero s a) .create as s) (id : ℕ) :
    successes n s id ≤ 1 ∧ occurrences n s id ≤ 1 := by
  have hadm : Admitted n s id :=
    h.invariant_under (I := fun s => Admitted n s id) (dated_preserved.imp fun _ _ ha => ha.2)
      (fun _ _ _ hdate hi ha hs => hi.trans hdate ha.1 (trans_of_step hs)) .create .create
  have hstock : ∀ i, Stocked (s.handlers i) :=
    h.free.invariant stocked_preserved fun _ _ => Nat.le_refl _
  exact ⟨hadm.once, Nat.le_trans (Finset.sum_le_sum fun i _ => hstock i id) hadm.once⟩

/-- The next step is one of the caller 0, of a handler, or of a closing body. -/
def Alone (_ : ScheduledThreadPool) : Act → Prop
  | .caller c _ _ | .add c _ _ | .addHandler c _ _ _ | .shutDown c _ | .shutDownHandler c _ _
  | .cancel c _ => c = 0
  | .handler .. | .handlerCloser .. | .closer _ => True

instance (s : ScheduledThreadPool) : ∀ a, Decidable (Alone s a)
  | .caller .. | .add .. | .addHandler .. | .shutDown .. | .shutDownHandler .. | .cancel .. =>
    inferInstanceAs (Decidable (_ = _))
  | .handler .. | .handlerCloser .. | .closer _ => isTrue trivial

instance (s : ScheduledThreadPool) : ∀ a, Decidable (Nonzero s a)
  | .handler .. | .caller .. => inferInstanceAs (Decidable (_ ≠ _))
  | .handlerCloser .. | .closer _ | .add .. | .addHandler .. | .shutDown .. | .shutDownHandler ..
  | .cancel .. => isTrue trivial

/-- The other callers are in no call. -/
theorem alone_idle (ha : Alone s a) (hs : step n s a = some t) (h : ∀ d ≠ 0, s.callers d = .idle) :
    ∀ d ≠ 0, t.callers d = .idle := by
  intro d hd
  have hother : ∀ {c : ℕ} {pc : CallerPc}, c = 0 → Function.update s.callers c pc d = .idle := by
    rintro c pc rfl
    rw [Function.update_of_ne hd]
    exact h d hd
  cases trans_of_step hs with
  | handler | handlerCloser | setStop | skip | enter | leave | setShutDown => exact h d hd
  | _ => exact hother ha

/-- With one calling thread the add calls keep apart. -/
theorem exclusive_of_alone (hidle : ∀ d ≠ 0, s.callers d = .idle) (ha : Alone s a) : Exclusive s a := by
  cases a with
  | caller c now spurious =>
    intro i id kind now' hc hd d j kind' now'' hd'
    obtain rfl : c = 0 := ha
    by_cases hzero : d = 0
    · subst hzero
      rw [hc] at hd'
      cases hd'
    · rw [hidle d hzero] at hd'
      cases hd'
  | _ => trivial

/-- The two calls of one thread keep apart. -/
theorem admitted_once_again : ∃ s, Run (step 2) (fun s a => Exclusive s a ∧ Nonzero s a) .create
    ([.add 0 (some 7) (.cron 3)] ++ List.replicate 7 (.caller 0 5 false) ++
      [.add 0 (some 7) (.cycle 3 true)] ++ List.replicate 5 (.caller 0 6 false)) s ∧
    s.index = 2 ∧ s.callers 0 = .idle ∧ successes 2 s 7 ≤ 1 := by
  obtain ⟨s, hrun, hindex, hidle⟩ : ∃ s, Run (step 2) (fun s a => Alone s a ∧ Nonzero s a) .create
      ([.add 0 (some 7) (.cron 3)] ++ List.replicate 7 (.caller 0 5 false) ++
        [.add 0 (some 7) (.cycle 3 true)] ++ List.replicate 5 (.caller 0 6 false)) s ∧
      s.index = 2 ∧ s.callers 0 = .idle := exists_run (by decide +kernel) fun _ _ h => h
  have hex : Run (step 2) (fun s a => Exclusive s a ∧ Nonzero s a) .create _ s :=
    hrun.strengthen (J := fun s => ∀ d ≠ 0, s.callers d = .idle)
      (fun _ _ _ hi ha hs => alone_idle ha.1 hs hi) (fun _ _ _ hi ha _ => ⟨exclusive_of_alone hi ha.1, ha.2⟩)
      fun _ _ => rfl
  exact ⟨s, hex, hindex, hidle, (admitted_once hex 7).1⟩

/-- Two calls on different handlers, both of which test the deadline before either sets it. -/
theorem admitted_twice : ¬ ∀ (n : ℕ) (as : List Act) (s : ScheduledThreadPool), 1 ≤ n →
    Run (step n) (fun s a => Regular s a ∧ Pooled s a) .create as s →
    ∀ id, successes n s id ≤ 1 ∧ occurrences n s id ≤ 1 := by
  intro hall
  obtain ⟨s, hrun, htwice⟩ : ∃ s, Run (step 2) (fun s a => Regular s a ∧ Pooled s a) .create
      ([.add 0 (some 7) (.cron 3), .add 1 (some 7) (.cron 3)] ++ List.replicate 5 (.caller 0 5 false) ++
        List.replicate 5 (.caller 1 5 false) ++ List.replicate 2 (.caller 0 5 false) ++
        List.replicate 2 (.caller 1 5 false)) s ∧ ¬ successes 2 s 7 ≤ 1 :=
    exists_run (by decide +kernel) fun _ _ h => h
  exact htwice (hall 2 _ s (Nat.le_succ 1) hrun 7).1

end ScheduledThreadPool

end Empool
