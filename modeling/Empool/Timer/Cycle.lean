/-
  A cycle task keeps cycling, unless its interval is 0.

  `IsIntervalTask` is `m_interval > 0`, so that a task that was added with the
  interval 0 is taken for a cron task, and is dropped when it has been fired.
  With any other interval the task is given its next deadline in place, popped
  and pushed again.

  * `Phase`: where a cycle task is that nobody has asked to cancel;
  * `Cycling`: a cycle task from its add call on;
  * `keeps_cycling` is the result on whole runs.
-/
import Empool.Timer.Timeline
import Empool.Timer.Sleep

namespace Empool

open Lts Heap TaskBase

variable {h h' : Handler} {ts ts' : Tasks} {id first : ℕ} {fired : List TimeValue}

/-! ## The thread -/

/-- The task the thread fires, from the comparison of its deadline on. -/
def HandlerPc.parting : HandlerPc → Option TimerPtr
  | .isIntervalTask task _ | .getInterval task _ | .setDeadline task _ _ | .popMin task _ => some task
  | _ => none

/-- The thread has fired the task at the reading `now`, and is to set its next deadline if it has an interval. -/
def HandlerPc.rearms (id : ℕ) (interval now : TimeValue) : HandlerPc → Prop
  | .isIntervalTask task reading => task = .task id ∧ reading = now
  | .getInterval task reading => task = .task id ∧ reading = now ∧ interval ≠ 0
  | .setDeadline task reading k => task = .task id ∧ reading = now ∧ interval ≠ 0 ∧ k = interval
  | _ => False

/-- The deadline the thread is to set, as an exact sum. -/
def HandlerPc.sum : HandlerPc → Option ℕ
  | .setDeadline _ now interval => some (now.toNat + interval.toNat)
  | _ => none

theorem HandlerPc.selected_of_rearms {pc : HandlerPc} {interval now : TimeValue} (hpc : pc.rearms id interval now) :
    pc.selected = some (.task id) := by
  cases pc with
  | isIntervalTask | getInterval | setDeadline => exact congrArg some hpc.1
  | _ => exact hpc.elim

theorem HandlerPc.selected_of_parting {pc : HandlerPc} {task : TimerPtr} (hpc : pc.parting = some task) :
    pc.selected = some task := by
  cases pc <;> first | exact hpc | cases hpc

/-- The next deadline of a cycle task, which was first due at `first`. -/
def nextDue (first : ℕ) (interval : TimeValue) : List TimeValue → ℕ
  | [] => first
  | last :: _ => last.toNat + interval.toNat

/-- Where the cycle task `id` is that nobody has asked to cancel. -/
inductive Phase (pc : HandlerPc) (queue : List TimerPtr) (deadline interval : TimeValue) (id first : ℕ)
    (fired : List TimeValue) : Prop
  /-- it is in the queue, with its next deadline -/
  | queued (hmem : .task id ∈ queue) (hd : deadline.toNat = nextDue first interval fired)
      (hlive : interval ≠ 0 ∨ fired = []) (hpc : pc.parting ≠ some (.task id))
      (hread : ∀ d, pc.read = some (.task id, d) → d = deadline)
  /-- it has been fired, and is about to be given its next deadline -/
  | rearming {now : TimeValue} {rest : List TimeValue} (hpc : pc.rearms id interval now) (hf : fired = now :: rest)
  /-- it has been fired, and is about to be popped -/
  | dropping {b : Bool} (hpc : pc = .popMin (.task id) b) (hzero : interval = 0) (hf : fired ≠ [])
  | dropped (hmem : .task id ∉ queue) (hzero : interval = 0) (hf : fired ≠ [])

/-- The thread changes the membership of the task only by `PopMin`. -/
theorem HandlerTrans.mem_queue (ht : HandlerTrans h ts h' ts') (hf : Fronted h)
    (hpc : ∀ b, h.pc ≠ .popMin (.task id) b) : .task id ∈ h'.queue ↔ .task id ∈ h.queue := by
  cases ht with
  | @popMinAndPush task hp => exact mem_popMinAndPush (hf task (by rw [hp]; rfl)) _
  | @popMin task fired hp =>
    obtain ⟨hold, hnew⟩ : (.task id ∈ (h.popMin ts).queue → .task id ∈ h.queue) ∧
        (.task id ∈ h.queue → .task id = task ∨ .task id ∈ (h.popMin ts).queue) :=
      mem_popMin (hf task (by rw [hp]; rfl))
    refine ⟨hold, fun hmem => (hnew hmem).resolve_left ?_⟩
    rintro rfl
    exact hpc fired hp
  | _ => exact Iff.rfl

theorem HandlerTrans.interval (ht : HandlerTrans h ts h' ts') (id : ℕ) :
    (ts' id).interval = (ts id).interval := by
  cases ht with
  | setDeadline | run | runReturn | runThrow => exact apply_update_of_eq (f := TimerTask.interval) (by rfl) id
  | _ => rfl

/-- The thread comes to `SetState(CANCELLED)` of a task on request only. -/
theorem HandlerTrans.requested_of_setCancelled (ht : HandlerTrans h ts h' ts')
    (hpc : h'.pc = .running id .setCancelled) : (ts id).base.isRequestCancel = true := by
  cases ht with
  | run hp hrun =>
    cases hpc
    exact (runTrans_of_run hrun).setCancelled_of
  | @popMin task fired hp => cases fired <;> cases hpc
  | _ => cases hpc

/-- The thread is past a task that it does not fire. -/
theorem HandlerTrans.parting (ht : HandlerTrans h ts h' ts') (hpc : h.pc.parting ≠ some (.task id))
    (hreq : (ts id).base.isRequestCancel = false) (hst : (ts id).base.state ≠ .cancelled)
    (hno : ∀ now, h.fires ts ≠ some (id, now)) : h'.pc.parting ≠ some (.task id) := by
  intro hpart
  cases ht with
  | @isCancelled task now deadline hp hcan =>
    cases hpart
    exact hst hcan
  | @isRequestCancel task now deadline hp hcan =>
    cases hpart
    exact absurd (hcan.symm.trans hreq) Bool.noConfusion
  | @due task now deadline hp hcan hdue =>
    cases hpart
    refine hno now ?_
    simp only [Handler.fires, hp]
    exact if_pos ⟨hreq, hdue⟩
  | isIntervalTask hp | noIntervalTask hp | getInterval hp =>
    cases hpart
    exact hpc (by rw [hp]; rfl)
  | @popMin task fired hp => cases fired <;> cases hpart
  | _ => cases hpart

theorem HandlerTrans.read (ht : HandlerTrans h ts h' ts')
    (hread : ∀ d, h.pc.read = some (.task id, d) → d = (ts id).deadline) :
    ∀ d, h'.pc.read = some (.task id, d) → d = (ts id).deadline := by
  intro d hd
  cases ht with
  | getDeadline =>
    cases hd
    rfl
  | notCancelled hp =>
    cases hd
    exact hread d (by rw [hp]; rfl)
  | @popMin task fired hp => cases fired <;> cases hd
  | _ => cases hd

/-- The task has been fired: the thread gives it its next deadline, or is to drop it. -/
theorem Phase.rearm {now : TimeValue} {rest : List TimeValue} (hpc : h.pc.rearms id (ts id).interval now)
    (ht : HandlerTrans h ts h' ts') (hf : Fronted h) (hsum : ∀ d ∈ h.pc.sum, d < 2 ^ 64)
    (hfired : fired = now :: rest) :
    Phase h'.pc h'.queue (ts' id).deadline (ts id).interval id first fired := by
  have hfront := List.mem_of_mem_head? (hf _ (HandlerPc.selected_of_rearms hpc))
  cases ht with
  | @isIntervalTask task reading hp hint =>
    rw [hp] at hpc
    obtain ⟨rfl, rfl⟩ := hpc
    refine .rearming ⟨rfl, rfl, fun hzero => ?_⟩ hfired
    have hint : decide (0 < (ts id).interval) = true := hint
    rw [hzero] at hint
    cases hint
  | @noIntervalTask task reading hp hint =>
    rw [hp] at hpc
    obtain ⟨rfl, rfl⟩ := hpc
    have hint : ¬ 0 < (ts id).interval := of_decide_eq_false hint
    refine .dropping rfl (Classical.byContradiction fun hne => hint (UInt64.pos_iff_ne_zero.2 hne)) ?_
    rw [hfired]
    exact List.cons_ne_nil _ _
  | @getInterval task reading hp =>
    rw [hp] at hpc
    obtain ⟨rfl, rfl, hne⟩ := hpc
    exact .rearming ⟨rfl, rfl, hne, rfl⟩ hfired
  | @setDeadline i reading k hp =>
    rw [hp] at hpc hsum
    obtain ⟨heq, rfl, hne, rfl⟩ := hpc
    cases heq
    refine .queued hfront ?_ (.inl hne) nofun nofun
    rw [Function.update_self, hfired]
    exact (UInt64.toNat_add ..).trans (Nat.mod_eq_of_lt (hsum _ rfl))
  | leave hp | empty hp | nonempty hp =>
    cases hpc' : h.pc <;> rw [hpc'] at hp hpc <;> first | exact hp.elim | exact hpc.elim
  | _ hp =>
    rw [hp] at hpc
    exact hpc.elim

/-- A statement of the thread that does not fire the task. -/
theorem Phase.trans (hp : Phase h.pc h.queue (ts id).deadline (ts id).interval id first fired)
    (ht : HandlerTrans h ts h' ts') (hf : Fronted h) (hone : h.queue.count (.task id) ≤ 1)
    (hreq : (ts id).base.isRequestCancel = false) (hst : (ts id).base.state ≠ .cancelled)
    (hsum : ∀ d ∈ h.pc.sum, d < 2 ^ 64) (hno : ∀ now, h.fires ts ≠ some (id, now)) :
    Phase h'.pc h'.queue (ts' id).deadline (ts' id).interval id first fired := by
  rw [ht.interval id]
  cases hp with
  | queued hmem hd hlive hpc hread =>
    have hpop : ∀ b, h.pc ≠ .popMin (.task id) b := fun b heq => hpc (by rw [heq]; rfl)
    have hkept : (ts' id).deadline = (ts id).deadline :=
      ht.deadline_eq fun now interval heq => hpc (by rw [heq]; rfl)
    rw [hkept]
    exact .queued ((ht.mem_queue hf hpop).2 hmem) hd hlive (ht.parting hpc hreq hst hno) (ht.read hread)
  | rearming hpc hfired => exact .rearm hpc ht hf hsum hfired
  | @dropping b hpc hzero hfired =>
    cases ht with
    | @popMin task b' hp =>
      cases hpc.symm.trans hp
      have htop := hf (.task id) (by rw [hpc]; rfl)
      refine .dropped ?_ hzero hfired
      show _ ∉ (h.popMin ts).queue
      have hcount := count_pop ts htop (.task id)
      rw [popMin_queue, ← List.count_eq_zero]
      rw [if_pos rfl] at hcount
      omega
    | leave hp | empty hp | nonempty hp =>
      rw [hpc] at hp
      exact hp.elim
    | _ hp => cases hpc.symm.trans hp
  | dropped hmem hzero hfired =>
    refine .dropped (fun hin => hmem ((ht.mem_queue hf fun b hpc => hmem ?_).1 hin)) hzero hfired
    exact List.mem_of_mem_head? (hf (.task id) (by rw [hpc]; rfl))

/-- The thread fires the task: it is due. -/
theorem Phase.fire {now : TimeValue}
    (hp : Phase h.pc h.queue (ts id).deadline (ts id).interval id first fired) (hf : Fronted h)
    (hfires : h.fires ts = some (id, now)) (ht : HandlerTrans h ts h' ts') :
    nextDue first (ts id).interval fired ≤ now.toNat ∧
      Phase h'.pc h'.queue (ts' id).deadline (ts' id).interval id first (now :: fired) := by
  obtain ⟨d, hpc, hreq, hdue⟩ := fires_eq_some hfires
  have hnext : h'.pc = .isIntervalTask (.task id) now := by
    cases ht with
    | due hp =>
      cases hpc.symm.trans hp
      rfl
    | isRequestCancel hp hcan =>
      cases hpc.symm.trans hp
      exact absurd (hcan.symm.trans hreq) Bool.noConfusion
    | notDue hp hcan hnot =>
      cases hpc.symm.trans hp
      exact absurd hdue hnot
    | leave hp | empty hp | nonempty hp =>
      rw [hpc] at hp
      exact hp.elim
    | _ hp => cases hpc.symm.trans hp
  refine ⟨?_, .rearming (by rw [hnext]; exact ⟨rfl, rfl⟩) rfl⟩
  cases hp with
  | queued hmem hd hlive hpart hread =>
    rw [← hd, ← hread d (by rw [hpc]; rfl)]
    exact UInt64.le_iff_toNat_le.1 hdue
  | rearming hre =>
    rw [hpc] at hre
    exact hre.elim
  | dropping hdrop => cases hpc.symm.trans hdrop
  | dropped hmem => exact absurd (List.mem_of_mem_head? (hf (.task id) (by rw [hpc]; rfl))) hmem

/-- A push of another task. -/
theorem Phase.push {pc : HandlerPc} {queue : List TimerPtr} {deadline interval : TimeValue} {ptr : TimerPtr}
    (hp : Phase pc queue deadline interval id first fired) (hfree : pc.holds = false) (hne : ptr ≠ .task id) :
    Phase pc.notify (Heap.push (compareTimerTask ts) queue ptr) deadline interval id first fired := by
  cases hp with
  | queued hmem hd hlive hpc hread =>
    refine .queued (mem_push.2 (.inr hmem)) hd hlive (fun hpart => ?_) fun d hr => ?_
    · exact HandlerPc.not_selected_of_free hfree (HandlerPc.selected_of_parting hpart)
    · exact absurd (HandlerPc.selected_of_read hr) (HandlerPc.not_selected_of_free hfree)
  | rearming hpc =>
    refine absurd (HandlerPc.selected_of_rearms hpc) ?_
    rw [← HandlerPc.selected_notify]
    exact HandlerPc.not_selected_of_free hfree
  | dropping hpc =>
    rw [hpc] at hfree
    cases hfree
  | dropped hmem hzero hf =>
    refine .dropped (fun hin => ?_) hzero hf
    rcases mem_push.1 hin with heq | hold
    · exact hne heq.symm
    · exact hmem hold

namespace ScheduledThreadPool

variable {n : ℕ} {s t : ScheduledThreadPool} {a : Act} {l : Timeline}

/-- The deadline the thread sets does not wrap around. -/
def RearmExact (s : ScheduledThreadPool) : Act → Prop
  | .handler i _ _ => ∀ d ∈ (s.handlers i).pc.sum, d < 2 ^ 64
  | _ => True

instance (s : ScheduledThreadPool) : ∀ a, Decidable (RearmExact s a)
  | .handler i _ _ => inferInstanceAs (Decidable (∀ d ∈ (s.handlers i).pc.sum, d < 2 ^ 64))
  | .handlerCloser .. | .closer _ | .caller .. | .add .. | .addHandler .. | .shutDown ..
  | .shutDownHandler .. | .cancel .. => isTrue trivial

/-! ## The state `CANCELLED` -/

/-- A task is brought to `CANCELLED` on request only. -/
structure Asked (s : ScheduledThreadPool) (id : ℕ) : Prop where
  cancelled : (s.tasks id).base.state = .cancelled → (s.tasks id).base.isRequestCancel = true
  setting : ∀ i, (s.handlers i).pc = .running id .setCancelled → (s.tasks id).base.isRequestCancel = true

theorem Asked.create : Asked .create id where
  cancelled hst := by cases hst
  setting _ hpc := by cases hpc

theorem Asked.trans (h : Asked s id) (ht : Trans n s a t) : Asked t id := by
  have hreq : (s.tasks id).base.isRequestCancel = true → (t.tasks id).base.isRequestCancel = true := ht.requested
  refine ⟨fun hst => ?_, fun i hpc => ?_⟩
  · rcases ht.beside with ⟨i, now, e, rfl⟩ | hb
    · cases ht with
      | handler hi hs =>
        rcases (handlerTrans_of_next hs).run_cases id with ⟨heq, -⟩ | ⟨pc, r, hpc, hrun, -⟩
        · exact hreq (h.cancelled ((congrArg TaskBase.state heq).symm.trans hst))
        · rcases hrun.cancelled_of hst with hold | rfl
          · exact hreq (h.cancelled hold)
          · exact hreq (h.setting i hpc)
    · exact hreq (h.cancelled ((hb.kept id).state.symm.trans hst))
  · cases ht.view i with
    | own hi ha hs =>
      exact hreq ((handlerTrans_of_next hs).requested_of_setCancelled hpc)
    | keep ha heq => exact hreq (h.setting i (heq ▸ hpc))
    | push ptr hfree heq => exact hreq (h.setting i (HandlerPc.of_notify (heq ▸ hpc)))

theorem asked_preserved : Preserved (step n) Free fun s => Asked s id :=
  fun _ _ _ h _ hs => h.trans (trans_of_step hs)

/-! ## The add call -/

/-- `SetDeadline` is followed by `SetInterval` in the add call of a cycle task. -/
theorem callers_of_dates {c : ℕ} {now now' : TimeValue} {sp : Bool} {kind : AddKind}
    (hc : (s.callers c).dates = some (id, kind, now')) (hs : step n s (.caller c now sp) = some t) :
    ∃ i, t.tasks = Function.update s.tasks id { s.tasks id with deadline := kind.deadline now' } ∧
      t.handlers = s.handlers ∧ t.callers = Function.update s.callers c (match kind with
        | .cron _ => .addPush i id
        | .cycle interval _ => .addInterval i id interval) := by
  cases hpc : s.callers c with
  | addDeadline i =>
    rw [hpc] at hc
    cases hc
    simp only [step, callerNext, hpc, Option.some.injEq] at hs
    subst hs
    exact ⟨i, rfl, rfl, rfl⟩
  | _ =>
    rw [hpc] at hc
    cases hc

/-- The step is `SetInterval` in an add call of the task. -/
def SetsInterval (s : ScheduledThreadPool) (id : ℕ) (interval : TimeValue) : Act → Prop
  | .caller c _ _ => ∃ i, s.callers c = .addInterval i id interval
  | _ => False

theorem Trans.interval (ht : Trans n s a t) (hno : ∀ interval, ¬ SetsInterval s id interval a) :
    (t.tasks id).interval = (s.tasks id).interval := by
  cases ht with
  | handler hi hs => exact (handlerTrans_of_next hs).interval id
  | @addInterval c now sp i id' interval hc =>
    refine congrArg TimerTask.interval (Function.update_of_ne ?_ ..)
    rintro rfl
    exact hno interval ⟨i, hc⟩
  | addDeadline | cancelStore | cancelReturn | cancelWait =>
    exact apply_update_of_eq (f := TimerTask.interval) (by rfl) id
  | _ => rfl

theorem Trans.interval_of_sets {interval : TimeValue} (ht : Trans n s a t) (hset : SetsInterval s id interval a) :
    (t.tasks id).interval = interval := by
  cases a with
  | caller c now sp =>
    obtain ⟨i, hc⟩ := hset
    cases ht with
    | addInterval hc' =>
      cases hc.symm.trans hc'
      show (Function.update s.tasks id _ id).interval = interval
      rw [Function.update_self]
    | cancelReturn hc' | cancelWait hc' => rcases hc' with hc' | hc' <;> cases hc.symm.trans hc'
    | _ hc' => cases hc.symm.trans hc'
  | _ => exact hset.elim

/-- A caller comes to `SetInterval` by `SetDeadline`. -/
theorem Trans.addInterval_of (ht : Trans n s a t) (hno : ¬ Dates s id a) {c i : ℕ} {interval : TimeValue} :
    t.callers c = .addInterval i id interval → s.callers c = .addInterval i id interval := by
  cases ht with
  | handler | handlerCloser | setStop | skip | leave | setShutDown | enter => exact fun hc => hc
  | @addDeadline d now now' sp j id' kind pc hc hpc =>
    refine of_update (P := fun pc : CallerPc => pc = .addInterval i id interval) fun hp => ?_
    rcases hpc with rfl | ⟨k, rfl⟩
    · cases hp
    · cases hp
      exact absurd ⟨(kind, now'), by rw [hc]; rfl⟩ hno
  | _ => exact of_update (P := fun pc : CallerPc => pc = .addInterval i id interval) fun hp => by cases hp

/-- A caller comes to the push by `SetInterval`, or by `SetDeadline`. -/
theorem Trans.addPush_of (ht : Trans n s a t) (hno : ¬ Dates s id a) (hint : ∀ interval, ¬ SetsInterval s id interval a)
    {c i : ℕ} : t.callers c = .addPush i id → s.callers c = .addPush i id := by
  cases ht with
  | handler | handlerCloser | setStop | skip | leave | setShutDown | enter => exact fun hc => hc
  | @addDeadline d now now' sp j id' kind pc hc hpc =>
    refine of_update (P := fun pc : CallerPc => pc = .addPush i id) fun hp => ?_
    rcases hpc with rfl | ⟨k, rfl⟩
    · cases hp
      exact absurd ⟨(kind, now'), by rw [hc]; rfl⟩ hno
    · cases hp
  | @addInterval d now sp j id' interval hc =>
    refine of_update (P := fun pc : CallerPc => pc = .addPush i id) fun hp => ?_
    cases hp
    exact absurd ⟨i, hc⟩ (hint interval)
  | _ => exact of_update (P := fun pc : CallerPc => pc = .addPush i id) fun hp => by cases hp

/-! ## One task -/

/-- The next statement of a thread fires the task `id` at the reading `r`. -/
def Fires (s : ScheduledThreadPool) (id : ℕ) (r : TimeValue) : Act → Prop
  | .handler i _ _ => (s.handlers i).fires s.tasks = some (id, r)
  | _ => False

theorem fired_after (hno : ∀ r, ¬ Fires s id r a) : (l.after s a).fired id = l.fired id := by
  cases a with
  | handler i now e => exact prepend_of_ne hno
  | _ => rfl

theorem fired_after_self {r : TimeValue} (hf : Fires s id r a) : (l.after s a).fired id = r :: l.fired id := by
  cases a with
  | handler i now e =>
    show prepend _ _ _ = _
    rw [show (s.handlers i).fires s.tasks = some (id, r) from hf]
    exact prepend_self
  | _ => exact hf.elim

/-- A cycle task from its add call on; a cron task is one with the interval 0. -/
structure Cycling (n : ℕ) (l : Timeline) (s : ScheduledThreadPool) (id : ℕ) : Prop where
  accepted : l.fired id ≠ [] → ∃ i < n, id ∈ (s.handlers i).accepted
  dated : ∀ c, (s.callers c).dated = some id → ∀ call, l.added id = some call →
    (s.tasks id).deadline.toNat = call.1.due call.2
  setting : ∀ c i interval, s.callers c = .addInterval i id interval →
    ∃ isRunNow now, l.added id = some (.cycle interval isRunNow, now)
  /-- the task has its interval when its add call is about to push it, and from then on -/
  interval : (∃ i < n, id ∈ (s.handlers i).accepted) ∨ (∃ c i, s.callers c = .addPush i id) →
    ∀ interval isRunNow now, l.added id = some (.cycle interval isRunNow, now) → (s.tasks id).interval = interval
  phase : ∀ i < n, id ∈ (s.handlers i).accepted → ∀ call, l.added id = some call →
    (s.tasks id).base.isRequestCancel = false →
    Phase (s.handlers i).pc (s.handlers i).queue (s.tasks id).deadline (s.tasks id).interval id
      (call.1.due call.2) (l.fired id)
  chain : (l.fired id).IsChain fun later earlier => earlier.toNat + (s.tasks id).interval.toNat ≤ later.toNat

theorem Cycling.create : Cycling n .create .create id where
  accepted hne := absurd rfl hne
  dated _ hc := by cases hc
  setting _ _ _ hc := by cases hc
  interval hcom := by rcases hcom with ⟨i, -, hi⟩ | ⟨c, i, hc⟩ <;> contradiction
  phase _ _ hi := by cases hi
  chain := .nil

/-- A task that is in its add call has not been fired. -/
theorem Cycling.fired_eq_nil (h : Cycling n l s id) (hbook : Booked n s) {c : ℕ}
    (hadm : (s.callers c).admits = some id) : l.fired id = [] := by
  by_contra hne
  obtain ⟨i, hi, hacc⟩ := h.accepted hne
  exact (hbook.admitted id).not_accepted hadm hi hacc

/-- The add call of the task sets its deadline: nobody has the task yet. -/
theorem Cycling.begin {c : ℕ} {now : TimeValue} {sp : Bool} {call : AddKind × TimeValue} (h : Cycling n l s id)
    (hbook : Booked n s) (hc : (s.callers c).dates = some (id, call)) (hsum : call.1.due call.2 < 2 ^ 64)
    (hs : step n s (.caller c now sp) = some t) : Cycling n (l.after s (.caller c now sp)) t id := by
  have hadm := CallerPc.admits_of_dates hc
  have hadd : (l.after s (.caller c now sp)).added id = some call := added_after_self l hc
  have hnone : l.fired id = [] := h.fired_eq_nil hbook hadm
  obtain ⟨j, htasks, hhandlers, hcallers⟩ := callers_of_dates hc hs
  have hno : ∀ i < n, id ∉ (t.handlers i).accepted := by
    intro i hi
    rw [hhandlers]
    exact (hbook.admitted id).not_accepted hadm hi
  -- the caller is the only one with the task
  have honly : ∀ d pc, t.callers d = pc → pc.admits = some id → t.callers d = t.callers c := by
    intro d pc hd hpc
    by_cases hdc : d = c
    · rw [hdc]
    · rw [hcallers, Function.update_of_ne hdc] at hd
      exact absurd ((hbook.admitted id).unique d c (hd ▸ hpc) hadm) hdc
  have hself : t.callers c = _ := (congrFun hcallers c).trans (Function.update_self ..)
  refine ⟨fun hne => absurd hnone hne, fun d hd call' hcall => ?_, fun d i interval hd => ?_,
    fun hcom interval isRunNow now' hcall => ?_, fun i hi hacc => absurd hacc (hno i hi), ?_⟩
  · cases hadd.symm.trans hcall
    rw [htasks, Function.update_self]
    exact AddKind.toNat_deadline hsum
  · have hpc := (honly d _ hd rfl).symm.trans hd
    rw [hself] at hpc
    obtain ⟨kind, now'⟩ := call
    cases kind with
    | cron delay => cases hpc
    | cycle k isRunNow =>
      cases hpc
      exact ⟨isRunNow, now', hadd⟩
  · cases hadd.symm.trans hcall
    rcases hcom with ⟨i, hi, hacc⟩ | ⟨d, i, hd⟩
    · exact absurd hacc (hno i hi)
    · have hpc := (honly d _ hd rfl).symm.trans hd
      rw [hself] at hpc
      cases hpc
  · show (l.fired id).IsChain _
    rw [hnone]
    exact .nil

/-! ### Steps of others -/

theorem Fires.at {r : TimeValue} (hf : Fires s id r a) (hbook : Booked n s) (ht : Trans n s a t) :
    ∃ i now e deadline, i < n ∧ a = .handler i now e ∧ id ∈ (s.handlers i).accepted ∧
      (s.handlers i).pc = .isRequestCancel (.task id) r deadline ∧ (s.tasks id).base.isRequestCancel = false := by
  cases a with
  | handler i now e =>
    obtain ⟨deadline, hpc, hreq, -⟩ := fires_eq_some hf
    cases ht with
    | handler hi => exact ⟨i, now, e, deadline, hi, rfl, hbook.engaged i id (by rw [hpc]; rfl), hpc, hreq⟩
  | _ => exact hf.elim

theorem Booked.not_setsInterval (h : Booked n s) {i : ℕ} (hi : i < n) (hacc : id ∈ (s.handlers i).accepted)
    (interval : TimeValue) : ¬ SetsInterval s id interval a := by
  intro hset
  cases a with
  | caller c now sp =>
    obtain ⟨j, hc⟩ := hset
    exact (h.admitted id).not_accepted (by rw [hc]; rfl) hi hacc
  | _ => exact hset

/-- The deadline of a task that is about to be pushed. -/
theorem Booked.deadline_of_dated (h : Booked n s) (ht : Trans n s a t) (hno : ¬ Dates s id a) {c : ℕ}
    (hc : (s.callers c).dated = some id) : (t.tasks id).deadline = (s.tasks id).deadline := by
  have hadm : (s.callers c).admits = some id := by
    cases hpc : s.callers c <;> rw [hpc] at hc <;> first | exact hc | cases hc
  refine ht.deadline fun hset => ?_
  cases a with
  | handler j now e =>
    obtain ⟨now', interval, hpc⟩ := hset
    cases ht with
    | handler hj => exact h.not_current hadm hj (by rw [hpc]; rfl)
  | caller d now sp =>
    obtain ⟨j, kind, now', hd⟩ := hset
    exact hno ⟨(kind, now'), by rw [hd]; rfl⟩
  | _ => exact hset

/-- An accepted task goes through its phases. -/
theorem phase_of_accepted {i : ℕ} {call : AddKind × TimeValue} (hbook : Booked n s) (hbook' : Booked n t)
    (hask : Asked s id) (hex : RearmExact s a) (ht : Trans n s a t) (hi : i < n)
    (hacc : id ∈ (s.handlers i).accepted) (hreq : (s.tasks id).base.isRequestCancel = false)
    (hp : Phase (s.handlers i).pc (s.handlers i).queue (s.tasks id).deadline (s.tasks id).interval id
      (call.1.due call.2) (l.fired id)) :
    Phase (t.handlers i).pc (t.handlers i).queue (t.tasks id).deadline (t.tasks id).interval id
      (call.1.due call.2) ((l.after s a).fired id) := by
  have hst : (s.tasks id).base.state ≠ .cancelled :=
    fun hcan => absurd ((hask.cancelled hcan).symm.trans hreq) Bool.noConfusion
  -- only the thread of the handler fires the task
  have hquiet : (∀ now e, a = .handler i now e → (s.handlers i).pc.holds = false) →
      (l.after s a).fired id = l.fired id := by
    refine fun hfree => fired_after fun r hf => ?_
    obtain ⟨j, now, e, d, hj, ha, hin, hpc, -⟩ := hf.at hbook ht
    obtain rfl := (hbook.admitted id).place hi hj hacc hin
    have hholds := hfree now e ha
    rw [hpc] at hholds
    cases hholds
  cases ht.view i with
  | @own now e hj ha hs =>
    subst ha
    have hown := handlerTrans_of_next hs
    by_cases hf : ∃ r, Fires s id r (.handler i now e)
    · obtain ⟨r, hf⟩ := hf
      rw [fired_after_self hf]
      exact (hp.fire (hbook.front i) hf hown).2
    · have hno : ∀ r, ¬ Fires s id r (.handler i now e) := fun r hr => hf ⟨r, hr⟩
      rw [fired_after hno]
      exact hp.trans hown (hbook.front i)
        (Nat.le_trans (hbook.stocked i id) ((hbook.admitted id).count_le hi)) hreq hst hex hno
  | keep ha hpc hq =>
    rw [hpc, hq, hbook.deadline ht hi hacc ha, ht.interval (hbook.not_setsInterval hi hacc),
      hquiet fun now e heq => absurd heq (ha now e)]
    exact hp
  | push ptr hfree hpc hq hpush hts =>
    rw [hpc, hq, hts, hquiet fun _ _ _ => hfree]
    refine hp.push hfree ?_
    rintro rfl
    -- it would have been accepted twice
    have hle := (hbook'.admitted id).count_le hi
    rw [hpush id rfl, List.count_cons_self] at hle
    have hpos := List.count_pos_iff.2 hacc
    omega

theorem Cycling.accepted_step (h : Cycling n l s id) (hbook : Booked n s) (ht : Trans n s a t)
    (hne : (l.after s a).fired id ≠ []) : ∃ i < n, id ∈ (t.handlers i).accepted := by
  have hacc : ∃ i < n, id ∈ (s.handlers i).accepted := by
    by_cases hf : ∃ r, Fires s id r a
    · obtain ⟨r, hf⟩ := hf
      obtain ⟨i, -, -, -, hi, -, hacc, -⟩ := hf.at hbook ht
      exact ⟨i, hi, hacc⟩
    · rw [fired_after fun r hr => hf ⟨r, hr⟩] at hne
      exact h.accepted hne
  obtain ⟨i, hi, hacc⟩ := hacc
  exact ⟨i, hi, accepted_of_move (handler_move ht i) hacc⟩

theorem Cycling.interval_step (h : Cycling n l s id) (hno : ¬ Dates s id a) (ht : Trans n s a t)
    (hcom : (∃ i < n, id ∈ (t.handlers i).accepted) ∨ ∃ c i, t.callers c = .addPush i id)
    {interval now : TimeValue} {isRunNow : Bool} (hcall : l.added id = some (.cycle interval isRunNow, now)) :
    (t.tasks id).interval = interval := by
  by_cases hset : ∃ k, SetsInterval s id k a
  · obtain ⟨k, hset⟩ := hset
    rw [ht.interval_of_sets hset]
    cases a with
    | caller c now' sp =>
      obtain ⟨i, hc⟩ := hset
      obtain ⟨b, t', hcall'⟩ := h.setting c i k hc
      cases hcall.symm.trans hcall'
      rfl
    | _ => exact hset.elim
  · have hnone : ∀ k, ¬ SetsInterval s id k a := fun k hk => hset ⟨k, hk⟩
    rw [ht.interval hnone]
    refine h.interval ?_ interval isRunNow now hcall
    rcases hcom with ⟨i, hi, hacc⟩ | ⟨c, i, hc⟩
    · rcases ht.accepted_of hacc with hold | ⟨c, -, -, -, hc, -⟩
      · exact .inl ⟨i, hi, hold⟩
      · exact .inr ⟨c, i, hc⟩
    · exact .inr ⟨c, i, ht.addPush_of hno hnone hc⟩

theorem Cycling.phase_step (h : Cycling n l s id) (hbook : Booked n s) (hbook' : Booked n t) (hask : Asked s id)
    (hex : RearmExact s a) (ht : Trans n s a t) {i : ℕ} (hi : i < n) (hacc : id ∈ (t.handlers i).accepted)
    {call : AddKind × TimeValue} (hcall : l.added id = some call)
    (hreq : (t.tasks id).base.isRequestCancel = false) :
    Phase (t.handlers i).pc (t.handlers i).queue (t.tasks id).deadline (t.tasks id).interval id
      (call.1.due call.2) ((l.after s a).fired id) := by
  rcases ht.accepted_of hacc with hold | ⟨c, now, sp, rfl, hc, hfree, hacc', hts⟩
  · have hreq' : (s.tasks id).base.isRequestCancel = false :=
      Bool.eq_false_iff.2 fun htrue => absurd ((ht.requested htrue).symm.trans hreq) Bool.noConfusion
    exact phase_of_accepted hbook hbook' hask hex ht hi hold hreq' (h.phase i hi hold call hcall hreq')
  · -- the push of the add call
    have hnone : l.fired id = [] := h.fired_eq_nil hbook (by rw [hc]; rfl)
    rw [hacc', hts]
    refine .queued (mem_push.2 (.inl rfl)) ?_ (.inr hnone) (fun hpart => ?_) fun d hr => ?_
    · rw [show (l.after s (.caller c now sp)).fired id = [] from hnone]
      exact h.dated c (by rw [hc]; rfl) call hcall
    · exact HandlerPc.not_selected_of_free hfree (HandlerPc.selected_of_parting hpart)
    · exact absurd (HandlerPc.selected_of_read hr) (HandlerPc.not_selected_of_free hfree)

/-- The next firing is an interval behind the last one. -/
theorem Cycling.chain_step (h : Cycling n l s id) (hbook : Booked n s) (hrec : Recorded n l s)
    (ht : Trans n s a t) : ((l.after s a).fired id).IsChain fun later earlier =>
      earlier.toNat + (t.tasks id).interval.toNat ≤ later.toNat := by
  have hchain := h.chain
  by_cases hf : ∃ r, Fires s id r a
  · obtain ⟨r, hf⟩ := hf
    obtain ⟨i, now, e, d, hi, rfl, hacc, hpc, hreq⟩ := hf.at hbook ht
    obtain ⟨call, hcall⟩ := hrec id (.inl ⟨i, hi, hacc⟩)
    rw [fired_after_self hf, ht.interval (hbook.not_setsInterval hi hacc)]
    have hle : nextDue (call.1.due call.2) (s.tasks id).interval (l.fired id) ≤ r.toNat := by
      cases ht.view i with
      | own hj ha hs => exact ((h.phase i hi hacc call hcall hreq).fire (hbook.front i) hf (handlerTrans_of_next hs)).1
      | keep ha => exact absurd rfl (ha now e)
      | push ptr hfree =>
        rw [hpc] at hfree
        cases hfree
    cases hl : l.fired id with
    | nil => exact .singleton r
    | cons last rest =>
      rw [hl] at hchain hle
      exact .cons_cons hle hchain
  · rw [fired_after fun r hr => hf ⟨r, hr⟩]
    cases hl : l.fired id with
    | nil => exact .nil
    | cons last rest =>
      obtain ⟨i, hi, hacc⟩ := h.accepted (by rw [hl]; exact List.cons_ne_nil _ _)
      rw [ht.interval (hbook.not_setsInterval hi hacc), ← hl]
      exact hchain

theorem Cycling.keep (h : Cycling n l s id) (hbook : Booked n s) (hbook' : Booked n t) (hrec : Recorded n l s)
    (hask : Asked s id) (hex : RearmExact s a) (hno : ¬ Dates s id a) (ht : Trans n s a t) :
    Cycling n (l.after s a) t id := by
  have hadd : (l.after s a).added id = l.added id := added_after l hno
  refine ⟨h.accepted_step hbook ht, fun c hc call hcall => ?_, fun c i interval hc => ?_,
    fun hcom interval isRunNow now hcall => ?_, fun i hi hacc call hcall hreq => ?_, h.chain_step hbook hrec ht⟩
  · rw [hadd] at hcall
    rw [hbook.deadline_of_dated ht hno (ht.dated_of hno hc)]
    exact h.dated c (ht.dated_of hno hc) call hcall
  · rw [hadd]
    exact h.setting c i interval (ht.addInterval_of hno hc)
  · rw [hadd] at hcall
    exact h.interval_step hno ht hcom hcall
  · rw [hadd] at hcall
    exact h.phase_step hbook hbook' hask hex ht hi hacc hcall hreq

theorem Cycling.trans (h : Cycling n l s id) (hbook : Booked n s) (hbook' : Booked n t) (hrec : Recorded n l s)
    (hask : Asked s id) (hadd : AddExact s a) (hex : RearmExact s a) (hs : step n s a = some t) :
    Cycling n (l.after s a) t id := by
  by_cases hd : Dates s id a
  · cases a with
    | caller c now spurious =>
      obtain ⟨call, hc⟩ := hd
      exact h.begin hbook hc (hadd _ hc) hs
    | _ => exact hd.elim
  · exact h.keep hbook hbook' hrec hask hex hd (trans_of_step hs)

/-! ## Runs -/

/-- The add calls for a task keep apart, no deadline is set to 0, and no sum of a deadline wraps around. -/
def Steady (p : Timeline × ScheduledThreadPool) (a : Act) : Prop :=
  Exclusive p.2 a ∧ Nonzero p.2 a ∧ AddExact p.2 a ∧ RearmExact p.2 a

/-- Between its add call and the first request to cancel it, a cycle task is in the queue with its next
    deadline, unless it is selected just now: up to its first firing in any case, and after a firing if and
    only if its interval is not 0. -/
theorem keeps_cycling {as : List Act} {p : Timeline × ScheduledThreadPool}
    (h : Run (record (step n) Timeline.after) Steady (.create, .create) as p) {i : ℕ} {interval now : TimeValue}
    {isRunNow : Bool} (hi : i < n) (hacc : id ∈ (p.2.handlers i).accepted)
    (hadd : p.1.added id = some (.cycle interval isRunNow, now)) :
    ((p.1.fired id).IsChain fun later earlier => earlier.toNat + interval.toNat ≤ later.toNat) ∧
    ((p.2.tasks id).base.isRequestCancel = false → (p.2.handlers i).pc.selected ≠ some (.task id) →
      (p.1.fired id = [] → .task id ∈ (p.2.handlers i).queue ∧
        (p.2.tasks id).deadline.toNat = (AddKind.cycle interval isRunNow).due now) ∧
      ∀ last rest, p.1.fired id = last :: rest →
        ((.task id ∈ (p.2.handlers i).queue ∧
          (p.2.tasks id).deadline.toNat = last.toNat + interval.toNat) ↔ interval ≠ 0)) := by
  have hbook : Preserved (record (step n) Timeline.after) Steady fun p => Booked n p.2 :=
    booked_preserved.record fun _ _ _ ha => ⟨ha.1, ha.2.1⟩
  have hask : Preserved (record (step n) Timeline.after) Steady fun p => Asked p.2 id :=
    asked_preserved.record fun _ _ _ _ => trivial
  have hcyc : Cycling n p.1 p.2 id := by
    refine h.invariant_under (I := fun p => Cycling n p.1 p.2 id) (hbook.and (recorded_preserved.and hask)) ?_
      ⟨.create, .create, .create⟩ .create
    rintro ⟨l, s⟩ a ⟨l', t⟩ ⟨hb, hrec, hasked⟩ hi ha hs
    have hb' : Booked n t := hbook _ a _ hb ha hs
    obtain ⟨hst, rfl⟩ := record_eq_some.1 hs
    exact hi.trans hb hb' hrec hasked ha.2.2.1 ha.2.2.2 hst
  have hint := hcyc.interval (.inl ⟨i, hi, hacc⟩) interval isRunNow now hadd
  refine ⟨hint ▸ hcyc.chain, fun hreq hsel => ?_⟩
  have hphase := hcyc.phase i hi hacc _ hadd hreq
  rw [hint] at hphase
  cases hphase with
  | queued hmem hd hlive =>
    refine ⟨fun hnil => ⟨hmem, ?_⟩, fun last rest hcons => ⟨fun _ => ?_, fun _ => ⟨hmem, ?_⟩⟩⟩
    · rw [hd, hnil]
      rfl
    · refine hlive.resolve_right ?_
      rw [hcons]
      exact List.cons_ne_nil _ _
    · rw [hd, hcons]
      rfl
  | rearming hpc => exact absurd (HandlerPc.selected_of_rearms hpc) hsel
  | dropping hpc => exact absurd (by rw [hpc]; rfl) hsel
  | dropped hmem hzero hf =>
    exact ⟨fun hnil => absurd hnil hf, fun _ _ _ => ⟨fun hin => absurd hin.1 hmem, fun hne => absurd hzero hne⟩⟩

/-- The task is fired when it is added, and again 4 later. -/
theorem keeps_cycling_again : ∃ p, Run (record (step 1) Timeline.after) Steady (.create, .create)
    ([.addHandler 0 0 7 (.cycle 3 true)] ++ List.replicate 6 (.caller 0 5 false) ++
      List.replicate 18 (.handler 0 5 .returns) ++ List.replicate 11 (.handler 0 9 .returns)) p ∧
    p.1.fired 7 = [9, 5] ∧ .task 7 ∈ (p.2.handlers 0).queue ∧ (p.2.tasks 7).deadline.toNat = 12 := by
  obtain ⟨p, hrun, hfired, hacc, hadd, hreq, hsel⟩ : ∃ p, Run (record (step 1) Timeline.after)
      (fun p a => Alone p.2 a ∧ Nonzero p.2 a ∧ AddExact p.2 a ∧ RearmExact p.2 a) (.create, .create)
      ([.addHandler 0 0 7 (.cycle 3 true)] ++ List.replicate 6 (.caller 0 5 false) ++
        List.replicate 18 (.handler 0 5 .returns) ++ List.replicate 11 (.handler 0 9 .returns)) p ∧
      p.1.fired 7 = [9, 5] ∧ 7 ∈ (p.2.handlers 0).accepted ∧ p.1.added 7 = some (.cycle 3 true, 5) ∧
      (p.2.tasks 7).base.isRequestCancel = false ∧ (p.2.handlers 0).pc.selected ≠ some (.task 7) :=
    exists_run (by decide +kernel) fun _ _ h => h
  have hsteady : Run (record (step 1) Timeline.after) Steady (.create, .create) _ p :=
    hrun.strengthen (J := fun p => ∀ d ≠ 0, p.2.callers d = .idle)
      (fun _ _ _ hi ha hs => alone_idle ha.1 (record_eq_some.1 hs).1 hi)
      (fun _ _ _ hi ha _ => ⟨exclusive_of_alone hi ha.1, ha.2⟩) fun _ _ => rfl
  have hcyc := ((keeps_cycling hsteady Nat.zero_lt_one hacc hadd).2 hreq hsel).2 9 [5] hfired
  exact ⟨p, hsteady, hfired, hcyc.2 (by decide)⟩

/-- A task with the interval 0 has been fired once, and is not in the queue any more. -/
theorem dropped_after_firing : ¬ ∀ (n : ℕ) (as : List Act) (p : Timeline × ScheduledThreadPool), 1 ≤ n →
    Run (record (step n) Timeline.after)
      (fun p a => Forward p a ∧ Regular p.2 a ∧ Fresh p.2 a ∧ AddExact p.2 a ∧ RearmExact p.2 a)
      (.create, .create) as p →
    ∀ i < n, ∀ id interval isRunNow now, id ∈ (p.2.handlers i).accepted →
      p.1.added id = some (.cycle interval isRunNow, now) → (p.2.tasks id).base.isRequestCancel = false →
      (p.2.handlers i).isRequestShutDown = false → (p.2.handlers i).pc.selected ≠ some (.task id) →
      ∀ last rest, p.1.fired id = last :: rest →
        .task id ∈ (p.2.handlers i).queue ∧ (p.2.tasks id).deadline.toNat = last.toNat + interval.toNat := by
  intro hall
  obtain ⟨p, hrun, hfired, hacc, hadd, hreq, hopen, hsel, hq⟩ : ∃ p, Run (record (step 1) Timeline.after)
      (fun p a => Forward p a ∧ Regular p.2 a ∧ Fresh p.2 a ∧ AddExact p.2 a ∧ RearmExact p.2 a)
      (.create, .create)
      ([.addHandler 0 0 7 (.cycle 0 true)] ++ List.replicate 6 (.caller 0 5 false) ++
        List.replicate 10 (.handler 0 5 .returns)) p ∧
      p.1.fired 7 = [5] ∧ 7 ∈ (p.2.handlers 0).accepted ∧ p.1.added 7 = some (.cycle 0 true, 5) ∧
      (p.2.tasks 7).base.isRequestCancel = false ∧ (p.2.handlers 0).isRequestShutDown = false ∧
      (p.2.handlers 0).pc.selected ≠ some (.task 7) ∧ (p.2.handlers 0).queue = [] :=
    exists_run (by decide +kernel) fun _ _ h => h
  have hmem := (hall 1 _ p (Nat.le_refl 1) hrun 0 Nat.zero_lt_one 7 0 true 5 hacc hadd hreq hopen hsel 5 [] hfired).1
  rw [hq] at hmem
  cases hmem

end ScheduledThreadPool

end Empool
