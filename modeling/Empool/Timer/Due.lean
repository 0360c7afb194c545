/-
  A task that is due is run.

  As long as the thread of a handler takes its steps, a task in the queue of the
  handler is started after the clock has passed its deadline, unless somebody
  asks to cancel it or to shut the handler down (`due_task_runs`).

  Before it the thread serves the tasks that are ahead of it: those that have
  been added before the clock passed the deadline, and are due no later.  Each
  time around its loop the thread pops one of them, or gives it a later deadline
  (`HandlerTrans.wait_lt`); so the rank of the proof is their number, and the place of
  the thread in its loop.

  * `Manned`: the thread has not left its loop;
  * `Later`: the tasks that come later are due later;
  * `due_task_runs` is the result on infinite runs.
-/
import Empool.Timer.Cycle
import Empool.Timer.Wait
import Empool.Lib.Fair

namespace Empool

open Lts Heap TaskBase

variable {h h' : Handler} {ts ts' : Tasks} {id : ℕ} {D : TimeValue} {L : Finset ℕ} {sp : Bool}

/-! ## The thread is in its loop -/

theorem ScheduledThreadPool.HandlerSound.requested_of_closed (hs : ScheduledThreadPool.HandlerSound h)
    (hc : h.closer ≠ .idle) : h.isRequestShutDown = true := by
  cases hf : h.isRequestShutDown with
  | true => rfl
  | false => exact absurd (hs.requested hf) hc

theorem ScheduledThreadPool.HandlerSound.requested_of_close (hs : ScheduledThreadPool.HandlerSound h)
    (hcl : h.isRequestClose = true) : h.isRequestShutDown = true := by
  refine hs.requested_of_closed fun hidle => ?_
  have hclosed := hs.closed hcl
  rw [hidle] at hclosed
  exact hclosed

/-- There is an `EndTimerTask`, or the thread has left, only if a shutdown has been requested. -/
def Manned (h : Handler) : Prop :=
  .endTask ∈ h.queue ∨ h.pc.current = some .endTask ∨ h.pc.left → h.isRequestShutDown = true

theorem Manned.create : Manned .create := by
  rintro (hmem | hcur | hl)
  · cases hmem
  · cases hcur
  · exact hl.elim

theorem Manned.trans (hm : Manned h) (hs : ScheduledThreadPool.HandlerSound h) (hf : Fronted h)
    (ht : HandlerTrans h ts h' ts') (hesc : h'.pc ≠ .escaped) : Manned h' := by
  intro hor
  rw [ht.frame.1]
  cases ht with
  | leave hpc hcl => exact hs.requested_of_close hcl
  | stop hpc => exact hm (.inr (.inl (by rw [hpc]; rfl)))
  | finish hpc | notifyFinished hpc => exact hm (.inr (.inr (by rw [hpc]; trivial)))
  | getMin hpc htop =>
    rcases hor with hmem | hcur | hl
    · exact hm (.inl hmem)
    · cases hcur
      exact hm (.inl (List.mem_of_mem_head? htop))
    · exact hl.elim
  | @popMinAndPush task hpc =>
    have htop := hf task (by rw [hpc]; rfl)
    rcases hor with hmem | hcur | hl
    · exact hm (.inl ((mem_popMinAndPush htop _).1 hmem))
    · cases hcur
      exact hm (.inl (List.mem_of_mem_head? htop))
    · exact hl.elim
  | @popMin task fired hpc =>
    have htop := hf task (by rw [hpc]; rfl)
    rcases hor with hmem | hcur | hl
    · exact hm (.inl ((mem_popMin htop).1 hmem))
    · cases fired with
      | true =>
        cases hcur
        exact hm (.inl (List.mem_of_mem_head? htop))
      | false => cases hcur
    · cases fired <;> exact hl.elim
  | runThrow => exact absurd rfl hesc
  | getCurrentTime hpc | getDeadline hpc | isCancelled hpc | notCancelled hpc | isRequestCancel hpc
  | due hpc | isIntervalTask hpc | noIntervalTask hpc | getInterval hpc | setDeadline hpc =>
    rcases hor with hmem | hcur | hl
    · exact hm (.inl hmem)
    · exact hm (.inr (.inl (by rw [hpc]; exact hcur)))
    · exact hl.elim
  | _ =>
    rcases hor with hmem | hcur | hl
    · exact hm (.inl hmem)
    · cases hcur
    · exact hl.elim

theorem Manned.move (hm : Manned h) (hs : ScheduledThreadPool.HandlerSound h) (hf : Fronted h)
    (hmove : ScheduledThreadPool.HandlerMove ts sp h h') (hesc : h'.pc ≠ .escaped) : Manned h' := by
  cases hmove with
  | same => exact hm
  | request => exact fun _ => rfl
  | next hn => exact hm.trans hs hf (handlerTrans_of_next hn) hesc
  | accept =>
    rintro (hmem | hcur | hl)
    · exact hm (.inl ((mem_push.1 hmem).resolve_left nofun))
    · exact hm (.inr (.inl ((HandlerPc.current_notify _).symm.trans hcur)))
    · exact hm (.inr (.inr (HandlerPc.left_notify.1 hl)))
  | closer ht =>
    cases ht with
    | pushEnd hcl => exact fun _ => hs.requested_of_closed (by rw [hcl]; exact nofun)
    | closeFail | asyncClose | close | finished | wait => exact hm

/-! ## The way of a task that is popped -/

@[simp] theorem Handler.goto_pc (h : Handler) (pc : HandlerPc) : (h.goto pc).pc = pc := rfl

@[simp] theorem Handler.startRun_pc (h : Handler) (id : ℕ) :
    (h.startRun id).pc = .running id .checkCancellation := rfl

/-- The thread has taken the task from its place to run it, and has not started `DoRun()`. -/
def HandlerPc.nears (id : ℕ) : HandlerPc → Prop
  | .popMinAndPush (.task i) | .fire (.task i) => i = id
  | .running i .checkCancellation | .running i .setRunning => i = id
  | _ => False

theorem HandlerPc.nears_notify {pc : HandlerPc} : pc.notify.nears id ↔ pc.nears id := by
  cases pc <;> exact Iff.rfl

/-- The thread has popped the task to run it, or runs it. -/
def HandlerPc.carries (id : ℕ) : HandlerPc → Prop
  | .fire (.task i) | .running i _ => i = id
  | _ => False

theorem HandlerPc.carries_notify {pc : HandlerPc} : pc.notify.carries id ↔ pc.carries id := by
  cases pc <;> exact Iff.rfl

/-- What is left of a turn of the loop, if the clock is read anew. -/
def HandlerPc.togo : HandlerPc → ℕ
  | .popMinAndPush _ => 31
  | .fire _ => 30
  | .running _ pc => 24 + pc.togo
  | .start | .wait _ | .timedWait _ _ _ => 22
  | .lock => 21
  | .check => 20
  | .getMin => 19
  | .getCurrentTime _ => 18
  | .getDeadline _ _ => 17
  | .isCancelled _ _ _ => 16
  | .isRequestCancel _ _ _ => 15
  | .isIntervalTask _ _ => 14
  | .getInterval _ _ => 13
  | .setDeadline _ _ _ => 12
  | .popMin _ _ => 11
  | .checkEmpty | .finish | .notifyFinished | .ended | .escaped => 0

/-- The reading of the clock that the thread has taken for the selected task. -/
def HandlerPc.clocked : HandlerPc → Option (TimerPtr × TimeValue)
  | .getDeadline task now | .isCancelled task now _ | .isRequestCancel task now _ | .isIntervalTask task now
  | .getInterval task now | .setDeadline task now _ => some (task, now)
  | _ => none

/-- The thread has taken a reading that is not past `D`. -/
def HandlerPc.early (D : TimeValue) (pc : HandlerPc) : Bool := pc.clocked.any fun r => decide (r.2 ≤ D)

/-- The place of the thread in its loop; a reading that is not past `D` may cost it a turn. -/
def HandlerPc.place (D : TimeValue) (pc : HandlerPc) : ℕ := pc.togo + if pc.early D then 32 else 0

theorem HandlerPc.togo_notify (pc : HandlerPc) : pc.notify.togo = pc.togo := by
  cases pc <;> rfl

theorem HandlerPc.place_notify (pc : HandlerPc) : pc.notify.place D = pc.place D := by
  cases pc <;> rfl

theorem HandlerPc.place_lt (pc : HandlerPc) : pc.place D < 64 := by
  have htogo : pc.togo ≤ 31 := by
    cases pc with
    | running i pc => cases pc <;> simp [togo, RunPc.togo]
    | _ => simp [togo]
  unfold HandlerPc.place
  split_ifs <;> omega

/-- The thread comes nearer to `DoRun()` of the task, and to it if nobody has asked to cancel the task. -/
theorem HandlerTrans.nears (ht : HandlerTrans h ts h' ts') (hn : h.pc.nears id)
    (hreq : (ts id).base.isRequestCancel = false) :
    (ts' id).base.doRuns = (ts id).base.doRuns + 1 ∨ (h'.pc.nears id ∧ h'.pc.togo < h.pc.togo) := by
  cases ht with
  | @popMinAndPush task hpc =>
    rw [hpc] at hn ⊢
    cases task with
    | task i => exact .inr ⟨hn, Nat.lt_succ_self _⟩
    | endTask => exact hn.elim
  | @fire i hpc =>
    rw [hpc] at hn ⊢
    exact .inr ⟨hn, Nat.lt_succ_self _⟩
  | stop hpc =>
    rw [hpc] at hn
    exact hn.elim
  | @run i pc pc' e b hpc hrun =>
    rw [hpc] at hn ⊢
    cases runTrans_of_run hrun with
    | cancelled hc =>
      obtain rfl : i = id := hn
      rw [hreq] at hc
      cases hc
    | clear => exact .inr ⟨hn, Nat.lt_succ_self _⟩
    | setRunning =>
      obtain rfl : i = id := hn
      left
      rw [Function.update_self]
    | returns | cancelException | setFinished | setCancelled => exact hn.elim
  | runReturn hpc hrun | runThrow hpc hrun =>
    rw [hpc] at hn
    cases runTrans_of_run hrun <;> exact hn.elim
  | leave hpc | empty hpc | nonempty hpc =>
    cases hp : h.pc <;> rw [hp] at hn hpc <;> first | exact hn.elim | exact hpc.elim
  | _ hpc =>
    rw [hpc] at hn
    exact hn.elim

/-! ## The tasks ahead -/

/-- The tasks of `L` that may be due by `D` in the queue, now or later. -/
def Handler.ahead (D : TimeValue) (L : Finset ℕ) (h : Handler) (ts : Tasks) : Finset ℕ :=
  L.filter fun j => j ∉ h.accepted ∨ .task j ∈ h.queue ∧ (ts j).deadline ≤ D

theorem mem_ahead {j : ℕ} :
    j ∈ h.ahead D L ts ↔ j ∈ L ∧ (j ∉ h.accepted ∨ .task j ∈ h.queue ∧ (ts j).deadline ≤ D) := Finset.mem_filter

theorem ahead_subset (hacc : ∀ j ∈ h.accepted, j ∈ h'.accepted)
    (hq : ∀ j ∈ h.accepted, .task j ∈ h'.queue → (ts' j).deadline ≤ D → .task j ∈ h.queue ∧ (ts j).deadline ≤ D) :
    h'.ahead D L ts' ⊆ h.ahead D L ts := by
  intro j hj
  obtain ⟨hjL, hj⟩ := mem_ahead.1 hj
  refine mem_ahead.2 ⟨hjL, ?_⟩
  by_cases hold : j ∈ h.accepted
  · obtain ⟨hmem, hle⟩ := hj.resolve_left fun hno => hno (hacc j hold)
    exact .inr (hq j hold hmem hle)
  · exact .inl hold

/-- The thread puts no task into the queue that has not been in it. -/
theorem HandlerTrans.queue_subset (ht : HandlerTrans h ts h' ts') (hf : Fronted h) {ptr : TimerPtr}
    (hmem : ptr ∈ h'.queue) : ptr ∈ h.queue := by
  cases ht with
  | @popMinAndPush task hp => exact (mem_popMinAndPush (hf task (by rw [hp]; rfl)) _).1 hmem
  | @popMin task fired hp => exact (mem_popMin (hf task (by rw [hp]; rfl))).1 hmem
  | _ => exact hmem

/-- The tasks ahead become fewer while the selected ones are due by `D`. -/
theorem HandlerTrans.ahead (ht : HandlerTrans h ts h' ts') (hf : Fronted h)
    (hsel : ∀ j, h.pc.selected = some (.task j) → h.pc.stale = false → (ts j).deadline ≤ D) :
    h'.ahead D L ts' ⊆ h.ahead D L ts := by
  refine ahead_subset (fun j hj => by rwa [ht.frame.2.2.1]) fun j _ hmem hle =>
    ⟨ht.queue_subset hf hmem, ?_⟩
  by_cases hset : ∃ now interval, h.pc = .setDeadline (.task j) now interval
  · obtain ⟨now, interval, hpc⟩ := hset
    exact hsel j (by rw [hpc]; rfl) (by rw [hpc]; rfl)
  · rwa [ht.deadline_eq fun now interval hpc => hset ⟨now, interval, hpc⟩] at hle

/-- A task that is popped, or is due after `D` now, is not ahead any more. -/
theorem ahead_lt {j : ℕ} (hsub : h'.ahead D L ts' ⊆ h.ahead D L ts) (hj : j ∈ h.ahead D L ts) (hacc : j ∈ h'.accepted)
    (hgone : .task j ∈ h'.queue → ¬ (ts' j).deadline ≤ D) : (h'.ahead D L ts').card < (h.ahead D L ts).card := by
  refine Finset.card_lt_card ⟨hsub, fun hsup => ?_⟩
  rcases (mem_ahead.1 (hsup hj)).2 with hno | ⟨hmem, hle⟩
  · exact hno hacc
  · exact hgone hmem hle

/-- What is left until a task that is due by `D` is popped. -/
def Handler.wait (D : TimeValue) (L : Finset ℕ) (h : Handler) (ts : Tasks) : ℕ :=
  64 * (h.ahead D L ts).card + h.pc.place D

theorem wait_lt_of_place (hsub : h'.ahead D L ts' ⊆ h.ahead D L ts) (hlt : h'.pc.place D < h.pc.place D) :
    h'.wait D L ts' < h.wait D L ts := by
  have hcard := Finset.card_le_card hsub
  unfold Handler.wait
  omega

theorem wait_lt_of_ahead (hlt : (h'.ahead D L ts').card < (h.ahead D L ts).card) :
    h'.wait D L ts' < h.wait D L ts := by
  have hplace := HandlerPc.place_lt (D := D) h'.pc
  unfold Handler.wait
  omega

/-- Each statement of the thread lowers what is left. -/
theorem HandlerTrans.wait_lt (ht : HandlerTrans h ts h' ts') (hf : Fronted h) (ha : Alert ts h)
    (hone : ∀ j, h.queue.count (.task j) ≤ 1) (hstock : ScheduledThreadPool.Stocked h) (hq : h.queue ≠ [])
    (hcl : h.isRequestClose = false) (hin : ¬ h.pc.left) (hend : h.pc.current ≠ some .endTask)
    (hesc : h'.pc ≠ .escaped)
    (hsel : ∀ j, h.pc.selected = some (.task j) → h.pc.stale = false → (ts j).deadline ≤ D ∧ j ∈ L)
    (hnow : ∀ task now, h'.pc = .getDeadline task now → D < now) (hsum : ∀ d ∈ h.pc.sum, d < 2 ^ 64) :
    h'.wait D L ts' < h.wait D L ts := by
  have hsub : h'.ahead D L ts' ⊆ h.ahead D L ts := ht.ahead hf fun j hj hst => (hsel j hj hst).1
  have hahead : ∀ {j}, h.pc.selected = some (.task j) → h.pc.stale = false →
      j ∈ h.accepted ∧ j ∈ h.ahead D L ts := by
    intro j hj hst
    have hmem := List.mem_of_mem_head? (hf _ hj)
    refine ⟨?_, mem_ahead.2 ⟨(hsel j hj hst).2, .inr ⟨hmem, (hsel j hj hst).1⟩⟩⟩
    exact List.count_pos_iff.1 (Nat.lt_of_lt_of_le (List.count_pos_iff.2 hmem) (hstock j))
  have hend' : ∀ {task}, h.pc.selected = some task → ∃ j, task = .task j := by
    intro task hs
    cases task with
    | task j => exact ⟨j, rfl⟩
    | endTask => exact absurd (HandlerPc.current_of_selected hs) hend
  have hgo : ∀ {pc pc' : HandlerPc}, h.pc = pc → h'.pc = pc' → pc'.place D < pc.place D →
      h'.wait D L ts' < h.wait D L ts := by
    rintro pc pc' rfl rfl hlt
    exact wait_lt_of_place hsub hlt
  cases ht with
  | leave hpc hclose => exact absurd (hclose.symm.trans hcl) Bool.noConfusion
  | empty hpc hnil => exact absurd hnil hq
  | wait hpc =>
    have hnil := ha.empty (by rw [hpc]; trivial)
    exact absurd hnil hq
  | stop hpc => exact absurd (by rw [hpc]; rfl) hend
  | finish hpc | notifyFinished hpc => exact absurd (by rw [hpc]; trivial) hin
  | runThrow => exact absurd rfl hesc
  | nonempty hpc =>
    have hlook : (h.pc.place D) = 21 ∨ h.pc.place D = 22 := by
      cases hp : h.pc <;> rw [hp] at hpc <;> simp [HandlerPc.looks] at hpc <;>
        simp [HandlerPc.place, HandlerPc.togo, HandlerPc.early, HandlerPc.clocked]
    refine wait_lt_of_place hsub ?_
    have hcheck : (h.goto .check).pc.place D = 20 := by
      simp [HandlerPc.place, HandlerPc.togo, HandlerPc.early, HandlerPc.clocked]
    omega
  | start hpc | check hpc | getMin hpc | timedWait hpc | fire hpc | popMinAndPush hpc =>
    refine hgo hpc rfl ?_
    simp [HandlerPc.place, HandlerPc.togo, HandlerPc.early, HandlerPc.clocked, RunPc.togo]
  | getCurrentTime hpc =>
    have hlate := hnow _ _ rfl
    refine hgo hpc rfl ?_
    simp [HandlerPc.place, HandlerPc.togo, HandlerPc.early, HandlerPc.clocked, UInt64.not_le.2 hlate]
  | getDeadline hpc | notCancelled hpc | due hpc | isIntervalTask hpc | getInterval hpc =>
    exact hgo hpc rfl (Nat.add_lt_add_right (Nat.lt_succ_self _) _)
  | isCancelled hpc | isRequestCancel hpc | noIntervalTask hpc =>
    refine hgo hpc rfl ?_
    simp [HandlerPc.place, HandlerPc.togo, HandlerPc.early, HandlerPc.clocked]
    omega
  | @notDue task now deadline hpc hreq hdue =>
    obtain ⟨j, rfl⟩ := hend' (by rw [hpc]; rfl)
    have hd : (ts j).deadline = deadline := ha.read (.task j) deadline (by rw [hpc]; rfl)
    have hle : deadline ≤ D := hd ▸ (hsel j (by rw [hpc]; rfl) (by rw [hpc]; rfl)).1
    have hearly : now ≤ D := by
      refine UInt64.not_lt.1 fun hlt => hdue (UInt64.le_trans hle (UInt64.le_of_lt hlt))
    refine hgo hpc rfl ?_
    simp [HandlerPc.place, HandlerPc.togo, HandlerPc.early, HandlerPc.clocked, hearly]
  | @setDeadline j now interval hpc =>
    by_cases hearly : now ≤ D
    · refine hgo hpc rfl ?_
      simp [HandlerPc.place, HandlerPc.togo, HandlerPc.early, HandlerPc.clocked, hearly]
    · obtain ⟨hacc, hmem⟩ := hahead (j := j) (by rw [hpc]; rfl) (by rw [hpc]; rfl)
      refine wait_lt_of_ahead (ahead_lt hsub hmem hacc fun _ hle => hearly ?_)
      rw [Function.update_self] at hle
      refine UInt64.le_trans (UInt64.le_iff_toNat_le.2 ?_) hle
      have hexact := hsum (now.toNat + interval.toNat) (by rw [hpc]; rfl)
      rw [UInt64.toNat_add, Nat.mod_eq_of_lt hexact]
      exact Nat.le_add_right _ _
  | @popMin task fired hpc =>
    obtain ⟨j, rfl⟩ := hend' (by rw [hpc]; rfl)
    have htop := hf (.task j) (by rw [hpc]; rfl)
    obtain ⟨hacc, hmem⟩ := hahead (j := j) (by rw [hpc]; rfl) (by rw [hpc]; rfl)
    obtain ⟨queue, popped, heq⟩ := popMin_eq h ts
    refine wait_lt_of_ahead (ahead_lt hsub hmem ?_ fun hin => absurd hin ?_)
    · rw [heq]
      exact hacc
    · show _ ∉ (h.popMin ts).queue
      have hcount := count_pop ts htop (.task j)
      have honce := hone j
      rw [if_pos rfl] at hcount
      rw [popMin_queue, ← List.count_eq_zero]
      omega
  | @run i pc pc' e b hpc hrun =>
    refine hgo hpc rfl ?_
    cases runTrans_of_run hrun <;> simp [HandlerPc.place, HandlerPc.togo, HandlerPc.early, HandlerPc.clocked, RunPc.togo]
  | @runReturn i pc e b hpc hrun =>
    refine hgo hpc rfl ?_
    cases runTrans_of_run hrun <;> simp [HandlerPc.place, HandlerPc.togo, HandlerPc.early, HandlerPc.clocked, RunPc.togo]

namespace ScheduledThreadPool

variable {n i : ℕ} {s t : ScheduledThreadPool} {a : Act}

theorem Trans.own {now : TimeValue} {e : DoRunEnd} (ht : Trans n s (.handler i now e) t) :
    (s.handlers i).next s.tasks now e = some (t.handlers i, t.tasks) := by
  cases ht with
  | @handler i now e h' ts' hi hs =>
    show _ = some (Function.update s.handlers i h' i, ts')
    rwa [Function.update_self]

/-! ## What holds at all times -/

/-- Each task is added by one call, no deadline wraps around, and no task throws. -/
def Proper (s : ScheduledThreadPool) (a : Act) : Prop := Fresh s a ∧ NoThrow s a ∧ AddExact s a ∧ RearmExact s a

instance (s : ScheduledThreadPool) (a : Act) : Decidable (Proper s a) := inferInstanceAs (Decidable (_ ∧ _))

structure Live (s : ScheduledThreadPool) (id : ℕ) : Prop where
  placed : Placed s
  sorted : AllSorted s
  alert : AllAlert s
  sound : ∀ i, HandlerSound (s.handlers i)
  manned : ∀ i, Manned (s.handlers i)
  inside : ∀ i, (s.handlers i).pc ≠ .escaped
  asked : Asked s id
  carried : ∀ i, (s.handlers i).pc.carries id → id ∈ (s.handlers i).accepted
  dropped : ∀ i, (s.handlers i).pc = .popMin (.task id) false → (s.tasks id).base.state = .cancelled

theorem Live.create : Live .create id where
  placed := .create
  sorted _ := .create
  alert _ := .create
  sound _ := handlerSound_create
  manned _ := .create
  inside _ hpc := by cases hpc
  asked := .create
  carried _ hc := hc.elim
  dropped _ hpc := by cases hpc

theorem inside_trans (h : ∀ i, (s.handlers i).pc ≠ .escaped) (ha : NoThrow s a) (ht : Trans n s a t) (i : ℕ) :
    (t.handlers i).pc ≠ .escaped := by
  intro hpc
  cases ht.view i with
  | own hi hact hs =>
    subst hact
    exact ha (escaped_of_next hs hpc)
  | keep hact heq => exact h i (heq ▸ hpc)
  | push ptr hfree heq =>
    rw [heq] at hpc
    exact h i ((HandlerPc.notify_eq (by simp) (by simp)).1 hpc)

/-- The thread drops a task that has been cancelled. -/
theorem HandlerTrans.dropped (ht : HandlerTrans h ts h' ts') (hpc : h'.pc = .popMin (.task id) false) :
    (ts' id).base.state = .cancelled := by
  cases ht with
  | isCancelled hp hst =>
    cases hpc
    exact hst
  | @popMin task fired hp => cases fired <;> cases hpc
  | _ => cases hpc

/-- The thread pops a task from its queue to run it. -/
theorem HandlerTrans.carries (ht : HandlerTrans h ts h' ts') (hf : Fronted h) (hc : h'.pc.carries id) :
    h.pc.carries id ∨ .task id ∈ h.queue := by
  cases ht with
  | @popMinAndPush task hp =>
    cases task with
    | endTask => exact hc.elim
    | task i =>
      obtain rfl : i = id := hc
      exact .inr (List.mem_of_mem_head? (hf _ (by rw [hp]; rfl)))
  | @popMin task fired hp =>
    cases fired with
    | false => exact hc.elim
    | true =>
      cases task with
      | endTask => exact hc.elim
      | task i =>
        obtain rfl : i = id := hc
        exact .inr (List.mem_of_mem_head? (hf _ (by rw [hp]; rfl)))
  | fire hp | run hp =>
    rw [hp]
    exact .inl hc
  | _ => exact hc.elim

/-- The state of a task is changed by the thread that runs it. -/
theorem state_kept (hno : ∀ i pc, (s.handlers i).pc ≠ .running id pc) (ht : Trans n s a t) :
    (t.tasks id).base.state = (s.tasks id).base.state := by
  rcases ht.beside with ⟨i, now, e, rfl⟩ | hb
  · rcases (handlerTrans_of_next ht.own).run_cases id with ⟨heq, -⟩ | ⟨pc, r, hpc, -, -⟩
    · rw [heq]
    · exact absurd hpc (hno i pc)
  · exact (hb.kept id).state

theorem Live.not_running (h : Live s id) {j : ℕ} (hacc : id ∈ (s.handlers i).accepted) (hj : j ≠ i) (pc : RunPc) :
    (s.handlers j).pc ≠ .running id pc := fun hpc =>
  hj ((h.placed.single id).place j i (h.carried j (by rw [hpc]; rfl)) hacc)

theorem Live.trans (h : Live s id) (hfresh : Fresh s a) (hreg : NoThrow s a) (ht : Trans n s a t) : Live t id := by
  have hin := inside_trans h.inside hreg ht
  refine ⟨⟨fun id => (h.placed.single id).trans hfresh ht, fun i => (h.placed.stocked i).move (handler_move ht i),
      fun i => (h.placed.front i).move (handler_move ht i)⟩, h.sorted.trans h.placed ht, h.alert.trans h.placed ht,
    fun i => (h.sound i).move (handler_move ht i),
    fun i => (h.manned i).move (h.sound i) (h.placed.front i) (handler_move ht i) (hin i), hin, h.asked.trans ht,
    fun i hc => accepted_of_move (handler_move ht i) ?_, fun i hpc => ?_⟩
  · cases ht.view i with
    | own hi hact hs =>
      rcases HandlerTrans.carries (handlerTrans_of_next hs) (h.placed.front i) hc with hold | hmem
      · exact h.carried i hold
      · exact h.placed.mem_accepted hmem
    | keep hact heq => exact h.carried i (heq ▸ hc)
    | push ptr hfree heq => exact h.carried i (HandlerPc.carries_notify.1 (heq ▸ hc))
  · cases ht.view i with
    | own hi hact hs => exact HandlerTrans.dropped (handlerTrans_of_next hs) hpc
    | keep hact heq =>
      rw [heq] at hpc
      rw [state_kept (fun j pc hrun => ?_) ht]
      · exact h.dropped i hpc
      · -- the thread has selected the task, so no other thread runs it
        have hacc := h.placed.mem_accepted (List.mem_of_mem_head? (h.placed.front i (.task id) (by rw [hpc]; rfl)))
        refine h.not_running hacc (fun hji => ?_) pc hrun
        rw [hji, hpc] at hrun
        cases hrun
    | push ptr hfree heq =>
      rw [heq] at hpc
      rw [(HandlerPc.notify_eq (by simp) (by simp)).1 hpc] at hfree
      cases hfree

theorem live_preserved : Preserved (step n) Proper (Live · id) :=
  fun _ _ _ h ha hs => h.trans ha.1 ha.2.1 (trans_of_step hs)

/-! ## The tasks that come later -/

/-- The step is taken when the clock is past `D`. -/
def Passed (D : TimeValue) : Act → Prop
  | .handler _ now _ | .caller _ now _ => D < now
  | _ => True

/-- The reading of the clock that the caller has taken for its task. -/
def CallerPc.reading : CallerPc → Option (ℕ × TimeValue)
  | .addClose _ id _ now | .addTest _ id _ now | .addDeadline _ id _ now => some (id, now)
  | _ => none

/-- The tasks that are not in `L` have come when the clock was past `D`, and are due later. -/
structure Later (n : ℕ) (D : TimeValue) (L : Finset ℕ) (s : ScheduledThreadPool) : Prop where
  callers : ∀ c j now, (s.callers c).reading = some (j, now) → j ∉ L → D < now
  handlers : ∀ i j now, (s.handlers i).pc.clocked = some (.task j, now) → j ∉ L → D < now
  deadline : ∀ j, Known n s j → j ∉ L → D < (s.tasks j).deadline

theorem HandlerPc.selected_of_clocked {pc : HandlerPc} {task : TimerPtr} {now : TimeValue}
    (hpc : pc.clocked = some (task, now)) : pc.selected = some task := by
  cases pc <;> cases hpc <;> rfl

/-- Nobody has anything to do with a task that has not come. -/
theorem Later.of_called (h : Placed s) : Later n D s.called.toFinset s := by
  have hcalls : ∀ {c j}, (s.callers c).adding = some j → j ∈ s.called.toFinset := by
    intro c j hc
    by_contra hno
    exact ((h.single j).known (fun hj => hno (List.mem_toFinset.2 hj))).1 c hc
  have haccepted : ∀ {i j}, j ∈ (s.handlers i).accepted → j ∈ s.called.toFinset := by
    intro i j hj
    by_contra hno
    exact ((h.single j).known (fun hj => hno (List.mem_toFinset.2 hj))).2 i hj
  refine ⟨fun c j now hc hno => absurd (@hcalls c j ?_) hno, fun i j now hpc hno => absurd (@haccepted i j ?_) hno,
    fun j hk hno => absurd ?_ hno⟩
  · cases hpc : s.callers c <;> rw [hpc] at hc <;> cases hc <;> rfl
  · exact h.mem_accepted (List.mem_of_mem_head? (h.front i _ (HandlerPc.selected_of_clocked hpc)))
  · rcases hk with ⟨i, -, hacc⟩ | ⟨c, hc⟩
    · exact haccepted hacc
    · refine @hcalls c j ?_
      cases hpc : s.callers c <;> rw [hpc] at hc <;> cases hc <;> rfl

/-- The thread reads the clock just before it reads the deadline. -/
theorem now_of_next {now now' : TimeValue} {e : DoRunEnd} {task : TimerPtr} (hs : h.next ts now e = some (h', ts'))
    (hpc : h'.pc = .getDeadline task now') : now' = now := by
  cases handlerTrans_of_next hs with
  | getCurrentTime hp =>
    cases hpc
    simp only [Handler.next, hp, Option.some.injEq, Prod.mk.injEq] at hs
    have hgo := congrArg Handler.pc hs.1
    cases hgo
    rfl
  | @popMin task fired hp => cases fired <;> cases hpc
  | _ => cases hpc

/-- A reading of the thread is taken in this step, or has been taken before. -/
theorem clocked_of_next {now now' : TimeValue} {e : DoRunEnd} {task : TimerPtr}
    (hs : h.next ts now e = some (h', ts')) (hpc : h'.pc.clocked = some (task, now')) :
    now' = now ∨ h.pc.clocked = some (task, now') := by
  cases handlerTrans_of_next hs with
  | getCurrentTime hp =>
    cases hpc
    exact .inl (now_of_next hs rfl)
  | getDeadline hp | notCancelled hp | due hp | isIntervalTask hp | getInterval hp =>
    cases hpc
    exact .inr (by rw [hp]; rfl)
  | @popMin task fired hp => cases fired <;> cases hpc
  | _ => cases hpc

theorem callers_later (h : ∀ c j now, (s.callers c).reading = some (j, now) → j ∉ L → D < now) (ha : Passed D a)
    (ht : Trans n s a t) (c j : ℕ) (now : TimeValue) (hc : (t.callers c).reading = some (j, now)) (hj : j ∉ L) :
    D < now := by
  have hset : ∀ {d : ℕ} {pc : CallerPc}, (pc.reading = some (j, now) → D < now) →
      (Function.update s.callers d pc c).reading = some (j, now) → D < now := fun hpc =>
    update_of (P := fun pc : CallerPc => pc.reading = some (j, now) → D < now) (fun _ => hpc)
      fun _ hold => h c j now hold hj
  cases ht with
  | handler | handlerCloser | setStop | skip | enter | leave | setShutDown => exact h c j now hc hj
  | addNow hd =>
    refine hset (fun hp => ?_) hc
    cases hp
    exact ha
  | @addClose d _ _ _ _ _ _ hd | @addTest d _ _ _ _ _ _ hd =>
    refine hset (fun hp => h d j now ?_ hj) hc
    rw [hd]
    exact hp
  | addDeadline hd hpc =>
    refine hset (fun hp => ?_) hc
    rcases hpc with rfl | ⟨interval, rfl⟩ <;> cases hp
  | _ => exact hset (fun hp => by cases hp) hc

theorem HandlerPc.clocked_notify (pc : HandlerPc) : pc.notify.clocked = pc.clocked := by
  cases pc <;> rfl

theorem handlers_later (h : ∀ i j now, (s.handlers i).pc.clocked = some (.task j, now) → j ∉ L → D < now)
    (ha : Passed D a) (ht : Trans n s a t) (i j : ℕ) (now : TimeValue)
    (hpc : (t.handlers i).pc.clocked = some (.task j, now)) (hj : j ∉ L) : D < now := by
  cases ht.view i with
  | own hi hact hs =>
    subst hact
    rcases clocked_of_next hs hpc with rfl | hold
    · exact ha
    · exact h i j now hold hj
  | keep hact heq => exact h i j now (heq ▸ hpc) hj
  | push ptr hfree heq =>
    rw [heq, HandlerPc.clocked_notify] at hpc
    exact h i j now hpc hj

/-- Each deadline that is set is one for which the clock has been read. -/
theorem deadline_later {j : ℕ} (h : Later n D L s) (hadd : AddExact s a) (hre : RearmExact s a) (ht : Trans n s a t)
    (hset : SetsDeadline s j a) (hj : j ∉ L) : D < (t.tasks j).deadline := by
  cases a with
  | handler i now e =>
    obtain ⟨now', interval, hpc⟩ := hset
    have hlate : D < now' := h.handlers i j now' (by rw [hpc]; rfl) hj
    have hexact : now'.toNat + interval.toNat < 2 ^ 64 := hre _ (by rw [hpc]; rfl)
    cases ht with
    | handler hi hs =>
      cases handlerTrans_of_next hs with
      | setDeadline hp =>
        cases hpc.symm.trans hp
        show D < (Function.update s.tasks j _ j).deadline
        rw [Function.update_self, UInt64.lt_iff_toNat_lt, UInt64.toNat_add, Nat.mod_eq_of_lt hexact]
        exact Nat.lt_of_lt_of_le (UInt64.lt_iff_toNat_lt.1 hlate) (Nat.le_add_right _ _)
      | leave hp | empty hp | nonempty hp =>
        rw [hpc] at hp
        exact hp.elim
      | _ hp => cases hpc.symm.trans hp
  | caller c now sp =>
    obtain ⟨i, kind, now', hc⟩ := hset
    have hlate : D < now' := h.callers c j now' (by rw [hc]; rfl) hj
    have hexact : kind.due now' < 2 ^ 64 := hadd (j, kind, now') (by rw [hc]; rfl)
    cases ht with
    | addDeadline hd =>
      cases hc.symm.trans hd
      show D < (Function.update s.tasks j _ j).deadline
      rw [Function.update_self, UInt64.lt_iff_toNat_lt, AddKind.toNat_deadline hexact]
      refine Nat.lt_of_lt_of_le (UInt64.lt_iff_toNat_lt.1 hlate) ?_
      cases kind with
      | cron delay => exact Nat.le_add_right _ _
      | cycle interval isRunNow =>
        cases isRunNow
        · exact Nat.le_add_right _ _
        · exact Nat.le_refl _
    | cancelReturn hd | cancelWait hd => rcases hd with hd | hd <;> cases hc.symm.trans hd
    | _ hd => cases hc.symm.trans hd
  | _ => exact hset.elim

theorem Later.trans (h : Later n D L s) (ha : Passed D a) (hadd : AddExact s a) (hre : RearmExact s a)
    (ht : Trans n s a t) : Later n D L t where
  callers := callers_later h.callers ha ht
  handlers := handlers_later h.handlers ha ht
  deadline j hk hj := by
    by_cases hset : SetsDeadline s j a
    · exact deadline_later h hadd hre ht hset hj
    · rw [ht.deadline hset]
      refine h.deadline j (known_of_trans ht (fun hd => hset ?_) hk) hj
      cases a with
      | caller c now sp =>
        obtain ⟨call, hc⟩ := hd
        cases hpc : s.callers c <;> rw [hpc] at hc <;> cases hc
        exact ⟨_, _, _, hpc⟩
      | _ => exact hd.elim

/-! ## One task -/

/-- The next statement of the thread of the handler `i`; the end of its wait counts only if it has been notified,
    or the wait is timed. -/
def HandlerActs (i : ℕ) : ScheduledThreadPool → Act → Prop
  | s, .handler j _ _ => j = i ∧ (s.handlers i).pc ≠ .wait false
  | _, _ => False

theorem handlerActs_iff : HandlerActs i s a ↔ (∃ now e, a = .handler i now e) ∧ (s.handlers i).pc ≠ .wait false := by
  cases a with
  | handler j now e =>
    refine and_congr_left fun _ => ⟨fun hj => ⟨now, e, by rw [hj]⟩, ?_⟩
    rintro ⟨_, _, heq⟩
    cases heq
    rfl
  | _ => exact ⟨False.elim, fun ⟨⟨_, _, heq⟩, _⟩ => by cases heq⟩

/-- The other steps leave the thread where it is; the most they do is to notify it. -/
theorem Trans.pc_other {R : HandlerPc → Prop} (hR : ∀ {pc}, R pc → R pc.notify) (ht : Trans n s a t)
    (hact : ¬ ∃ now e, a = .handler i now e) (h : R (s.handlers i).pc) :
    R (t.handlers i).pc ∧ (t.handlers i).pc.togo = (s.handlers i).pc.togo := by
  cases ht.view i with
  | own hi ha => exact absurd ⟨_, _, ha⟩ hact
  | keep ha hpc =>
    rw [hpc]
    exact ⟨h, rfl⟩
  | push ptr hfree hpc =>
    rw [hpc]
    exact ⟨hR h, HandlerPc.togo_notify _⟩

/-- The task is in the queue, and due by `D`. -/
def Queued (i id : ℕ) (D : TimeValue) (s : ScheduledThreadPool) : Prop :=
  .task id ∈ (s.handlers i).queue ∧ (s.tasks id).deadline ≤ D

/-- `DoRun` of the task has been entered more than `r` times, or somebody has asked to cancel the task, or to shut
    the handler down. -/
def Answered (r i id : ℕ) (s : ScheduledThreadPool) : Prop :=
  r < (s.tasks id).base.doRuns ∨ (s.tasks id).base.isRequestCancel = true ∨ (s.handlers i).isRequestShutDown = true

theorem doRuns_le_of_run {b b' : TaskBase} {pc : RunPc} {r : RunNext} (hr : RunTrans b pc b' r) :
    b.doRuns ≤ b'.doRuns := by
  cases hr with
  | setRunning => exact Nat.le_succ _
  | _ => exact Nat.le_refl _

theorem doRuns_le (ht : Trans n s a t) (id : ℕ) : (s.tasks id).base.doRuns ≤ (t.tasks id).base.doRuns := by
  rcases ht.beside with ⟨j, now, e, rfl⟩ | hb
  · cases ht with
    | handler hj hs =>
      rcases (handlerTrans_of_next hs).run_cases id with ⟨heq, -⟩ | ⟨pc, r, -, hrun, -⟩
      · exact Nat.le_of_eq (congrArg TaskBase.doRuns heq).symm
      · exact doRuns_le_of_run hrun
  · exact Nat.le_of_eq (hb.kept id).runs.symm

theorem HandlerMove.shutDown (hm : HandlerMove ts sp h h') (hf : h.isRequestShutDown = true) :
    h'.isRequestShutDown = true := by
  cases hm with
  | same => exact hf
  | next hn => exact (handlerTrans_of_next hn).frame.1.trans hf
  | closer ht => exact (HandlerCloserTrans.requested ht).trans hf
  | request => rfl
  | accept => exact hf

theorem Answered.trans {r : ℕ} (h : Answered r i id s) (ht : Trans n s a t) : Answered r i id t := by
  rcases h with hruns | hreq | hshut
  · exact .inl (Nat.lt_of_lt_of_le hruns (doRuns_le ht id))
  · exact .inr (.inl (ht.requested hreq))
  · exact .inr (.inr (HandlerMove.shutDown (handler_move ht i) hshut))

theorem next_isSome {now : TimeValue} (hset : ∀ now interval, h.pc ≠ .setDeadline .endTask now interval)
    (hend : h.pc ≠ .ended) (hesc : h.pc ≠ .escaped) (hq : h.pc = .getMin → h.queue ≠ []) :
    ∃ r, h.next ts now .returns = some r := by
  unfold Handler.next
  cases hpc : h.pc with
  | getMin =>
    cases hqueue : h.queue with
    | nil => exact absurd hqueue (hq hpc)
    | cons x q => exact ⟨_, rfl⟩
  | setDeadline task now' interval =>
    cases task with
    | task id => exact ⟨_, rfl⟩
    | endTask => exact absurd hpc (hset now' interval)
  | fire task => cases task <;> exact ⟨_, rfl⟩
  | running id pc => cases pc <;> exact ⟨_, rfl⟩
  | ended => exact absurd hpc hend
  | escaped => exact absurd hpc hesc
  | _ => exact ⟨_, rfl⟩

theorem can_handler (hi : i < n) (hset : ∀ now interval, (s.handlers i).pc ≠ .setDeadline .endTask now interval)
    (hend : (s.handlers i).pc ≠ .ended) (hesc : (s.handlers i).pc ≠ .escaped)
    (hq : (s.handlers i).pc = .getMin → (s.handlers i).queue ≠ []) (hw : (s.handlers i).pc ≠ .wait false) :
    Can (step n) (HandlerActs i) s := by
  obtain ⟨r, hr⟩ := @next_isSome (s.handlers i) s.tasks 0 hset hend hesc hq
  refine ⟨.handler i 0 .returns, { s.setHandler i r.1 with tasks := r.2 }, ⟨rfl, hw⟩, ?_⟩
  show (if i < n then s.handlerNext i 0 .returns else none) = some _
  rw [if_pos hi, handlerNext, hr]
  rfl

/-- While nobody has answered, the thread can go on, if it does not wait for a task. -/
theorem Live.can (h : Live s id) (hi : i < n) (hshut : (s.handlers i).isRequestShutDown = false)
    (hw : (s.handlers i).pc ≠ .wait false) : Can (step n) (HandlerActs i) s := by
  have hno : ∀ {Q : Prop}, (Q → (s.handlers i).isRequestShutDown = true) → ¬ Q := fun hQ hq =>
    absurd ((hQ hq).symm.trans hshut) Bool.noConfusion
  refine can_handler hi (fun now interval hpc => ?_) (fun hpc => ?_) (h.inside i)
    (fun hpc => (h.sorted i).nonempty (by rw [hpc]; trivial)) hw
  · exact hno (fun hcur => h.manned i (.inr (.inl hcur))) (by rw [hpc]; rfl)
  · exact hno (fun hl => h.manned i (.inr (.inr hl))) (by rw [hpc]; trivial)

/-! ## What a step does -/

/-- The thread has dropped the task, which has been cancelled. -/
def Dropped (i id : ℕ) (s : ScheduledThreadPool) : Prop :=
  (s.tasks id).base.state = .cancelled ∧ (s.handlers i).pc = .lock

/-- The thread has dropped the task, or has taken it from its place to run it; or a shutdown has been requested. -/
def Taken (i id : ℕ) (s : ScheduledThreadPool) : Prop :=
  Dropped i id s ∨ (s.handlers i).pc.nears id ∨ (s.handlers i).isRequestShutDown = true

/-- The task stays in the queue, or the thread takes it. -/
theorem Queued.trans (hq : Queued i id D s) (h : Live s id) (ht : Trans n s a t) : Taken i id t ∨ Queued i id D t := by
  obtain ⟨hmem, hle⟩ := hq
  cases ht.view i with
  | own hi hact hs =>
    have hown := handlerTrans_of_next hs
    by_cases hpop : ∃ b, (s.handlers i).pc = .popMin (.task id) b
    · obtain ⟨b, hpc⟩ := hpop
      have hst := h.dropped i
      simp only [Handler.next, hpc, Option.some.injEq, Prod.mk.injEq] at hs
      cases b with
      | false => exact .inl (.inl ⟨by rw [← hs.2]; exact hst hpc, by rw [← hs.1]; rfl⟩)
      | true =>
        refine .inl (.inr (.inl ?_))
        rw [← hs.1]
        rfl
    by_cases hset : ∃ now interval, (s.handlers i).pc = .setDeadline (.task id) now interval
    · obtain ⟨now, interval, hpc⟩ := hset
      refine .inl (.inr (.inl ?_))
      simp only [Handler.next, hpc, Option.some.injEq, Prod.mk.injEq] at hs
      rw [← hs.1]
      rfl
    refine .inr ⟨(hown.mem_queue (h.placed.front i) fun b hpc => hpop ⟨b, hpc⟩).2 hmem, ?_⟩
    rwa [hown.deadline_eq fun now interval hpc => hset ⟨now, interval, hpc⟩]
  | keep hact hpc hq =>
    refine .inr ⟨hq ▸ hmem, ?_⟩
    rwa [h.placed.deadline ht hact hmem]
  | push ptr hfree hpc hq hacc hts =>
    refine .inr ⟨?_, by rwa [hts]⟩
    rw [hq]
    exact mem_push.2 (.inr hmem)

/-- A task that the thread has selected is due no later than one that waits. -/
theorem Live.selected_le (h : Live s id) (hq : Queued i id D s) {j : ℕ}
    (hsel : (s.handlers i).pc.selected = some (.task j)) (hst : (s.handlers i).pc.stale = false) :
    (s.tasks j).deadline ≤ D :=
  UInt64.le_trans (le_of_top ((h.sorted i).order hst) (h.placed.front i _ hsel) hq.1) hq.2

/-- Once the clock is past `D`, each statement of the thread brings the task nearer to its pop, and the other
    steps do not take it away from there. -/
theorem Queued.wait_le (hq : Queued i id D s) (h : Live s id) (h' : Live t id) (hlater : Later n D L s)
    (hpass : Passed D a) (hre : RearmExact s a) (hshut : (s.handlers i).isRequestShutDown = false) (hi : i < n)
    (ht : Trans n s a t) :
    (t.handlers i).wait D L t.tasks ≤ (s.handlers i).wait D L s.tasks ∧
      (HandlerActs i s a → (t.handlers i).wait D L t.tasks < (s.handlers i).wait D L s.tasks) := by
  have hno : ∀ {Q : Prop}, (Q → (s.handlers i).isRequestShutDown = true) → ¬ Q := fun hQ hq =>
    absurd ((hQ hq).symm.trans hshut) Bool.noConfusion
  have hacc : ∀ j ∈ (s.handlers i).accepted, j ∈ (t.handlers i).accepted := fun j =>
    accepted_of_move (handler_move ht i)
  have hle : (t.handlers i).pc.place D = (s.handlers i).pc.place D →
      (t.handlers i).ahead D L t.tasks ⊆ (s.handlers i).ahead D L s.tasks →
      (t.handlers i).wait D L t.tasks ≤ (s.handlers i).wait D L s.tasks := by
    intro hplace hsub
    have hcard := Finset.card_le_card hsub
    unfold Handler.wait
    omega
  have hlt : ∀ {now e}, a = .handler i now e →
      (t.handlers i).wait D L t.tasks < (s.handlers i).wait D L s.tasks := by
    rintro now e rfl
    have hs := ht.own
    refine (handlerTrans_of_next hs).wait_lt (h.placed.front i) (h.alert i) (h.placed.count_le i)
      (h.placed.stocked i) (List.ne_nil_of_mem hq.1) ?_ (hno fun hl => h.manned i (.inr (.inr hl)))
      (hno fun hcur => h.manned i (.inr (.inl hcur))) (h'.inside i) (fun j hsel hst => ?_)
      (fun task now' hpc => now_of_next hs hpc ▸ hpass) hre
    · exact Bool.eq_false_iff.2 (hno fun hcl => (h.sound i).requested_of_close hcl)
    · have hdue := h.selected_le hq hsel hst
      refine ⟨hdue, by_contra fun hj => ?_⟩
      have hmem := h.placed.mem_accepted (List.mem_of_mem_head? (h.placed.front i _ hsel))
      exact absurd hdue (UInt64.not_le.2 (hlater.deadline j (.inl ⟨i, hi, hmem⟩) hj))
  refine ⟨?_, fun hown => ?_⟩
  · cases ht.view i with
    | own hi hact hs => exact Nat.le_of_lt (hlt hact)
    | keep hact hpc hqueue =>
      refine hle (by rw [hpc]) (ahead_subset hacc fun j _ hmem hd => ?_)
      rw [hqueue] at hmem
      rw [h.placed.deadline ht hact hmem] at hd
      exact ⟨hmem, hd⟩
    | push ptr hfree hpc hqueue hpush hts =>
      refine hle (by rw [hpc, HandlerPc.place_notify]) (ahead_subset hacc fun j hold hmem hd => ?_)
      rw [hqueue, mem_push] at hmem
      rw [hts] at hd
      refine ⟨hmem.resolve_left ?_, hd⟩
      rintro rfl
      -- it would have been accepted twice
      have honce := (h'.placed.single j).once i
      rw [hpush j rfl, List.count_cons_self] at honce
      have := List.count_pos_iff.2 hold
      omega
  · obtain ⟨⟨now, e, hact⟩, -⟩ := handlerActs_iff.1 hown
    exact hlt hact

/-! ## Runs -/

section
variable {r : ℕ} {P : ScheduledThreadPool → Act → Prop} {p : Path (step n) P} (hi : i < n)
  (hfair : p.Fair (HandlerActs i))
include hi hfair

/-- The thread starts the task that it has taken to run it. -/
theorem leadsTo_answered (hV : ∀ k, Live (p.state k) id) : p.LeadsTo
    (fun s => (s.handlers i).pc.nears id ∧ r ≤ (s.tasks id).base.doRuns) (Answered r i id) := by
  refine hfair.leadsTo (V := fun s => Live s id) hV (fun s => (s.handlers i).pc.togo) (fun s a t h ⟨hn, hr⟩ _ hs => ?_)
    fun s h ⟨hn, _⟩ => ?_
  · have ht := trans_of_step hs
    by_cases hans : Answered r i id s
    · exact .inl (hans.trans ht)
    have hr' := Nat.le_trans hr (doRuns_le ht id)
    by_cases hact : ∃ now e, a = .handler i now e
    · obtain ⟨now, e, rfl⟩ := hact
      have hreq : (s.tasks id).base.isRequestCancel = false := Bool.eq_false_iff.2 fun hc => hans (.inr (.inl hc))
      rcases (handlerTrans_of_next ht.own).nears hn hreq with hruns | ⟨hn', hlt⟩
      · exact .inl (.inl (by omega))
      · exact .inr ⟨⟨hn', hr'⟩, Nat.le_of_lt hlt, fun _ => hlt⟩
    · obtain ⟨hn', htogo⟩ := ht.pc_other (R := HandlerPc.nears id) HandlerPc.nears_notify.2 hact hn
      exact .inr ⟨⟨hn', hr'⟩, Nat.le_of_eq htogo, fun hown => absurd (handlerActs_iff.1 hown).1 hact⟩
  · by_cases hshut : (s.handlers i).isRequestShutDown = true
    · exact .inl (.inr (.inr hshut))
    · refine .inr (h.can hi (Bool.eq_false_iff.2 hshut) fun hpc => ?_)
      rw [hpc] at hn
      exact hn

end

/-- Once the clock is past `D`, a task that is due by `D` is taken from the queue. -/
theorem leadsTo_taken {p : Path (step n) fun s a => Proper s a ∧ Passed D a} (hi : i < n)
    (hfair : p.Fair (HandlerActs i)) (hV : ∀ k, Live (p.state k) id ∧ Later n D L (p.state k)) :
    p.LeadsTo (Queued i id D) (Taken i id) := by
  refine hfair.leadsTo (V := fun s => Live s id ∧ Later n D L s) hV (fun s => (s.handlers i).wait D L s.tasks)
    (fun s a t ⟨h, hlater⟩ hq ⟨⟨hfresh, hreg, _, hre⟩, hpass⟩ hs => ?_) fun s ⟨h, _⟩ hq => ?_
  · have ht := trans_of_step hs
    by_cases hshut : (s.handlers i).isRequestShutDown = true
    · exact .inl (.inr (.inr (HandlerMove.shutDown (handler_move ht i) hshut)))
    refine (hq.trans h ht).imp_right fun hq' => ⟨hq', ?_⟩
    exact hq.wait_le h (h.trans hfresh hreg ht) hlater hpass hre (Bool.eq_false_iff.2 hshut) hi ht
  · by_cases hshut : (s.handlers i).isRequestShutDown = true
    · exact .inl (.inr (.inr hshut))
    · refine .inr (h.can hi (Bool.eq_false_iff.2 hshut) fun hpc => ?_)
      exact absurd ((h.alert i).empty (by rw [hpc]; trivial)) (List.ne_nil_of_mem hq.1)

section
variable {k : ℕ} {p : Path (step n) Proper} (hV : ∀ k, Live (p.state k) id) (hi : i < n)
  (hfair : p.Fair (HandlerActs i)) (hmem : .task id ∈ ((p.state k).handlers i).queue)
  (hclock : ∃ k₀, ∀ m, k₀ ≤ m → ∀ a, p.act m = some a → Passed ((p.state k).tasks id).deadline a)
include hV hi hfair hmem hclock

/-- If the clock passes the deadline of a task in the queue, the task is taken from it. -/
theorem taken_of_clock : ∃ m, k ≤ m ∧ Taken i id (p.state m) := by
  obtain ⟨k₀, hk₀⟩ := hclock
  let D := ((p.state k).tasks id).deadline
  -- until the clock has passed the deadline, the task stays in the queue or is taken
  have hkept := Path.kept (I := Queued i id D) (J := Taken i id) (f := fun _ => 0) hV
    (fun s a t h hq _ hs => (hq.trans h (trans_of_step hs)).imp_right fun hq' => ⟨hq', Nat.le_refl 0⟩)
    ⟨hmem, UInt64.le_refl _⟩ (Nat.le_max_left k k₀)
  rcases hkept with htaken | ⟨hq, -⟩
  · exact htaken
  · -- the path from then on
    let q := (p.drop (max k k₀)).strengthen (Q := fun s a => Proper s a ∧ Passed D a)
      fun m a hact hP _ => ⟨hP, hk₀ _ (Nat.le_trans (Nat.le_max_right k k₀) (Nat.le_add_right _ m)) a hact⟩
    have hlater : ∀ m, Later n D (q.state 0).called.toFinset (q.state m) :=
      Path.invariant (fun s a t h ha hs => h.trans ha.2 ha.1.2.2.1 ha.1.2.2.2 (trans_of_step hs))
        (.of_called (hV _).placed)
    obtain ⟨m, -, hm⟩ := leadsTo_taken (p := q) hi (hfair.drop _) (fun m => ⟨hV _, hlater m⟩) 0 hq
    exact ⟨max k k₀ + m, Nat.le_trans (Nat.le_max_left k k₀) (Nat.le_add_right _ m), hm⟩

end

/-- **A task that is due is run**: if the clock passes the deadline of a task that is in the queue, and the thread of
    the handler takes its steps, then `DoRun` of the task is entered, unless somebody asks to cancel the task or to
    shut the handler down. -/
theorem due_task_runs {k : ℕ} {p : Path (step n) Proper} (h₀ : p.state 0 = .create) (hi : i < n)
    (hfair : p.Fair (HandlerActs i)) (hmem : .task id ∈ ((p.state k).handlers i).queue)
    (hclock : ∃ k₀, ∀ m, k₀ ≤ m → ∀ a, p.act m = some a → Passed ((p.state k).tasks id).deadline a) :
    ∃ m, k ≤ m ∧ (((p.state k).tasks id).base.doRuns < ((p.state m).tasks id).base.doRuns ∨
      ((p.state m).tasks id).base.isRequestCancel = true ∨ ((p.state m).handlers i).isRequestShutDown = true) := by
  have hV : ∀ k, Live (p.state k) id := Path.invariant live_preserved (h₀ ▸ .create)
  obtain ⟨m, hkm, ⟨hst, -⟩ | hn | hshut⟩ := taken_of_clock hV hi hfair hmem hclock
  · exact ⟨m, hkm, .inr (.inl ((hV m).asked.cancelled hst))⟩
  · have hr : ((p.state k).tasks id).base.doRuns ≤ ((p.state m).tasks id).base.doRuns :=
      Path.stays (V := fun s => Live s id)
        (I := fun s => ((p.state k).tasks id).base.doRuns ≤ (s.tasks id).base.doRuns) hV
        (fun s a t _ hle _ hs => Nat.le_trans hle (doRuns_le (trans_of_step hs) id)) (Nat.le_refl _) hkm
    obtain ⟨m', hm', hans⟩ := leadsTo_answered hi hfair hV m ⟨hn, hr⟩
    exact ⟨m', Nat.le_trans hkm hm', hans⟩
  · exact ⟨m, hkm, .inr (.inr hshut)⟩

/-- The thread looks at the task too early, and waits. -/
theorem due_task_runs_timed : ∃ p : Path (step 1) Proper, p.state 0 = .create ∧
    .task 7 ∈ ((p.state 6).handlers 0).queue ∧ ((p.state 6).tasks 7).base.doRuns = 0 ∧
    ∃ m, 6 ≤ m ∧ (((p.state 6).tasks 7).base.doRuns < ((p.state m).tasks 7).base.doRuns ∨
      ((p.state m).tasks 7).base.isRequestCancel = true ∨ ((p.state m).handlers 0).isRequestShutDown = true) := by
  obtain ⟨t, ht, hmem, hruns, u, hu, hwait⟩ : ∃ t, Run (step 1) Proper .create
      ([.addHandler 0 0 7 (.cron 3)] ++ List.replicate 5 (.caller 0 5 false)) t ∧
      .task 7 ∈ (t.handlers 0).queue ∧ (t.tasks 7).base.doRuns = 0 ∧
      ∃ u ∈ exec (step 1) Proper t (List.replicate 8 (.handler 0 6 .returns) ++
        List.replicate 18 (.handler 0 9 .returns)), (u.handlers 0).pc = .wait false :=
    exists_run (by decide +kernel) fun _ _ h => h
  obtain ⟨p, h₀, hmid, hend⟩ := ht.exists_path (run_of_exec hu)
  have hmem' : .task 7 ∈ ((p.state 6).handlers 0).queue := hmid ▸ hmem
  refine ⟨p, h₀, hmem', hmid ▸ hruns, due_task_runs h₀ Nat.one_pos (Path.fair_of_rest hend ?_) hmem' ⟨32, ?_⟩⟩
  · rintro ⟨a, v, hown, -⟩
    cases a with
    | handler j now e => exact hown.2 hwait
    | _ => exact hown
  · intro m hm a hact
    rw [(hend m hm).2] at hact
    cases hact

end ScheduledThreadPool

end Empool
