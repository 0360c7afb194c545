/-
  The calls of a `SingleThreadPool` return, and its worker ends.

  What a fair scheduler brings about, tasks that return provided: after the first
  `ShutDown` the worker ends with the state `SHUTDOWN` (`shutDown_ends_worker`),
  and every call of `AddTask`, `ShutDown` and `ShutDownNow` returns if at most one
  caller waits when the worker signals (`calls_return`).  With two of them that is
  not so, see `shutDownNow_left_behind`.

  The way to the end goes over the closing sequence, the worker, and the caller;
  each stage has its rank.
-/
import Empool.Single.Release
import Empool.Lib.Fair

namespace Empool

open Lts

namespace SingleThreadPool

variable {s t : SingleThreadPool} {a : Act} {c d : ℕ} {now : Bool}

/-! ## Who has to be scheduled -/

/-- The worker's next statement; the end of a wait counts only if it has been signalled. -/
def WorkerActs : SingleThreadPool → Act → Prop
  | s, .worker => s.worker ≠ .wait false
  | _, .signal _ => True
  | _, _ => False

/-- The next statement of the body of `ShutDown`. -/
def CloserActs : SingleThreadPool → Act → Prop
  | _, .closer spurious => spurious = false
  | _, _ => False

/-- The next statement of the caller `c`; the end of its wait counts only if it has been signalled. -/
def CallerActs (c : ℕ) : SingleThreadPool → Act → Prop
  | s, .caller d spurious => d = c ∧ spurious = false ∧ ¬ s.Blocked c
  | _, _ => False

/-! ## What holds at all times -/

/-- The call has come past `compare_exchange_weak`. -/
def CallerPc.requested : CallerPc → Prop
  | .closing _ | .testState | .waiting => True
  | _ => False

structure Live (s : SingleThreadPool) : Prop where
  sound : s.Sound
  armed : s.Armed
  shut : s.worker.stopped → s.state = .shutDown
  requested : ∀ c, (s.callers c).requested → s.isRequestShutDown = true

theorem live_create (mode : RunMode) : (create mode).Live where
  sound := .create mode
  armed := ⟨False.elim, fun hc => (by cases hc), fun hc => (by cases hc)⟩
  shut := False.elim
  requested _ := False.elim

theorem requested_trans (h : ∀ c, (s.callers c).requested → s.isRequestShutDown = true) (ha : Regular s a)
    (ht : Trans s a t) (d : ℕ) (hd : (t.callers d).requested) : t.isRequestShutDown = true := by
  have hset : ∀ {c : ℕ} {pc : CallerPc}, (pc.requested → s.isRequestShutDown = true) →
      ((s.callerAt c pc).callers d).requested → s.isRequestShutDown = true := fun hpc =>
    update_of (P := fun pc : CallerPc => pc.requested → s.isRequestShutDown = true) (fun _ => hpc) fun _ => h d
  cases ht with
  | addTask | shutDown | refuse | accept | push | released => exact hset False.elim hd
  | @lose c spurious now hc hf =>
    refine hset (fun _ => hf.resolve_right ?_) hd
    rintro rfl
    exact ha
  | win hc hf => rfl
  | @resume c spurious now hc hcl => exact hset (fun _ => h c (show (s.callers c).requested by rw [hc]; trivial)) hd
  | @wait c spurious hc hst =>
    refine hset (fun _ => h c ?_) hd
    rcases hc with hc | hc <;> rw [hc] <;> trivial
  | _ => exact h d hd

theorem Live.trans (h : s.Live) (ha : Regular s a) (ht : Trans s a t) : t.Live where
  sound := h.sound.trans ht
  armed := h.armed.trans ha ht
  shut := Released.shut_trans h.shut h.sound ht
  requested := requested_trans h.requested ha ht

theorem live_preserved : Preserved step Regular Live := fun _ _ _ h ha hs => h.trans ha (trans_of_step hs)

theorem Live.not_wait (h : s.Live) (hret : s.closer = .returned) : s.worker ≠ .wait false := by
  intro hw
  rcases h.armed.pending hret with hl | hd | hm
  · rw [hw] at hl; exact hl
  · rw [hw] at hd; cases hd
  · rw [h.sound.waiting hw] at hm; cases hm

/-! ## The closing sequence -/

def CloserPc.rank : CloserPc → ℕ
  | .idle => 4
  | .setStop => 3
  | .asyncClose => 2
  | .pushEnd => 1
  | .returned => 0

theorem can_closer (hidle : s.closer ≠ .idle) (hret : s.closer ≠ .returned) : Can step CloserActs s := by
  cases hcl : s.closer with
  | idle => exact absurd hcl hidle
  | returned => exact absurd hcl hret
  | setStop | asyncClose | pushEnd =>
    exact ⟨.closer false, _, rfl, by show s.closerStep false = some _; unfold closerStep; rw [hcl]⟩

theorem closer_step (h : s.Live) (hidle : s.closer ≠ .idle) (ht : Trans s a t) :
    t.closer ≠ .idle ∧ t.closer.rank ≤ s.closer.rank ∧ (CloserActs s a → t.closer.rank < s.closer.rank) := by
  cases ht with
  | win hc hf => exact absurd (h.sound.flag.1 hf) hidle
  | setStop hcl | asyncClose hcl | pushEnd hcl =>
    rw [hcl]
    exact ⟨nofun, Nat.le_succ _, fun _ => Nat.lt_succ_self _⟩
  | _ => exact ⟨hidle, Nat.le_refl _, False.elim⟩

/-- Once done, the body of `ShutDown` stays done. -/
theorem returned_trans (s : SingleThreadPool) (a : Act) (t : SingleThreadPool) (h : s.Live)
    (hret : s.closer = .returned) (ht : Trans s a t) : t.closer = .returned := by
  cases ht with
  | win hc hf => exact absurd (h.sound.flag.1 hf) (hret ▸ nofun)
  | setStop hcl | asyncClose hcl | pushEnd hcl => exact absurd (hret ▸ hcl) nofun
  | _ => exact hret

/-! ## The worker -/

def WorkerPc.rank : WorkerPc → ℕ
  | .getTask | .wait _ => 7
  | .dispatch (.functor _ _) => 6
  | .running _ => 5
  | .start | .check | .dispatch .endTask => 4
  | .setShutDown => 3
  | .notify => 2
  | .notifyFinished => 1
  | .ended | .escaped => 0

theorem WorkerPc.looks.rank {pc : WorkerPc} (h : pc.looks) : pc.rank = 7 := by
  cases pc with
  | getTask | wait => rfl
  | _ => cases h

theorem WorkerPc.rank_dispatch (task : PriorityTask) : (dispatch task).rank < 7 := by
  cases task with
  | functor => exact Nat.lt_succ_self 6
  | endTask => exact Nat.lt_add_of_pos_right (Nat.succ_pos 2)

theorem pushTask_rank {task : PriorityTask} : (s.pushTask task).worker.rank = s.worker.rank := by
  rcases @pushTask_worker s task with heq | ⟨hw, heq⟩
  · rw [heq]
  · rw [heq, hw]
    rfl

theorem can_worker (h : s.Live) (hret : s.closer = .returned) (hne : s.worker ≠ .ended) : Can step WorkerActs s := by
  have hact : WorkerActs s .worker := h.not_wait hret
  have hstep : ∀ {t}, s.workerStep = some t → Can step WorkerActs s := fun ht => ⟨.worker, _, hact, ht⟩
  cases hw : s.worker with
  | ended => exact absurd hw hne
  | escaped => exact absurd hw h.armed.alive
  | dispatch task => cases task <;> exact hstep (by unfold workerStep; rw [hw])
  | notify =>
    have hsome : ∃ c, s.stateCond = [] ∨ c ∈ s.stateCond := by
      cases s.stateCond with
      | nil => exact ⟨0, .inl rfl⟩
      | cons c l => exact ⟨c, .inr (List.mem_cons_self ..)⟩
    obtain ⟨c, hc⟩ := hsome
    exact ⟨.signal c, _, trivial, if_pos ⟨hw, hc⟩⟩
  | _ => exact hstep (by unfold workerStep; rw [hw])

theorem worker_step (h : s.Live) (hret : s.closer = .returned) (ha : Regular s a) (ht : Trans s a t) :
    t.closer = .returned ∧ t.worker.rank ≤ s.worker.rank ∧ (WorkerActs s a → t.worker.rank < s.worker.rank) := by
  have hclosed : s.isRequestClose = true := h.armed.closed (hret ▸ trivial)
  have hlt : t.worker.rank < s.worker.rank →
      t.worker.rank ≤ s.worker.rank ∧ (WorkerActs s a → t.worker.rank < s.worker.rank) :=
    fun hlt => ⟨Nat.le_of_lt hlt, fun _ => hlt⟩
  refine ⟨returned_trans s a t h hret ht, ?_⟩
  cases ht with
  | leave hw hcl =>
    refine hlt ?_
    rcases hw with hw | hw <;> rw [hw] <;> exact Nat.lt_succ_self 3
  | start hw hcl | check hw hcl => rw [hclosed] at hcl; cases hcl
  | @take hw task queues hq =>
    refine hlt ?_
    rw [hw.rank]
    exact WorkerPc.rank_dispatch task
  | block hw hq =>
    -- the end task is in the queue
    rcases h.armed.pending hret with hl | hd | hm
    · exact absurd hl hw.not_left
    · exact absurd hd hw.ne_dispatch
    · rw [TaskQueues.getTask_eq_none.1 hq] at hm
      cases hm
  | stop hw | run hw | runReturn hw | setShutDown hw | notifyFinished hw | signal hw hc =>
    refine hlt ?_
    rw [hw]
    exact Nat.lt_succ_self _
  | throw hw => exact absurd ha id
  | @push c spurious task hc => exact ⟨Nat.le_of_eq (@pushTask_rank s task), False.elim⟩
  | setStop hcl | asyncClose hcl | pushEnd hcl => rw [hret] at hcl; cases hcl
  | _ => exact ⟨Nat.le_refl _, False.elim⟩

/-! ## A caller -/

theorem can_caller (hpc : s.callers c ≠ .idle) (hclosing : ∀ now, s.callers c = .closing now → s.closer = .returned)
    (hb : ¬ s.Blocked c) : Can step (CallerActs c) s := by
  have hstep : ∀ {t}, s.callerStep c false = some t → Can step (CallerActs c) s :=
    fun ht => ⟨.caller c false, _, ⟨rfl, rfl, hb⟩, ht⟩
  cases hc : s.callers c with
  | idle => exact absurd hc hpc
  | load task =>
    by_cases hf : s.isRequestShutDown = true
    · exact hstep (by unfold callerStep; rw [hc]; exact if_pos hf)
    · exact hstep (by unfold callerStep; rw [hc]; exact if_neg hf)
  | cas now =>
    by_cases hf : (s.isRequestShutDown || false) = true
    · exact hstep (by unfold callerStep; rw [hc]; exact if_pos hf)
    · exact hstep (by unfold callerStep; rw [hc]; exact if_neg hf)
  | closing now => exact hstep (by unfold callerStep; rw [hc]; exact if_pos (hclosing now hc))
  | push task | testState | waiting => exact hstep (by unfold callerStep; rw [hc])

/-- A caller that is in a call moves only by its own steps. -/
theorem callers_trans (hpc : s.callers c ≠ .idle) (hno : ∀ spurious, a ≠ .caller c spurious) (ht : Trans s a t) :
    t.callers c = s.callers c := by
  have hother : ∀ {d : ℕ} {pc : CallerPc}, d ≠ c → (s.callerAt d pc).callers c = s.callers c :=
    fun hd => Function.update_of_ne hd.symm ..
  have hcaller : ∀ {d : ℕ} {spurious : Bool}, a = .caller d spurious → d ≠ c := by
    rintro d spurious ha rfl
    exact hno spurious ha
  cases ht with
  | addTask hc hst | shutDown hc hst =>
    refine hother ?_
    rintro rfl
    exact hpc hc
  | refuse | accept | push | lose | win | resume | released | wait => exact hother (hcaller rfl)
  | _ => rfl

/-- How far the call is: before the flag, in the body of `ShutDown`, behind it. -/
def CallerPc.enters : CallerPc → Prop
  | .load _ | .push _ | .cas _ => True
  | _ => False

def CallerPc.inBody : CallerPc → Prop
  | .closing _ => True
  | _ => False

def CallerPc.waits : CallerPc → Prop
  | .testState | .waiting => True
  | _ => False

def CallerPc.rank : CallerPc → ℕ
  | .load _ => 1
  | _ => 0

theorem CallerPc.stages (pc : CallerPc) : pc = .idle ∨ pc.enters ∨ pc.inBody ∨ pc.waits := by
  cases pc with
  | idle => exact .inl rfl
  | load | push | cas => exact .inr (.inl trivial)
  | closing => exact .inr (.inr (.inl trivial))
  | testState | waiting => exact .inr (.inr (.inr trivial))

theorem afterShutDown_callers (now : Bool) :
    (s.afterShutDown c now).callers c = .idle ∨ ((s.afterShutDown c now).callers c).waits := by
  rw [show (s.afterShutDown c now).callers c = if now then .testState else .idle from Function.update_self ..]
  cases now with
  | true => exact .inr trivial
  | false => exact .inl rfl

/-- Before the flag, a step of the caller leads on. -/
theorem caller_enters {spurious : Bool} (hpc : (s.callers c).enters) (ht : Trans s (.caller c spurious) t) :
    (t.callers c = .idle ∨ (t.callers c).inBody ∨ (t.callers c).waits) ∨
      ((t.callers c).enters ∧ (t.callers c).rank < (s.callers c).rank) := by
  have hself : ∀ {pc : CallerPc}, (s.callerAt c pc).callers c = pc := Function.update_self ..
  cases ht with
  | refuse hc hf => exact .inl (.inl hself)
  | accept hc hf =>
    rw [hself, hc]
    exact .inr ⟨trivial, Nat.lt_succ_self 0⟩
  | push hc => exact .inl (.inl (Function.update_self ..))
  | @lose c spurious now hc hf => exact .inl ((afterShutDown_callers now).imp id .inr)
  | win hc hf =>
    refine .inl (.inr (.inl ?_))
    rw [show ({ s.callerAt c _ with isRequestShutDown := true, closer := _ } : SingleThreadPool).callers c = _ from hself]
    trivial
  | resume hc hcl => rw [hc] at hpc; cases hpc
  | released hc hst | wait hc hst => rcases hc with hc | hc <;> rw [hc] at hpc <;> cases hpc

/-- A worker that has ended stays so, and nobody waits for it any more. -/
theorem ended_trans (s : SingleThreadPool) (a : Act) (t : SingleThreadPool) (h : s.Live)
    (hend : s.worker = .ended ∧ s.stateCond = []) (ht : Trans s a t) : t.worker = .ended ∧ t.stateCond = [] := by
  obtain ⟨hw, hnil⟩ := hend
  have hpush : ∀ task : PriorityTask, (s.pushTask task).worker = .ended := by
    intro task
    rcases @pushTask_worker s task with heq | ⟨hwait, -⟩
    · exact heq.trans hw
    · rw [hw] at hwait; cases hwait
  cases ht with
  | leave h' | start h' | check h' | take h' | block h' | stop h' | run h' | runReturn h' | setShutDown h'
    | notifyFinished h' | signal h' | throw h' => simp [hw, WorkerPc.looks] at h'
  | @push c spurious task hc => exact ⟨hpush task, hnil⟩
  | pushEnd hcl => exact ⟨hpush .endTask, hnil⟩
  | released hc hst =>
    refine ⟨hw, ?_⟩
    show s.stateCond.erase _ = []
    rw [hnil]
    rfl
  | wait hc hst => exact absurd (h.shut (hw ▸ trivial)) hst
  | _ => exact ⟨hw, hnil⟩

theorem CallerPc.inBody.requested {pc : CallerPc} (h : pc.inBody) : pc.requested := by
  cases pc with
  | closing => trivial
  | _ => cases h

theorem CallerPc.waits.requested {pc : CallerPc} (h : pc.waits) : pc.requested := by
  cases pc with
  | testState | waiting => trivial
  | _ => cases h

/-- A call that waits for the state goes on to do so, or returns. -/
theorem waits_step (hpc : (s.callers c).waits) (ht : Trans s a t) : t.callers c = .idle ∨ (t.callers c).waits := by
  by_cases ha : ∃ spurious, a = .caller c spurious
  · obtain ⟨spurious, rfl⟩ := ha
    cases ht with
    | released hc hst => exact .inl (Function.update_self ..)
    | wait hc hst =>
      rw [show ({ s.callerAt c .waiting with stateCond := _ } : SingleThreadPool).callers c = .waiting from
        Function.update_self ..]
      exact .inr trivial
    | refuse hc | accept hc | push hc | lose hc | win hc | resume hc => rw [hc] at hpc; cases hpc
  · rw [callers_trans (by intro hc; rw [hc] at hpc; cases hpc) (fun sp hsp => ha ⟨sp, hsp⟩) ht]
    exact .inr hpc

theorem inBody_step (hpc : (s.callers c).inBody) (ht : Trans s a t) :
    (t.callers c = .idle ∨ (t.callers c).waits) ∨ (t.callers c).inBody := by
  by_cases ha : ∃ spurious, a = .caller c spurious
  · obtain ⟨spurious, rfl⟩ := ha
    cases ht with
    | resume hc hcl => exact .inl (afterShutDown_callers _)
    | refuse hc | accept hc | push hc | lose hc | win hc => rw [hc] at hpc; cases hpc
    | released hc | wait hc => rcases hc with hc | hc <;> rw [hc] at hpc <;> cases hpc
  · rw [callers_trans (by intro hc; rw [hc] at hpc; cases hpc) (fun sp hsp => ha ⟨sp, hsp⟩) ht]
    exact .inr hpc

/-! ## What a fair scheduler brings about -/

section
variable {P : SingleThreadPool → Act → Prop} {p : Path step P} (hreg : ∀ s a, P s a → Regular s a)
  (hlive : ∀ n, (p.state n).Live) (hcloser : p.Fair CloserActs) (hworker : p.Fair WorkerActs)
  (hcaller : p.Fair (CallerActs c))
include hlive

include hcloser in
/-- The closing sequence is executed to its end. -/
theorem leadsTo_returned : p.LeadsTo (fun s => s.closer ≠ .idle) fun s => s.closer = .returned :=
  hcloser.leadsTo hlive (fun s => s.closer.rank)
    (fun _ _ _ hl hidle _ hs => .inr (closer_step hl hidle (trans_of_step hs)))
    fun s _ hidle => (em (s.closer = .returned)).imp id (can_closer hidle)

include hreg hworker in
/-- The worker ends behind it. -/
theorem leadsTo_ended : p.LeadsTo (fun s => s.closer = .returned) fun s => s.worker = .ended :=
  hworker.leadsTo hlive (fun s => s.worker.rank)
    (fun _ _ _ hl hret ha hs => .inr (worker_step hl hret (hreg _ _ ha) (trans_of_step hs)))
    fun s hl hret => (em (s.worker = .ended)).imp id (can_worker hl hret)

include hreg hcaller in
/-- A stage `Q` of the caller `c` that its own steps leave, while `K` keeps them possible. -/
theorem leadsTo_of_caller {Q : CallerPc → Prop} {J K : SingleThreadPool → Prop} (hidle : ¬ Q .idle)
    (hK : ∀ s a t, s.Live → K s → Trans s a t → K t)
    (hown : ∀ s t spurious, s.Live → K s → Q (s.callers c) → Regular s (.caller c spurious) →
      Trans s (.caller c spurious) t → J t ∨ Q (t.callers c) ∧ (t.callers c).rank < (s.callers c).rank)
    (hcan : ∀ s, K s → Q (s.callers c) → (∀ now, s.callers c = .closing now → s.closer = .returned) ∧
      ¬ s.Blocked c) : p.LeadsTo (fun s => K s ∧ Q (s.callers c)) J := by
  have hne : ∀ {s : SingleThreadPool}, Q (s.callers c) → s.callers c ≠ .idle := fun hQ hc => hidle (hc ▸ hQ)
  refine hcaller.leadsTo hlive (fun s => (s.callers c).rank) (fun s a t hl hI hP hs => ?_) fun s _ hI => .inr ?_
  · have ht := trans_of_step hs
    by_cases ha : ∃ spurious, a = .caller c spurious
    · obtain ⟨spurious, rfl⟩ := ha
      refine (hown s t spurious hl hI.1 hI.2 (hreg _ _ hP) ht).imp id fun h => ?_
      exact ⟨⟨hK s _ t hl hI.1 ht, h.1⟩, Nat.le_of_lt h.2, fun _ => h.2⟩
    · have hsame : t.callers c = s.callers c := callers_trans (hne hI.2) (fun sp hsp => ha ⟨sp, hsp⟩) ht
      refine .inr ⟨⟨hK s a t hl hI.1 ht, hsame ▸ hI.2⟩, Nat.le_of_eq (by rw [hsame]), fun hact => ?_⟩
      cases a with
      | caller d sp => exact absurd ⟨sp, by rw [hact.1]⟩ ha
      | _ => cases hact
  · obtain ⟨hclosing, hb⟩ := hcan s hI.1 hI.2
    exact can_caller (hne hI.2) hclosing hb

include hreg hcaller in
/-- A call gets past the flag. -/
theorem leadsTo_entered : p.LeadsTo (fun s => True ∧ (s.callers c).enters)
    fun s => s.callers c = .idle ∨ (s.callers c).inBody ∨ (s.callers c).waits := by
  refine leadsTo_of_caller hreg hlive hcaller id (fun _ _ _ _ _ _ => trivial)
    (fun s t sp _ _ hQ _ ht => caller_enters hQ ht) fun s _ hQ => ⟨fun now hc => ?_, fun hb => ?_⟩
  · rw [hc] at hQ; cases hQ
  · rw [hb.1] at hQ; cases hQ

include hreg hcaller in
/-- A call of `ShutDown` sets the flag, or finds it set. -/
theorem leadsTo_requested : p.LeadsTo (fun s => True ∧ ∃ now, s.callers c = .cas now) fun s => s.closer ≠ .idle := by
  refine leadsTo_of_caller (Q := fun pc => ∃ now, pc = .cas now) hreg hlive hcaller (by rintro ⟨now, h⟩; cases h)
    (fun _ _ _ _ _ _ => trivial) (fun s t sp hl _ hQ ha ht => .inl ?_) fun s _ hQ => ?_
  · obtain ⟨now, hpc⟩ := hQ
    cases ht with
    | lose hc hf =>
      show s.closer ≠ .idle
      refine fun hidle => absurd (hl.sound.flag.2 hidle) ?_
      rw [hf.resolve_right (by rintro rfl; exact ha)]
      exact nofun
    | win hc hf => exact nofun
    | refuse hc | accept hc | push hc | resume hc => rw [hpc] at hc; cases hc
    | released hc | wait hc => rcases hc with hc | hc <;> rw [hpc] at hc <;> cases hc
  · obtain ⟨now, hpc⟩ := hQ
    refine ⟨fun now' hc => ?_, fun hb => ?_⟩
    · rw [hpc] at hc; cases hc
    · rw [hb.1] at hpc; cases hpc

include hreg hcaller in
/-- The call that closes returns from `ShutDown` when the body is done. -/
theorem leadsTo_resumed : p.LeadsTo (fun s => s.closer = .returned ∧ (s.callers c).inBody)
    fun s => s.callers c = .idle ∨ (s.callers c).waits := by
  refine leadsTo_of_caller hreg hlive hcaller id returned_trans (fun s t sp _ _ hQ _ ht => .inl ?_)
    fun s hret hQ => ⟨fun _ _ => hret, fun hb => ?_⟩
  · cases ht with
    | resume hc hcl => exact afterShutDown_callers _
    | refuse hc | accept hc | push hc | lose hc | win hc => rw [hc] at hQ; cases hQ
    | released hc | wait hc => rcases hc with hc | hc <;> rw [hc] at hQ <;> cases hQ
  · rw [hb.1] at hQ; cases hQ

include hreg hcaller in
/-- A call that tests the state when the worker has ended, and nobody is left behind, returns. -/
theorem leadsTo_released : p.LeadsTo (fun s => (s.worker = .ended ∧ s.stateCond = []) ∧ (s.callers c).waits)
    fun s => s.callers c = .idle := by
  refine leadsTo_of_caller hreg hlive hcaller id ended_trans (fun s t sp hl hK hQ _ ht => .inl ?_)
    fun s hK hQ => ⟨fun now hc => ?_, fun hb => ?_⟩
  · cases ht with
    | released hc hst => exact Function.update_self ..
    | wait hc hst => exact absurd (hl.shut (hK.1 ▸ trivial)) hst
    | refuse hc | accept hc | push hc | lose hc | win hc | resume hc => rw [hc] at hQ; cases hQ
  · rw [hc] at hQ; cases hQ
  · have hmem := hb.2
    rw [hK.2] at hmem
    cases hmem

end

/-! ## Runs to the end -/

/-- Nothing is left to do. -/
structure Quiet (c : ℕ) (s : SingleThreadPool) : Prop where
  worker : s.worker = .ended
  closer : s.closer = .returned
  caller : s.callers c = .idle

theorem Quiet.rest (h : s.Quiet c) :
    ¬ Can step WorkerActs s ∧ ¬ Can step CloserActs s ∧ ¬ Can step (CallerActs c) s := by
  obtain ⟨hw, hcl, hc⟩ := h
  refine ⟨?_, ?_, ?_⟩
  · rintro ⟨a, t, hact, hs⟩
    cases a with
    | worker => simp [step, workerStep, hw] at hs
    | signal c => simp [step, signalStep, hw] at hs
    | _ => cases hact
  · rintro ⟨a, t, hact, hs⟩
    cases a with
    | closer spurious => simp [step, closerStep, hcl] at hs
    | _ => cases hact
  · rintro ⟨a, t, hact, hs⟩
    cases a with
    | caller d spurious =>
      obtain ⟨rfl, -⟩ := hact
      simp [step, callerStep, hc] at hs
    | _ => cases hact

/-- A run to such a state is a path on which everybody is treated fairly. -/
theorem Quiet.exists_path {P : SingleThreadPool → Act → Prop} {s t u : SingleThreadPool} {as bs : List Act}
    (h : Run step P s as t) (h' : Run step P t bs u) (hu : u.Quiet c) : ∃ p : Path step P,
    p.state 0 = s ∧ p.state as.length = t ∧ p.Fair WorkerActs ∧ p.Fair CloserActs ∧ p.Fair (CallerActs c) := by
  obtain ⟨p, h₀, hmid, hend⟩ := h.exists_path h'
  obtain ⟨hw, hcl, hc⟩ := hu.rest
  exact ⟨p, h₀, hmid, Path.fair_of_rest hend hw, Path.fair_of_rest hend hcl, Path.fair_of_rest hend hc⟩

/-! ## The results -/

/-- **After a `ShutDown` the worker ends.** -/
theorem shutDown_ends_worker {mode : RunMode} {p : Path step Regular} (h₀ : p.state 0 = create mode)
    (hworker : p.Fair WorkerActs) (hcloser : p.Fair CloserActs) (hcaller : p.Fair (CallerActs c)) {n : ℕ}
    (hcas : (p.state n).callers c = .cas now) :
    ∃ m, n ≤ m ∧ (p.state m).worker = .ended ∧ (p.state m).state = .shutDown := by
  have hlive : ∀ n, (p.state n).Live := Path.invariant live_preserved (h₀ ▸ live_create mode)
  have hreg : ∀ s a, Regular s a → Regular s a := fun _ _ h => h
  have hleads := ((leadsTo_requested hreg hlive hcaller).trans (leadsTo_returned hlive hcloser)).trans
    (leadsTo_ended hreg hlive hworker)
  obtain ⟨m, hnm, hm⟩ := hleads n ⟨trivial, now, hcas⟩
  exact ⟨m, hnm, hm, (hlive m).shut (hm ▸ trivial)⟩

/-- The worker has not looked at the close flag yet. -/
theorem shutDown_ends_worker_idle : ∃ p : Path step Regular, p.state 0 = create .fifo ∧
    ∃ m, 2 ≤ m ∧ (p.state m).worker = .ended ∧ (p.state m).state = .shutDown := by
  obtain ⟨t, ht, hcas, u, hu, hquiet⟩ : ∃ t, Run step Regular (create .fifo) [.construct, .shutDown 0 false] t ∧
      t.callers 0 = .cas false ∧ ∃ u ∈ exec step Regular t
        [.caller 0 false, .closer false, .closer false, .closer false, .caller 0 false, .worker, .worker,
          .signal 0, .worker], u.worker = .ended ∧ u.closer = .returned ∧ u.callers 0 = .idle :=
    exists_run (by decide +kernel) fun _ _ h => h
  obtain ⟨p, h₀, hmid, hworker, hcloser, hcaller⟩ := Quiet.exists_path (c := 0) ht (run_of_exec hu)
    ⟨hquiet.1, hquiet.2.1, hquiet.2.2⟩
  exact ⟨p, h₀, shutDown_ends_worker h₀ hworker hcloser hcaller (n := 2) (hmid ▸ hcas)⟩

/-- The steps of a run are regular, and when the worker signals at most one caller waits. -/
def RegularOneWaiter (s : SingleThreadPool) (a : Act) : Prop := Regular s a ∧ OneWaiter s a

instance (s : SingleThreadPool) (a : Act) : Decidable (RegularOneWaiter s a) := inferInstanceAs (Decidable (_ ∧ _))

/-- **Every call returns.** -/
theorem calls_return {mode : RunMode} {p : Path step RegularOneWaiter} (h₀ : p.state 0 = create mode)
    (hworker : p.Fair WorkerActs) (hcloser : p.Fair CloserActs) (hcaller : p.Fair (CallerActs c)) (n : ℕ) :
    ∃ m, n ≤ m ∧ (p.state m).callers c = .idle := by
  have hreg : ∀ s a, RegularOneWaiter s a → Regular s a := fun _ _ h => h.1
  have hlive : ∀ n, (p.state n).Live := Path.invariant (live_preserved.imp hreg) (h₀ ▸ live_create mode)
  have hrel : ∀ n, (p.state n).Live ∧ (p.state n).Released := Path.invariant
    (I := fun s : SingleThreadPool => s.Live ∧ s.Released)
    (fun s a t h ha hs => ⟨h.1.trans ha.1 (trans_of_step hs), h.2.trans h.1.sound ha.2 (trans_of_step hs)⟩)
    (h₀ ▸ ⟨live_create mode, False.elim, False.elim⟩)
  have hbegun : ∀ s : SingleThreadPool, s.Live → (s.callers c).requested → s.closer ≠ .idle := by
    intro s hl hpc hidle
    exact absurd (hl.requested c hpc) (hl.sound.flag.2 hidle ▸ nofun)
  have hclosed := leadsTo_returned hlive hcloser
  have hended : p.LeadsTo (fun s => s.closer ≠ .idle) fun s => s.worker = .ended ∧ s.stateCond = [] := by
    intro n hn
    obtain ⟨m, hnm, hm⟩ := (hclosed.trans (leadsTo_ended hreg hlive hworker)) n hn
    exact ⟨m, hnm, hm, (hrel m).2.nobody (hm ▸ trivial)⟩
  -- the stages, from the last to the first
  have hwaits : p.LeadsTo (fun s => (s.callers c).waits) fun s => s.callers c = .idle := by
    intro n hn
    have hkeep := hended.keeping (K := fun s => (s.callers c).waits) hlive
      fun s a t _ hpc _ hs => waits_step hpc (trans_of_step hs)
    refine (hkeep.trans ((Path.leadsTo_of_imp fun _ h => h).or (leadsTo_released hreg hlive hcaller))) n ⟨?_, hn⟩
    exact hbegun _ (hlive n) hn.requested
  have hbody : p.LeadsTo (fun s => (s.callers c).inBody) fun s => s.callers c = .idle := by
    intro n hn
    have hkeep := hclosed.keeping (K := fun s => (s.callers c).inBody) hlive
      fun s a t _ hpc _ hs => inBody_step hpc (trans_of_step hs)
    have hback := (Path.leadsTo_of_imp (p := p) fun _ h => h).or hwaits
    refine (hkeep.trans (hback.or ((leadsTo_resumed hreg hlive hcaller).trans hback))) n ⟨?_, hn⟩
    exact hbegun _ (hlive n) hn.requested
  have henters : p.LeadsTo (fun s => True ∧ (s.callers c).enters) fun s => s.callers c = .idle :=
    (leadsTo_entered hreg hlive hcaller).trans ((Path.leadsTo_of_imp fun _ h => h).or (hbody.or hwaits))
  rcases ((p.state n).callers c).stages with h | h | h | h
  · exact ⟨n, Nat.le_refl n, h⟩
  · exact henters n ⟨trivial, h⟩
  · exact hbody n h
  · exact hwaits n h

/-- A `ShutDownNow` waits for a worker that has not begun. -/
theorem calls_return_waiting : ∃ p : Path step RegularOneWaiter, p.state 0 = create .lifo ∧
    (p.state 8).callers 0 = .waiting ∧ ∃ m, 8 ≤ m ∧ (p.state m).callers 0 = .idle := by
  obtain ⟨t, ht, hpc, u, hu, hquiet⟩ : ∃ t, Run step RegularOneWaiter (create .lifo)
      [.construct, .shutDown 0 true, .caller 0 false, .closer false, .closer false, .closer false,
        .caller 0 false, .caller 0 false] t ∧
      t.callers 0 = .waiting ∧ ∃ u ∈ exec step RegularOneWaiter t
        [.worker, .worker, .signal 0, .worker, .caller 0 false],
        u.worker = .ended ∧ u.closer = .returned ∧ u.callers 0 = .idle :=
    exists_run (by decide +kernel) fun _ _ h => h
  obtain ⟨p, h₀, hmid, hworker, hcloser, hcaller⟩ := Quiet.exists_path (c := 0) ht (run_of_exec hu)
    ⟨hquiet.1, hquiet.2.1, hquiet.2.2⟩
  exact ⟨p, h₀, hmid ▸ hpc, calls_return h₀ hworker hcloser hcaller 8⟩

end SingleThreadPool

end Empool
