/-
  Cancelling a task of a `ScalingThreadPool`.

  If no task object is added twice and no task throws, a task that has stopped
  is out of the queue, and a worker that still has it is at the last statement
  of `Run` (`Past`, `Stopped`).  So a `Cancel` that has returned leaves a
  silent task: no worker is inside its `DoRun`, and none enters it again
  (`pool_cancel_silent`).  In all, `DoRun` is entered at most once
  (`doRun_at_most_once`).
-/
import Empool.Scaling.Cancel
import Empool.Lib.History

namespace Empool

open Lts TaskBase Handoff

namespace TaskPool

variable {cfg : Config} {s t : TaskPool} {a : Act} {w i : ℕ} {Q : RunPc → Prop}

/-- No caller pushes a task object that has been pushed before, and no task throws. -/
def SingleUse (s : TaskPool) : Act → Prop
  | .pool (.caller c .push) => ∀ u ∈ (s.pool.callers c).task, u = .endTask ∨ u ∉ s.pool.pushed
  | .run _ e => e ≠ .otherException
  | _ => True

instance (s : TaskPool) : (a : Act) → Decidable (SingleUse s a)
  | .pool (.caller _ .push) => inferInstanceAs (Decidable (∀ u ∈ _, _ ∨ _))
  | .run _ _ => inferInstanceAs (Decidable (_ ≠ _))
  | .pool (.caller _ (.addTask _)) | .pool (.caller _ (.shutDown _)) | .pool (.caller _ .load)
  | .pool (.caller _ .notify) | .pool (.caller _ (.cas _)) | .pool (.caller _ .resume)
  | .pool (.caller _ .testState) | .pool (.caller _ .wake) | .pool (.worker ..) | .pool (.monitor _)
  | .pool (.closer _) | .cancel .. | .canceller _ => isTrue trivial

/-! ## One place -/

/-- Each user task was pushed once, and is in one place. -/
structure Tracked (s : TaskPool) : Prop where
  balanced : s.pool.ledger.Balanced
  nodup : s.pool.ledger.entered.Nodup

theorem mem_filterMap_userId {i : ℕ} {us : List Task} : i ∈ us.filterMap Task.userId ↔ .user i ∈ us := by
  constructor
  · intro h
    obtain ⟨u, hu, hi⟩ := List.mem_filterMap.1 h
    cases u with
    | user j => cases hi; exact hu
    | endTask => cases hi
  · exact fun h => List.mem_filterMap.2 ⟨_, h, rfl⟩

/-- A task that a worker holds is in no other place. -/
theorem Tracked.alone (h : Tracked s) (hw : w < s.pool.workerNum) (hh : (s.pool.workers w).Holds (.user i)) :
    .user i ∈ s.pool.pushed ∧ .user i ∉ s.pool.taskQueue ∧
      ∀ v < s.pool.workerNum, (s.pool.workers v).Holds (.user i) → v = w := by
  have hheld : i ∈ s.pool.ledger.held :=
    List.mem_filterMap.2 ⟨w, List.mem_range.2 hw, Worker.holding_eq_some.2 hh⟩
  have hpos := List.count_pos_iff.2 hheld
  have hcount := h.balanced.count i
  have hent : i ∈ s.pool.ledger.entered := List.count_pos_iff.1 (by omega)
  have hone := List.count_eq_one_of_mem h.nodup hent
  refine ⟨mem_filterMap_userId.1 hent, fun hq => ?_, ?_⟩
  · have : i ∈ s.pool.ledger.waiting := mem_filterMap_userId.2 hq
    have := List.count_pos_iff.2 this
    omega
  · have hheld' := held_count s.pool i
    obtain ⟨u, -, -, huniq⟩ := exists_unique_of_countP (hheld'.symm.trans (by omega : s.pool.ledger.held.count i = 1))
    intro v hv hhv
    rw [huniq v (List.mem_range.2 hv) (by simpa using hhv), huniq w (List.mem_range.2 hw) (by simpa using hh)]

theorem noThrow_of_leavesRun {b : Empool.Act} (h : b.leavesRun = false) : NoThrow s.pool b := by
  cases b with
  | worker v b =>
    cases b with
    | runThrow => cases h
    | _ => rfl
  | _ => rfl

/-- A step of the pool, or none. -/
theorem Trans.pool_move (ha : SingleUse s a) (ht : Trans cfg s a t) : t.pool = s.pool ∨
    ∃ b, Empool.step cfg s.pool b = some t.pool ∧ NoThrow s.pool b ∧
      (a = .pool b ∨ ∃ v, b = .worker v .runReturn) := by
  cases ht with
  | pool hb hs => exact .inr ⟨_, hs, noThrow_of_leavesRun (s := s) hb, .inl rfl⟩
  | returned hin hr hs => exact .inr ⟨_, hs, rfl, .inr ⟨_, rfl⟩⟩
  | thrown => exact absurd rfl ha
  | goto | cancel | store | wait => exact .inl rfl

/-- What is pushed is new. -/
theorem pushed_new (ha : SingleUse s a) {b : Empool.Act} {p : Pool} (hs : Empool.step cfg s.pool b = some p)
    (hab : a = .pool b ∨ ∃ v, b = .worker v .runReturn) :
    p.pushed = s.pool.pushed ∨ ∃ u, p.pushed = s.pool.pushed ++ [u] ∧ (u = .endTask ∨ u ∉ s.pool.pushed) := by
  have hkeep : (∀ c, b ≠ .caller c .push) → b ≠ .closer .pushEnd → p.pushed = s.pool.pushed := by
    intro hc hcl
    obtain ⟨-, rfl⟩ := step_eq_some.1 hs
    cases b with
    | worker v b =>
      cases b with
      | pop | wake =>
        simp only [next, workerNext, workerAct, Worker.popTimeWait]
        split <;> rfl
      | dispatch | finish | notifyAll =>
        simp only [next, workerNext, workerAct]
        split <;> rfl
      | _ => rfl
    | monitor b =>
      cases b with
      | lock | wake =>
        simp only [next, monitorAct, Pool.timeWait]
        split <;> rfl
      | start | check | recheck | grow | insert | find =>
        simp only [next, monitorAct]
        split <;> rfl
      | _ => rfl
    | caller c b =>
      cases b with
      | push => exact absurd rfl (hc c)
      | load | cas =>
        simp only [next, callerNext, callerAct]
        split <;> rfl
      | _ => rfl
    | closer b =>
      cases b with
      | pushEnd => exact absurd rfl hcl
      | _ => rfl
  by_cases hc : ∃ c, b = .caller c .push
  · obtain ⟨c, rfl⟩ := hc
    obtain rfl := hab.resolve_right (by rintro ⟨v, ⟨⟩⟩)
    obtain ⟨-, rfl⟩ := step_eq_some.1 hs
    cases htask : (s.pool.callers c).task with
    | none => exact .inl (by simp [next, callerNext, callerAct, htask])
    | some u => exact .inr ⟨u, by simp [next, callerNext, callerAct, htask, Pool.pushTask], ha u htask⟩
  by_cases hcl : b = .closer .pushEnd
  · subst hcl
    obtain ⟨-, rfl⟩ := step_eq_some.1 hs
    exact .inr ⟨.endTask, rfl, .inl rfl⟩
  exact .inl (hkeep (fun c h => hc ⟨c, h⟩) hcl)

theorem Tracked.create (ids : LiveIds cfg.corePoolSize) : Tracked (.create cfg ids) := by
  have hheld : (List.range cfg.corePoolSize).filterMap (Worker.holding ∘ (initPool cfg ids).workers) = [] := by
    refine List.filterMap_eq_nil_iff.2 fun w _ => ?_
    simp [initPool, Worker.create, Worker.holding]
  refine ⟨⟨[], rfl, ?_⟩, List.nodup_nil⟩
  rw [show (TaskPool.create cfg ids).pool.ledger.held = [] from hheld]
  exact .refl _

theorem Tracked.trans (h : Tracked s) (ha : SingleUse s a) (ht : Trans cfg s a t) : Tracked t := by
  rcases ht.pool_move ha with heq | ⟨b, hs, hthrow, hab⟩
  · exact ⟨by rw [heq]; exact h.balanced, by rw [heq]; exact h.nodup⟩
  · constructor
    · rcases ledger_step hthrow hs with heq | hstep
      · rw [heq]
        exact h.balanced
      · exact h.balanced.step hstep
    · show (t.pool.pushed.filterMap Task.userId).Nodup
      rcases pushed_new ha hs hab with heq | ⟨u, heq, hnew⟩
      · rw [heq]
        exact h.nodup
      · rw [heq, List.filterMap_append]
        refine h.nodup.append ?_ ?_
        · cases u with
          | user j => exact List.nodup_singleton j
          | endTask => exact List.nodup_nil
        · intro i hi hi'
          rw [mem_filterMap_userId, List.mem_singleton] at hi'
          subst hi'
          exact (hnew.resolve_left nofun) (mem_filterMap_userId.1 hi)

/-! ## A task that is past some statement of `Run` -/

/-- The task has been taken from the queue, and a worker that still has it is at a statement `Q` of `Run`. -/
structure Past (Q : RunPc → Prop) (s : TaskPool) (i : ℕ) : Prop where
  pushed : .user i ∈ s.pool.pushed
  taken : .user i ∉ s.pool.taskQueue
  place : ∀ w < s.pool.workerNum, (s.pool.workers w).Holds (.user i) →
    (s.pool.workers w).pc = .running ∧ Q (s.runs w)

/-- A worker that holds a task after a step held it before, or has popped it. -/
theorem holds_before {b : Empool.Act} {p : Pool} (hs : Empool.step cfg s.pool b = some p) (hw : w < p.workerNum)
    (hh : (p.workers w).Holds (.user i)) :
    .user i ∈ s.pool.taskQueue ∨ w < s.pool.workerNum ∧ (s.pool.workers w).Holds (.user i) := by
  rcases worker_new hs hw with hlt | ⟨id, -, -, hnew⟩
  swap
  · rw [hnew] at hh
    cases hh.1
  have hm := worker_move hs w
  generalize p.workers w = wk at hm hh
  cases hm with
  | same | close => exact .inr ⟨hlt, hh⟩
  | create => exact absurd hlt (Nat.lt_irrefl _)
  | @act _ b hen =>
    obtain ⟨htask, hpc⟩ := hh
    cases b with
    | pop | wake =>
      left
      simp only [workerAct, Worker.popTimeWait] at htask hpc
      split at htask
      · rename_i hnil
        rw [hnil] at hpc
        rcases hpc with hpc | hpc <;> cases hpc
      · rename_i u q hq
        rw [hq]
        cases htask
        exact List.mem_cons_self ..
    | dispatch =>
      refine .inr ⟨hlt, ?_, .inl hen.2.1⟩
      simp only [workerAct] at htask
      split at htask <;> exact htask
    | start | check | recheck | judge | finish | compare =>
      simp only [workerAct, Worker.checkFunc] at hpc
      split at hpc <;> rcases hpc with hpc | hpc <;> cases hpc
    | _ => rcases hpc with hpc | hpc <;> cases hpc

theorem Past.pool {b : Empool.Act} {p : Pool} (h : Past Q s i) (ha : SingleUse s (.pool b))
    (hb : b.leavesRun = false) (hs : Empool.step cfg s.pool b = some p) : Past Q (s.poolNext p) i where
  pushed := pushed_mono hs h.pushed
  taken hmem := by
    have hmem : Task.user i ∈ p.taskQueue := hmem
    cases queueMove_of_step hs with
    | same hq => exact h.taken (hq ▸ hmem)
    | push u hq hp =>
      rw [hq] at hmem
      rcases List.mem_append.1 hmem with hmem | hmem
      · exact h.taken hmem
      · obtain rfl := List.mem_singleton.1 hmem
        -- it has been pushed before
        rcases pushed_new ha hs (.inl rfl) with heq | ⟨u, heq, hnew⟩
        · have := congrArg List.length (heq.symm.trans hp)
          rw [List.length_append, List.length_singleton] at this
          omega
        · obtain rfl := List.singleton_inj.1 (List.append_cancel_left (heq.symm.trans hp))
          exact (hnew.resolve_left nofun) h.pushed
    | pop u v hv hpc hheld hq =>
      refine h.taken ?_
      rw [hq]
      exact List.mem_cons_of_mem u hmem
  place v hv hh := by
    obtain ⟨hlt, hheld⟩ := (holds_before hs hv hh).resolve_left h.taken
    obtain ⟨hpc, hQ⟩ := h.place v hlt hheld
    exact ⟨(running_of_step hs hb hlt hpc).1, hQ⟩

theorem Past.goto {b : TaskBase} {pc : RunPc} {j : ℕ} (h : Past Q s i) (hin : s.Inside w j)
    (hQ : Q (s.runs w) → Q pc) :
    Past Q { s with tasks := Function.update s.tasks j b, runs := Function.update s.runs w pc } i where
  pushed := h.pushed
  taken := h.taken
  place v hv hh := by
    obtain ⟨hpc, hq⟩ := h.place v hv hh
    refine ⟨hpc, ?_⟩
    show Q (Function.update s.runs w pc v)
    by_cases hvw : v = w
    · subst hvw
      rw [Function.update_self]
      exact hQ hq
    · rwa [Function.update_of_ne hvw]

theorem Past.returned {b : TaskBase} {p : Pool} {j : ℕ} (h : Past Q s i)
    (hs : Empool.step cfg s.pool (.worker w .runReturn) = some p) :
    Past Q { s with
      pool := p
      tasks := Function.update s.tasks j b
      runs := Function.update s.runs w .checkCancellation } i := by
  obtain ⟨hnum, hqueue, hpushed, hother, hback⟩ := of_runReturn hs
  refine ⟨hpushed ▸ h.pushed, hqueue ▸ h.taken, fun v hv hh => ?_⟩
  by_cases hvw : v = w
  · subst hvw
    rcases hh.2 with hpc | hpc <;> cases hback.symm.trans hpc
  · have hh : (p.workers v).Holds (.user i) := hh
    rw [hother v hvw] at hh
    obtain ⟨hpc, hq⟩ := h.place v (hnum ▸ hv) hh
    refine ⟨?_, ?_⟩
    · show (p.workers v).pc = .running
      rw [hother v hvw, hpc]
    · show Q (Function.update s.runs w .checkCancellation v)
      rwa [Function.update_of_ne hvw]

/-- The statements of the system keep a task past `Q`, if the statements of `Run` stay in `Q`. -/
theorem Past.trans (h : Past Q s i) (hQ : ∀ {b pc b' pc'}, RunTrans b pc b' (.goto pc') → Q pc → Q pc')
    (ha : SingleUse s a) (ht : Trans cfg s a t) : Past Q t i := by
  cases ht with
  | pool hb hs => exact h.pool ha hb hs
  | goto hin hr => exact h.goto hin (hQ hr)
  | returned hin hr hs => exact h.returned hs
  | thrown => exact absurd rfl ha
  | cancel | store | wait => exact ⟨h.pushed, h.taken, h.place⟩

/-- A worker comes to `Q` with a task. -/
theorem Tracked.past {b : TaskBase} {pc : RunPc} (h : Tracked s) (hin : s.Inside w i) (hQ : Q pc) :
    Past Q { s with tasks := Function.update s.tasks i b, runs := Function.update s.runs w pc } i := by
  obtain ⟨hpushed, htaken, halone⟩ := h.alone hin.1 ⟨hin.2.2, .inr hin.2.1⟩
  refine ⟨hpushed, htaken, fun v hv hh => ?_⟩
  obtain rfl := halone v hv hh
  refine ⟨hin.2.1, ?_⟩
  show Q (Function.update s.runs v pc v)
  rwa [Function.update_self]

/-! ## A task that has stopped -/

/-- At the last statement of `Run`. -/
abbrev atNotify (pc : RunPc) : Prop := pc = .notify

theorem atNotify_goto {b b' : TaskBase} {pc pc' : RunPc} (hr : RunTrans b pc b' (.goto pc')) (h : atNotify pc) :
    atNotify pc' := by
  cases h
  cases hr

/-- The return from `Run` leaves the state and the count of `DoRun`. -/
theorem returned_frame {b b' : TaskBase} {pc : RunPc} (hr : RunTrans b pc b' .returned) :
    b'.state = b.state ∧ b'.doRuns = b.doRuns := by
  cases hr with
  | notifyAll | notifyNone => exact ⟨rfl, rfl⟩

/-- A statement of `Run` that stops the task leads to the last one. -/
theorem goto_stopped {b b' : TaskBase} {pc pc' : RunPc} (hr : RunTrans b pc b' (.goto pc'))
    (hstop : b'.state.stopped) : b.state.stopped ∨ pc' = .notify := by
  cases hr with
  | cancelled | clear | returns | cancelException => exact .inl hstop
  | setRunning => exact hstop.elim
  | setFinished | setCancelled => exact .inr rfl

/-- A task that has stopped is past its `SetState`. -/
def Stopped (s : TaskPool) : Prop := ∀ i, (s.tasks i).state.stopped → Past atNotify s i

theorem Stopped.trans (h : Stopped s) (hp : Tracked s) (ha : SingleUse s a) (ht : Trans cfg s a t) : Stopped t := by
  intro i hi
  have hkeep : (s.tasks i).state.stopped → Past atNotify t i := fun hs => (h i hs).trans atNotify_goto ha ht
  cases ht with
  | pool | cancel => exact hkeep hi
  | thrown => exact absurd rfl ha
  | @goto w j e b pc hin hr =>
    by_cases hij : i = j
    · subst hij
      have hi : (Function.update s.tasks i b i).state.stopped := hi
      rw [Function.update_self] at hi
      exact (goto_stopped hr hi).elim hkeep fun hpc => hp.past hin hpc
    · have hi : (Function.update s.tasks j b i).state.stopped := hi
      rw [Function.update_of_ne hij] at hi
      exact hkeep hi
  | @returned w j e b p hin hr hs => exact hkeep (apply_update_of_eq (returned_frame hr).1 i ▸ hi)
  | @store c id hc =>
    have hst : (s.tasks id).cancelStore.state = (s.tasks id).state := rfl
    exact hkeep (apply_update_of_eq hst i ▸ hi)
  | @wait c id hc => exact hkeep (apply_update_of_eq (cancelTest_frame (s.tasks id) c).1 i ▸ hi)

theorem tracked_preserved : Preserved (step cfg) SingleUse fun s => Tracked s ∧ Stopped s :=
  fun _ _ _ h ha hs => ⟨h.1.trans ha (trans_of_step hs), h.2.trans h.1 ha (trans_of_step hs)⟩

theorem stopped_create (ids : LiveIds cfg.corePoolSize) : Stopped (.create cfg ids) := fun _ hi => hi.elim

/-- A task that is past its `SetState` is not entered again. -/
theorem Past.doRuns (h : Past atNotify s i) (ha : SingleUse s a) (ht : Trans cfg s a t) :
    (t.tasks i).doRuns = (s.tasks i).doRuns := by
  cases ht with
  | pool | cancel => rfl
  | thrown => exact absurd rfl ha
  | @goto w j e b pc hin hr =>
    by_cases hij : i = j
    · subst hij
      obtain ⟨-, hpc⟩ := h.place w hin.1 ⟨hin.2.2, .inr hin.2.1⟩
      rw [hpc] at hr
      cases hr
    · exact congrArg TaskBase.doRuns (Function.update_of_ne hij ..)
  | @returned w j e b p hin hr hs => exact apply_update_of_eq (returned_frame hr).2 i
  | @store c id hc =>
    have hst : (s.tasks id).cancelStore.doRuns = (s.tasks id).doRuns := rfl
    exact apply_update_of_eq hst i
  | @wait c id hc => exact apply_update_of_eq (cancelTest_frame (s.tasks id) c).2.2 i

/-! ## After `Cancel` -/

/-- The tasks whose `Cancel` has returned to a caller. -/
def returns (l : List ℕ) (s : TaskPool) : Act → List ℕ
  | .canceller c => (s.cancellers c).requested.elim l fun i => if (s.tasks i).state.stopped then i :: l else l
  | _ => l

/-- A step with the tasks whose `Cancel` has returned. -/
def returning (cfg : Config) : List ℕ × TaskPool → Act → Option (List ℕ × TaskPool) := record (step cfg) returns

/-- The tasks whose `Cancel` has returned have stopped, and are past their `SetState`. -/
theorem returns_past {l l' : List ℕ} (h : ∀ i ∈ l, Past atNotify s i) (hst : Stopped s) (ha : SingleUse s a)
    (h' : returning cfg (l, s) a = some (l', t)) : ∀ i ∈ l', Past atNotify t i := by
  obtain ⟨hs, rfl⟩ := record_eq_some.1 h'
  have ht := trans_of_step hs
  intro i hi
  have hpast : Past atNotify s i := by
    cases a with
    | canceller c =>
      simp only [returns] at hi
      cases hreq : (s.cancellers c).requested with
      | none =>
        rw [hreq] at hi
        exact h i hi
      | some j =>
        rw [hreq] at hi
        simp only [Option.elim] at hi
        split_ifs at hi with hstop
        · rcases List.mem_cons.1 hi with rfl | hi
          · exact hst i hstop
          · exact h i hi
        · exact h i hi
    | _ => exact h i hi
  exact hpast.trans atNotify_goto ha ht

/-- **After `Cancel` the task is silent**: if no task object is added twice and no task throws, then once `Cancel`
    has returned no worker is inside `DoRun` of the task or about to enter it, and `DoRun` is not entered again. -/
theorem pool_cancel_silent (ids : LiveIds cfg.corePoolSize) {as bs : List Act} {l : List ℕ}
    (h : Run (returning cfg) (fun p => SingleUse p.2) ([], .create cfg ids) as (l, s)) (hi : i ∈ l)
    (h' : Run (step cfg) SingleUse s bs t) :
    (t.tasks i).doRuns = (s.tasks i).doRuns ∧ ∀ w, t.Inside w i → ¬ (t.runs w).inRun := by
  have hpreserved : Preserved (returning cfg) (fun p => SingleUse p.2)
      fun p => (Tracked p.2 ∧ Stopped p.2) ∧ ∀ i ∈ p.1, Past atNotify p.2 i := by
    rintro ⟨l, s⟩ a ⟨l', t⟩ ⟨hp, hpast⟩ ha hs
    exact ⟨tracked_preserved s a t hp ha (record_eq_some.1 hs).1, returns_past hpast hp.2 ha hs⟩
  have hpast : Past atNotify s i :=
    (h.invariant hpreserved ⟨⟨.create ids, stopped_create ids⟩, fun i hi => by cases hi⟩).2 i hi
  have hlater := h'.invariant (I := fun u => Past atNotify u i ∧ (u.tasks i).doRuns = (s.tasks i).doRuns)
    (fun u a v hu ha hs => ⟨hu.1.trans atNotify_goto ha (trans_of_step hs),
      (hu.1.doRuns ha (trans_of_step hs)).trans hu.2⟩) ⟨hpast, rfl⟩
  refine ⟨hlater.2, fun w hin hrun => ?_⟩
  obtain ⟨-, hpc⟩ := hlater.1.place w hin.1 ⟨hin.2.2, .inr hin.2.1⟩
  rw [hpc] at hrun
  exact hrun

/-- A `Cancel` of a task that is running returns when the task has finished. -/
theorem pool_cancel_silent_running : ∃ p : List ℕ × TaskPool,
    Run (returning ⟨1, 1⟩) (fun p => SingleUse p.2) ([], .create ⟨1, 1⟩ (.first 1))
      [.pool (.caller 0 (.addTask (some (.user 7)))), .pool (.caller 0 .load), .pool (.caller 0 .push),
        .pool (.caller 0 .notify), .pool (.worker 0 .start), .pool (.worker 0 .check), .pool (.worker 0 .pop),
        .pool (.worker 0 .dispatch), .run 0 .returns, .run 0 .returns, .cancel 2 7, .canceller 2, .canceller 2,
        .run 0 .returns, .run 0 .returns, .run 0 .returns, .canceller 2] p ∧
      p.1 = [7] ∧ (p.2.tasks 7).doRuns = 1 ∧ ∀ w, p.2.Inside w 7 → ¬ (p.2.runs w).inRun := by
  refine exists_run (I := fun p => p.1 = [7] ∧ (p.2.tasks 7).doRuns = 1) (by decide +kernel)
    fun p hrun ⟨hl, hone⟩ => ⟨hl, hone, ?_⟩
  obtain ⟨l, s⟩ := p
  obtain rfl : l = [7] := hl
  exact (@pool_cancel_silent ⟨1, 1⟩ s s 7 (.first 1) _ [] [7] hrun (List.mem_singleton_self 7) (.nil s)).2

/-! ## Once -/

/-- `DoRun` has been entered. -/
def entered : RunPc → Prop
  | .checkCancellation | .setRunning => False
  | _ => True

/-- Only the step into `DoRun` changes its count. -/
theorem goto_doRuns {b b' : TaskBase} {pc pc' : RunPc} (hr : RunTrans b pc b' (.goto pc')) :
    b'.doRuns = b.doRuns ∨ ¬ entered pc ∧ entered pc' ∧ b'.doRuns = b.doRuns + 1 := by
  cases hr with
  | setRunning => exact .inr ⟨id, trivial, rfl⟩
  | _ => exact .inl rfl

theorem entered_goto {b b' : TaskBase} {pc pc' : RunPc} (hr : RunTrans b pc b' (.goto pc')) (h : entered pc) :
    entered pc' := by
  cases hr with
  | clear => exact h
  | _ => trivial

/-- `DoRun` has not been entered, or once, and the task is past it then. -/
def Once (s : TaskPool) : Prop :=
  ∀ i, (s.tasks i).doRuns = 0 ∨ (s.tasks i).doRuns = 1 ∧ Past entered s i

theorem Once.trans (h : Once s) (hp : Tracked s) (ha : SingleUse s a) (ht : Trans cfg s a t) : Once t := by
  intro i
  have hkeep : (t.tasks i).doRuns = (s.tasks i).doRuns →
      (t.tasks i).doRuns = 0 ∨ (t.tasks i).doRuns = 1 ∧ Past entered t i := by
    intro heq
    rw [heq]
    exact (h i).imp_right fun hone => ⟨hone.1, hone.2.trans entered_goto ha ht⟩
  cases ht with
  | pool | cancel => exact hkeep rfl
  | thrown => exact absurd rfl ha
  | @goto w j e b pc hin hr =>
    by_cases hij : i = j
    · subst hij
      have hb : Function.update s.tasks i b i = b := Function.update_self ..
      rcases goto_doRuns hr with heq | ⟨hnot, hent, heq⟩
      · exact hkeep ((congrArg TaskBase.doRuns hb).trans heq)
      · -- it has not been entered before
        have hzero : (s.tasks i).doRuns = 0 := by
          refine (h i).resolve_right fun ⟨_, hpast⟩ => hnot ?_
          exact (hpast.place w hin.1 ⟨hin.2.2, .inr hin.2.1⟩).2
        refine .inr ⟨?_, hp.past hin hent⟩
        show (Function.update s.tasks i b i).doRuns = 1
        rw [hb, heq, hzero]
    · exact hkeep (congrArg TaskBase.doRuns (Function.update_of_ne hij ..))
  | @returned w j e b p hin hr hs => exact hkeep (apply_update_of_eq (returned_frame hr).2 i)
  | @store c id hc =>
    have hst : (s.tasks id).cancelStore.doRuns = (s.tasks id).doRuns := rfl
    exact hkeep (apply_update_of_eq hst i)
  | @wait c id hc => exact hkeep (apply_update_of_eq (cancelTest_frame (s.tasks id) c).2.2 i)

/-- **`DoRun` is entered at most once** for each task object, if none is added twice and no task throws. -/
theorem doRun_at_most_once (ids : LiveIds cfg.corePoolSize) {as : List Act}
    (h : Run (step cfg) SingleUse (.create cfg ids) as s) (i : ℕ) : (s.tasks i).doRuns ≤ 1 := by
  have honce := h.invariant (I := fun s => Tracked s ∧ Once s)
    (fun s a t hi ha hs => ⟨hi.1.trans ha (trans_of_step hs), hi.2.trans hi.1 ha (trans_of_step hs)⟩)
    ⟨.create ids, fun _ => .inl rfl⟩
  rcases honce.2 i with hzero | ⟨hone, -⟩
  · rw [hzero]
    exact Nat.zero_le 1
  · rw [hone]

/-- A task that has been run. -/
theorem doRun_at_most_once_run : ∃ s : TaskPool,
    Run (step ⟨1, 1⟩) SingleUse (.create ⟨1, 1⟩ (.first 1))
      [.pool (.caller 0 (.addTask (some (.user 7)))), .pool (.caller 0 .load), .pool (.caller 0 .push),
        .pool (.caller 0 .notify), .pool (.worker 0 .start), .pool (.worker 0 .check), .pool (.worker 0 .pop),
        .pool (.worker 0 .dispatch), .run 0 .returns, .run 0 .returns, .run 0 .returns, .run 0 .returns,
        .run 0 .returns] s ∧
      (s.tasks 7).state = .finished ∧ (s.tasks 7).doRuns ≤ 1 := by
  refine exists_run (I := fun s : TaskPool => (s.tasks 7).state = .finished) (by decide +kernel)
    fun s hrun hfin => ⟨hfin, ?_⟩
  exact @doRun_at_most_once ⟨1, 1⟩ s (.first 1) _ hrun 7

end TaskPool

end Empool
