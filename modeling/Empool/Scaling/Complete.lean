/-
  Shutdown completes: does the last worker that stops set the state?

  A stopping worker compares the number of stopped workers with the size of
  `m_threads`.  The comparison fails for the last one if a retired worker is
  still in `m_threads` (`shutDown_missed`), and the state that it sets is lost
  if `SetState(STOP)` comes later.
-/
import Empool.Scaling.Stopped
import Empool.Scaling.Backlog

namespace Empool

open Lts

variable {cfg : Config} {s t : Pool}

/-- The worker is about to set `SHUTDOWN`, or it is the `n`-th one that has been counted and has
    still to compare. -/
def Worker.Due (wk : Worker) (n : ℕ) : Prop :=
  wk.pc = .setShutDown ∨ (wk.pc = .compare ∧ wk.stoppedThreadNum = n)

instance (wk : Worker) (n : ℕ) : Decidable (wk.Due n) := inferInstanceAs (Decidable (_ ∨ _ ∧ _))

/-- Shutdown is requested while a worker is left that has not retired, `STOP` overwrites `SHUTDOWN`
    only if a worker is left to set it again, and the last worker that stops finds no retired
    worker in `m_threads`. -/
def CountsAll (s : Pool) : Act → Prop
  | .caller _ b => b.Wins s → ∃ w < s.workerNum, (s.workers w).retired = false
  | .closer .setStop => s.state = .shutDown →
      ∃ w < s.workerNum, (s.workers w).Due s.stoppedThreadNum ∨ (s.workers w).out = false
  | .worker w .compare => (s.workers w).stoppedThreadNum = s.stoppedThreadNum →
      (∀ v < s.workerNum, (s.workers v).out = true) → ∀ e ∈ s.threads, (s.workers e.2).retired = false
  | _ => True

instance (s : Pool) : (a : Act) → Decidable (CountsAll s a)
  | .caller _ b => inferInstanceAs (Decidable (b.Wins s → ∃ w < s.workerNum, _))
  | .closer .setStop => inferInstanceAs (Decidable (_ → ∃ w < s.workerNum, _))
  | .worker _ .compare => inferInstanceAs (Decidable (_ → (∀ v < s.workerNum, _) → ∀ e ∈ s.threads, _))
  | .worker _ .start | .worker _ .check | .worker _ .pop | .worker _ .wake | .worker _ .timeout
  | .worker _ .judge | .worker _ (.asyncClose _) | .worker _ .recheck | .worker _ .dispatch
  | .worker _ .runReturn | .worker _ .runThrow | .worker _ .finish | .worker _ .subPush
  | .worker _ .subNotify | .worker _ .count | .worker _ .setShutDown | .worker _ .notifyAll
  | .worker _ .notifyFinished | .closer .lock | .closer (.asyncClose _ _) | .closer .threadNum
  | .closer .pushEnd | .closer .unlock | .closer (.closeMonitor _) | .closer .subPush | .closer .notify
  | .monitor _ =>
    inferInstanceAs (Decidable True)

theorem countsAll_adds (s : Pool) (b : CallerAct) (h : b.adds = true) : CountsAll s (.caller 0 b) := by
  intro hw
  cases b with
  | cas => cases h
  | _ => exact absurd hw id

/-- `SHUTDOWN` is set, or somebody is left to set it. -/
def Owed (s : Pool) : Prop :=
  s.state = .shutDown ∨ (∃ w < s.workerNum, (s.workers w).Due s.stoppedThreadNum) ∨
    ∃ w < s.workerNum, (s.workers w).out = false

/-- If no entry belongs to a retired worker and all workers are out, the comparison succeeds. -/
theorem threads_le_counted (h : Accounts s) (hout : ∀ v < s.workerNum, (s.workers v).out = true)
    (hr : ∀ e ∈ s.threads, (s.workers e.2).retired = false) : s.threads.length ≤ s.stoppedThreadNum := by
  have hcounted : ∀ w ∈ s.members, (Worker.counted ∘ s.workers) w = true := by
    intro w hw
    obtain ⟨e, he, rfl⟩ := List.mem_map.1 hw
    have := hout e.2 (h.books.entries.entry e he).2.1
    simpa [Worker.out, hr e he] using this
  have hmem : ∀ w ∈ s.members, w ∈ List.range s.workerNum := by
    intro w hw
    obtain ⟨e, he, rfl⟩ := List.mem_map.1 hw
    exact List.mem_range.2 (h.books.entries.entry e he).2.1
  calc s.threads.length = s.members.countP (Worker.counted ∘ s.workers) := by
        rw [List.countP_eq_length.2 hcounted, Pool.members, List.length_map]
    _ ≤ countedNum s := countP_le_countP h.books.entries.nodup fun w hw _ => hmem w hw
    _ = s.stoppedThreadNum := h.count.num.symm

/-- The last worker that stops sets `SHUTDOWN`, unless another worker is not out. -/
theorem owed_compare {w : ℕ} (hen : Enabled s (.worker w .compare)) (h : Accounts s)
    (hP : CountsAll s (.worker w .compare)) (hn : (s.workers w).stoppedThreadNum = s.stoppedThreadNum) :
    Owed (workerNext cfg s w .compare) := by
  obtain ⟨hw, hpc, -⟩ := hen
  by_cases hlen : s.threads.length ≤ (s.workers w).stoppedThreadNum
  · refine .inr (.inl ⟨w, hw, .inl ?_⟩)
    rw [workerNext_self]
    simp [workerAct, hlen]
  · have hnot : ¬ ∀ v < s.workerNum, (s.workers v).out = true := fun hout =>
      hlen (hn ▸ threads_le_counted h hout (hP hn hout))
    simp only [not_forall] at hnot
    obtain ⟨v, hv, hvout⟩ := hnot
    have hvw : v ≠ w := by
      rintro rfl
      have := h.books.ok v
      unfold Worker.Ok at this
      rw [hpc] at this
      exact hvout (by simp [Worker.out, this.2.2])
    refine .inr (.inr ⟨v, hv, ?_⟩)
    rw [workerNext_of_ne w _ hvw]
    simpa using hvout

theorem owed_count {w : ℕ} (hen : Enabled s (.worker w .count)) : Owed (workerNext cfg s w .count) := by
  refine .inr (.inl ⟨w, hen.1, .inr ?_⟩)
  rw [workerNext_self]
  exact ⟨rfl, rfl⟩

theorem owed_due {a : Act} (h : Accounts s) (hP : CountsAll s a) (hs : step cfg s a = some t) {w : ℕ}
    (hw : w < s.workerNum) (hd : (s.workers w).Due s.stoppedThreadNum) : Owed t := by
  by_cases hc : ∃ v, a = .worker v .count
  · obtain ⟨v, rfl⟩ := hc
    obtain ⟨hen, rfl⟩ := step_eq_some.1 hs
    exact owed_count hen
  have hst := stopped_step hs fun v hv => hc ⟨v, hv⟩
  by_cases ha : ∃ b, a = .worker w b
  · obtain ⟨b, rfl⟩ := ha
    obtain ⟨hen, rfl⟩ := step_eq_some.1 hs
    have hpc := hen.2.1
    rcases hd with hd | ⟨hd, hn⟩
    · rw [hd] at hpc
      cases b <;> cases hpc
      exact .inl rfl
    · rw [hd] at hpc
      cases b <;> cases hpc
      exact owed_compare hen h hP hn
  · obtain ⟨r, hr⟩ := worker_other hs hw fun b hb => ha ⟨b, hb⟩
    refine .inr (.inl ⟨w, Nat.lt_of_lt_of_le hw (workerNum_le hs), ?_⟩)
    rw [hr, hst]
    exact hd

theorem owed_left {a : Act} (hs : step cfg s a = some t) (hf : s.isRequestShutDown = true) {w : ℕ}
    (hw : w < s.workerNum) (hout : (s.workers w).out = false) : Owed t := by
  have hw' := Nat.lt_of_lt_of_le hw (workerNum_le hs)
  by_cases ha : ∃ b, a = .worker w b
  · obtain ⟨b, rfl⟩ := ha
    obtain ⟨hen, rfl⟩ := step_eq_some.1 hs
    by_cases hb : b = .count
    · subst hb; exact owed_count hen
    refine .inr (.inr ⟨w, hw', ?_⟩)
    simp only [Worker.out, Bool.or_eq_false_iff] at hout
    rw [next, workerNext_self, Worker.out, counted_act hb, hout.1, Bool.false_or]
    by_cases hb' : b = .finish
    · subst hb'; simp [workerAct, hf, hout.2]
    · rw [retired_act hb']; exact hout.2
  · obtain ⟨r, hr⟩ := worker_other hs hw fun b hb => ha ⟨b, hb⟩
    exact .inr (.inr ⟨w, hw', by rw [hr]; exact hout⟩)

/-- Under `CountsAll`, once shutdown is requested `SHUTDOWN` is owed until it is set. -/
theorem owed_preserved : PreservedUnder (step cfg) CountsAll Accounts
    fun s => s.isRequestShutDown = true → Owed s := by
  intro s a t h hI hP hs hf'
  cases hf : s.isRequestShutDown with
  | true =>
    rcases hI hf with hst | ⟨w, hw, hd⟩ | ⟨w, hw, hout⟩
    · rcases state_step hs with heq | ⟨w, rfl⟩ | rfl
      · exact .inl (heq.trans hst)
      · obtain ⟨-, rfl⟩ := step_eq_some.1 hs
        exact .inl rfl
      · obtain ⟨w, hw, hd | hout⟩ := hP hst
        · exact owed_due h hP hs hw hd
        · exact owed_left hs hf hw hout
    · exact owed_due h hP hs hw hd
    · exact owed_left hs hf hw hout
  | false =>
    -- this step requests shutdown
    obtain ⟨-, rfl⟩ := step_eq_some.1 hs
    cases a with
    | caller c b =>
      have hw : b.Wins s := by
        by_contra hw
        rw [next, (@callerNext_closing cfg s c b hw).1, hf] at hf'
        cases hf'
      obtain ⟨w, hlt, hr⟩ := hP hw
      refine .inr (.inr ⟨w, by simpa [next] using hlt, ?_⟩)
      rw [next, callerNext_workers, Worker.out, (h.count.flag hf w).1, hr]
      rfl
    | worker w b => rw [next, workerNext_flag, hf] at hf'; cases hf'
    | monitor b => rw [next, monitorAct_flag, hf] at hf'; cases hf'
    | closer b => rw [next, closerAct_flag, hf] at hf'; cases hf'

theorem Owed.shutDown (ho : Owed s) (hok : ∀ v, (s.workers v).Ok)
    (hdone : ∀ w < s.workerNum, (s.workers w).FinishDone) : s.state = .shutDown := by
  rcases ho with h | ⟨w, hw, hd⟩ | ⟨w, hw, hout⟩
  · exact h
  · exfalso
    have hpc := (hdone w hw).1
    rcases hd with hd | ⟨hd, -⟩ <;> rw [hd] at hpc <;> simp at hpc
  · rw [(hdone w hw).out (hok w)] at hout
    cases hout

theorem run_owed (ids : LiveIds cfg.corePoolSize) {as : List Act}
    (h : Run (step cfg) CountsAll (initPool cfg ids) as s) (hf : s.isRequestShutDown = true) : Owed s := by
  have hacc : Preserved (step cfg) CountsAll Accounts := accounts_preserved.imp fun _ _ _ => trivial
  exact h.invariant_under hacc owed_preserved (.init ids) (fun hf => by simp [initPool] at hf) hf

/-- **Shutdown completes**: in every run whose steps meet `CountsAll`, once shutdown is requested
    and every worker created has completed its finish action, the state is `SHUTDOWN`. -/
theorem shutDown_completes (ids : LiveIds cfg.corePoolSize) {as : List Act}
    (h : Run (step cfg) CountsAll (initPool cfg ids) as s) (hf : s.isRequestShutDown = true)
    (hdone : ∀ w < s.workerNum, (s.workers w).FinishDone) : s.state = .shutDown :=
  (run_owed ids h hf).shutDown (run_books ids h.free).ok hdone

/-! ## Callers that wait for the state -/

/-- A caller that waits in `ShutDownNow` and has not been notified waits for a state that is still
    to be set, or for the broadcast after it. -/
def WaitersServed (s : Pool) : Prop :=
  ∀ c, (s.callers c).pc = .waiting → (s.callers c).notified = false →
    s.state ≠ .shutDown ∨ ∃ w < s.workerNum, (s.workers w).pc = .notifyAll

theorem waitersServed_worker {w : ℕ} {b : WorkerAct} (hen : Enabled s (.worker w b)) (h : StopCount s)
    (hok : ∀ v, (s.workers v).Ok) (hI : WaitersServed s) : WaitersServed (workerNext cfg s w b) := by
  have hs : step cfg s (.worker w b) = some (workerNext cfg s w b) := step_eq_some.2 ⟨hen, rfl⟩
  obtain ⟨hw, hpc, -⟩ := hen
  intro c hc hn
  by_cases hset : b = .setShutDown
  · subst hset
    refine .inr ⟨w, hw, ?_⟩
    rw [workerNext_self]; rfl
  by_cases hall : b = .notifyAll
  · subst hall
    -- the worker is counted, so the broadcast reaches everybody who waits
    have hf : s.isRequestShutDown = true := by
      by_contra hf
      have hok := hok w
      unfold Worker.Ok at hok
      rw [hpc] at hok
      have := (h.flag (by simpa using hf) w).1
      rw [hok.2.2] at this; cases this
    simp only [workerNext, workerAct, hf, if_true, Pool.notifyAllState] at hc hn
    by_cases hcw : (s.callers c).pc = .waiting
    · rw [if_pos hcw] at hn; cases hn
    · rw [if_neg hcw] at hc; exact absurd hc hcw
  rw [workerNext_callers w b hall] at hc hn
  rw [workerNext_state w b hset]
  rcases hI c hc hn with hst | ⟨v, hv, hvpc⟩
  · exact .inl hst
  · refine .inr ⟨v, by rwa [workerNext_workerNum], ?_⟩
    by_cases hvw : v = w
    · subst hvw
      rw [hvpc] at hpc
      cases b <;> cases hpc
      exact absurd rfl hall
    · rw [workerNext_of_ne w b hvw]; exact hvpc

theorem waitersServed_caller {c : ℕ} {b : CallerAct} (hI : WaitersServed s) :
    WaitersServed (callerNext cfg s c b) := by
  intro d hd hn
  rw [callerNext_state, callerNext_workerNum, callerNext_workers]
  by_cases hdc : d = c
  · subst hdc
    simp only [callerNext, Function.update_self] at hd hn
    cases b with
    | testState | wake =>
      simp only [callerAct, Caller.waitState] at hd
      split at hd
      · cases hd
      · rename_i hst; exact .inl hst
    | load =>
      simp only [callerAct] at hd
      split at hd <;> cases hd
    | cas =>
      simp only [callerAct] at hd
      split at hd
      · simp only [Caller.afterShutDown] at hd
        split at hd <;> cases hd
      · cases hd
    | resume =>
      simp only [callerAct, Caller.afterShutDown] at hd
      split at hd <;> cases hd
    | _ => cases hd
  · have hsame : (callerNext cfg s c b).callers d = s.callers d := by
      simp only [callerNext, Function.update_of_ne hdc]
    rw [hsame] at hd hn
    exact hI d hd hn

/-- No caller is left waiting for a broadcast that nobody makes. -/
theorem waitersServed_preserved : PreservedUnder (step cfg) Free Accounts WaitersServed := by
  intro s a t h hI _ hs
  have hs' := hs
  obtain ⟨hen, rfl⟩ := step_eq_some.1 hs
  cases a with
  | worker w b => exact waitersServed_worker hen h.count h.books.ok hI
  | caller c b => exact waitersServed_caller hI
  | monitor b =>
    intro c hc hn
    rw [next, monitorAct_callers] at hc hn
    rw [next, monitorAct_state]
    rcases hI c hc hn with hst | ⟨v, hv, hvpc⟩
    · exact .inl hst
    · obtain ⟨r, hr⟩ := worker_other hs' hv (by simp)
      rw [next] at hr
      exact .inr ⟨v, Nat.lt_of_lt_of_le hv (workerNum_le hs'), by rw [hr]; exact hvpc⟩
  | closer b =>
    intro c hc hn
    rw [next, closerAct_callers] at hc hn
    by_cases hb : b = .setStop
    · subst hb; left; simp [next, closerAct]
    rw [next, closerAct_state b hb, closerAct_workerNum]
    rcases hI c hc hn with hst | ⟨v, hv, hvpc⟩
    · exact .inl hst
    · obtain ⟨r, hr⟩ := worker_other hs' hv (by simp)
      rw [next] at hr
      exact .inr ⟨v, hv, by rw [hr]; exact hvpc⟩

theorem waitersServed_init (ids : LiveIds cfg.corePoolSize) : WaitersServed (initPool cfg ids) := by
  intro c hc
  simp [initPool, Caller.idle] at hc

/-! ## A retired worker in `m_threads` -/

/-- The caller 1 calls `ShutDownNow`; the closing pass visits the three workers. -/
def shutDownThree : List Act :=
  [.caller 1 (.shutDown true), .caller 1 (.cas false), .closer .setStop, .closer .lock,
    .closer (.asyncClose 0 false), .closer (.asyncClose 1 false), .closer (.asyncClose 2 false),
    .closer .threadNum, .closer .pushEnd, .closer .pushEnd, .closer .pushEnd, .closer .unlock,
    .closer (.closeMonitor false), .closer .subPush, .closer .notify, .caller 1 .resume, .caller 1 .testState]

/-- The monitor finds that it is closed. -/
def monitorEnds : List Act := [.monitor .lock, .monitor .recheck, .monitor .finish]

/-- The workers 1 and 2 stop: the one in its timed wait after a last task, the other at once. -/
def workersStop : List Act :=
  [.worker 1 .wake, .worker 1 .dispatch, .worker 1 .runReturn, .worker 1 .check, .worker 1 .finish,
    .worker 1 .count, .worker 1 .compare, .worker 2 .start, .worker 2 .finish, .worker 2 .count,
    .worker 2 .compare]

/-- The worker 0 stops as the last one. -/
def lastStops : List Act :=
  [.worker 0 .timeout, .worker 0 .judge, .worker 0 (.asyncClose false), .worker 0 .recheck, .worker 0 .finish,
    .worker 0 .count, .worker 0 .compare, .worker 0 .setShutDown, .worker 0 .notifyAll]

/-- Worker 0 has retired and its entry is not erased: the workers 1 and 2 stop, both find three
    threads, and nobody sets the state that the caller waits for. -/
theorem shutDown_missed : ∃ s, Run (step ⟨2, 3⟩) Free (initPool ⟨2, 3⟩ (.first 2))
    (bothWait ++ addTaskCalls 0 1025 ++ (grow ++ retireFirst ++ [.worker 0 .subNotify] ++ shutDownThree ++
      monitorEnds ++ workersStop)) s ∧
      s.closer.pc = .returned ∧ s.monitor.pc = .ended ∧ (∀ w < s.workerNum, (s.workers w).FinishDone) ∧
      s.state = .stop ∧ (s.callers 1).pc = .waiting :=
  exists_runWith (fun _ _ _ => trivial) (by decide +kernel) fun _ _ h => h

/-- Where all three workers stop after the request, the last of them sets the state. -/
theorem shutDown_completes_three : ∃ s, Run (step ⟨2, 3⟩) CountsAll (initPool ⟨2, 3⟩ (.first 2))
    (bothWait ++ addTaskCalls 0 1025 ++ (grow ++ shutDownThree ++ monitorEnds ++ workersStop ++ lastStops)) s ∧
      s.workerNum = 3 ∧ s.state = .shutDown := by
  refine exists_runWith (I := fun s => s.workerNum = 3 ∧ s.isRequestShutDown = true ∧
    ∀ w < s.workerNum, (s.workers w).FinishDone) countsAll_adds (by decide +kernel)
    fun s hrun ⟨hnum, hf, hdone⟩ => ⟨hnum, ?_⟩
  exact @shutDown_completes ⟨2, 3⟩ s (.first 2) _ hrun hf hdone

end Empool
