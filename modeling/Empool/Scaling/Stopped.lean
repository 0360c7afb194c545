/-
  The stop counter, and the order of the closing sequence.

  `m_stoppedThreadNum` counts the workers whose finish action came after the
  request of shutdown; the others have retired.  A worker that is counted or
  retired is `out`: it starts no task any more.  Once the closing sequence has
  closed the monitor, and its iteration is over, no worker is started
  (`MonitorShut`).
-/
import Empool.Scaling.Books
import Empool.Lib.Count

namespace Empool

open Lts

variable {cfg : Config} {s t : Pool}

/-! ## Workers that are out -/

/-- The finish action has counted the worker as stopped, or the worker has retired. -/
def Worker.out (wk : Worker) : Bool := wk.counted || wk.retired

theorem counted_act {wk : Worker} {b : WorkerAct} (h : b ≠ .count) :
    (workerAct cfg s wk b).1.counted = wk.counted := by
  cases b with
  | count => exact absurd rfl h
  | start | check | recheck | pop | wake | dispatch | finish =>
    simp only [workerAct, Worker.popTimeWait, Worker.checkFunc]
    split <;> rfl
  | _ => rfl

theorem retired_act {wk : Worker} {b : WorkerAct} (h : b ≠ .finish) :
    (workerAct cfg s wk b).1.retired = wk.retired := by
  cases b with
  | finish => exact absurd rfl h
  | start | check | recheck | pop | wake | dispatch =>
    simp only [workerAct, Worker.popTimeWait, Worker.checkFunc]
    split <;> rfl
  | _ => rfl

theorem out_act {wk : Worker} {b : WorkerAct} (h : wk.out = true) :
    (workerAct cfg s wk b).1.out = true := by
  simp only [Worker.out, Bool.or_eq_true] at h ⊢
  by_cases hc : b = .count
  · subst hc; exact .inl rfl
  by_cases hf : b = .finish
  · subst hf
    simp only [workerAct]
    split
    · exact h
    · exact .inr rfl
  rw [counted_act hc, retired_act hf]
  exact h

theorem out_stays {a : Act} (hs : step cfg s a = some t) {v : ℕ} (hv : v < s.workerNum)
    (h : (s.workers v).out = true) : (t.workers v).out = true := by
  have hm := worker_move hs v
  generalize t.workers v = wk at hm ⊢
  cases hm with
  | same => exact h
  | act => exact out_act h
  | close => exact h
  | create => exact absurd hv (Nat.lt_irrefl _)

/-- A worker that is out has left its loop. -/
theorem Worker.Ok.finished {wk : Worker} (hok : wk.Ok) (h : wk.out = true) : wk.finishCalls = 1 := by
  unfold Worker.Ok at hok
  simp only [Worker.out, Bool.or_eq_true] at h
  cases hpc : wk.pc with
  | ended =>
    rw [hpc] at hok
    rcases hok with ⟨h1, -⟩ | ⟨-, hr, hc⟩
    · exact h1
    · rw [hr, hc] at h; simp at h
  | _ => rw [hpc] at hok; simp_all

/-- The finish action of the worker is completed. -/
def Worker.FinishDone (wk : Worker) : Prop :=
  (wk.pc = .notifyFinished ∨ wk.pc = .ended) ∧ wk.finishCalls = 1

instance (wk : Worker) : Decidable wk.FinishDone := inferInstanceAs (Decidable (_ ∧ _))

theorem Worker.FinishDone.out {wk : Worker} (hok : wk.Ok) (h : wk.FinishDone) : wk.out = true := by
  obtain ⟨hpc, hf⟩ := h
  unfold Worker.Ok at hok
  unfold Worker.out
  rcases hpc with hpc | hpc <;> rw [hpc] at hok
  · rw [hok.2]; cases wk.counted <;> rfl
  · rcases hok with ⟨-, hr⟩ | ⟨h0, -⟩
    · rw [hr]; cases wk.counted <;> rfl
    · omega

/-! ## The counter -/

/-- The number of workers counted as stopped. -/
def countedNum (s : Pool) : ℕ := (List.range s.workerNum).countP (Worker.counted ∘ s.workers)

structure StopCount (s : Pool) : Prop where
  num : s.stoppedThreadNum = countedNum s
  seen : ∀ v, (s.workers v).stoppedThreadNum ≤ s.stoppedThreadNum
  flag : s.isRequestShutDown = false → ∀ v, (s.workers v).counted = false ∧ (s.workers v).pc ≠ .count

theorem StopCount.init (ids : LiveIds cfg.corePoolSize) : StopCount (initPool cfg ids) where
  num := by simp [countedNum, initPool, Worker.create, Function.comp_def]
  seen v := by simp [initPool, Worker.create]
  flag _ v := by simp [initPool, Worker.create]

theorem countedNum_worker {w : ℕ} {b : WorkerAct} (hb : b ≠ .count) :
    countedNum (workerNext cfg s w b) = countedNum s := by
  unfold countedNum
  rw [workerNext_workers, workerNext_workerNum]
  exact countP_update_of_eq _ (counted_act hb)

/-- `++m_stoppedThreadNum` -/
theorem countedNum_count {w : ℕ} (hw : w < s.workerNum) (h : (s.workers w).counted = false) :
    countedNum (workerNext cfg s w .count) = countedNum s + 1 := by
  have hmem : w ∈ List.range s.workerNum := List.mem_range.2 hw
  have := countP_update (p := Worker.counted) (f := s.workers)
    (x := (workerAct cfg s (s.workers w) .count).1) List.nodup_range hmem
  rw [h] at this
  exact this

theorem countedNum_monitor (b : MonitorAct) : countedNum (monitorAct cfg s b) = countedNum s := by
  unfold countedNum
  by_cases hc : ∃ id, b = .create id
  · obtain ⟨id, rfl⟩ := hc
    have hn : s.workerNum ∉ List.range s.workerNum := by simp
    simp only [monitorAct]
    rw [List.range_succ, List.countP_append, countP_update_of_notMem hn]
    simp [Worker.create]
  · obtain ⟨hw, hn⟩ := @monitorAct_workers cfg s b fun id h => hc ⟨id, h⟩
    rw [hw, hn]

theorem countedNum_closer (b : CloserAct) : countedNum (closerAct cfg s b) = countedNum s := by
  cases b with
  | asyncClose w spurious => exact countP_update_of_eq _ rfl
  | _ => rfl

/-- A worker's view of the counter is not ahead of it. -/
theorem seen_act {wk : Worker} {b : WorkerAct} (h : wk.stoppedThreadNum ≤ s.stoppedThreadNum) :
    (workerAct cfg s wk b).1.stoppedThreadNum ≤ (workerAct cfg s wk b).2.stoppedThreadNum := by
  cases b with
  | start | check | recheck | pop | wake | dispatch | finish | notifyAll =>
    simp only [workerAct, Worker.popTimeWait, Worker.checkFunc]
    split <;> exact h
  | count => exact Nat.le_refl _
  | _ => exact h

theorem stopCount_worker {w : ℕ} {b : WorkerAct} (hen : Enabled s (.worker w b)) (hok : ∀ v, (s.workers v).Ok)
    (h : StopCount s) : StopCount (workerNext cfg s w b) := by
  obtain ⟨hnum, hseen, hflag⟩ := h
  obtain ⟨hw, hpc, -⟩ := hen
  have hle : s.stoppedThreadNum ≤ (workerNext cfg s w b).stoppedThreadNum := by
    by_cases hb : b = .count
    · subst hb; exact Nat.le_succ _
    · exact Nat.le_of_eq (workerNext_stopped w b hb).symm
  constructor
  · by_cases hb : b = .count
    · subst hb
      have := hok w
      unfold Worker.Ok at this
      rw [hpc] at this
      rw [countedNum_count hw this.2.2, ← hnum]
      rfl
    · rw [countedNum_worker hb, workerNext_stopped w b hb, hnum]
  · intro v
    by_cases hv : v = w
    · subst hv; rw [workerNext_self]; exact seen_act (hseen v)
    · rw [workerNext_of_ne w b hv]; exact Nat.le_trans (hseen v) hle
  · rw [workerNext_flag]
    intro hf v
    by_cases hv : v = w
    · subst hv
      obtain ⟨hc, hne⟩ := hflag hf v
      have hb : b ≠ .count := by rintro rfl; exact hne hpc
      rw [workerNext_self, counted_act hb]
      refine ⟨hc, ?_⟩
      cases b with
      | count => exact absurd rfl hb
      | finish => simp [workerAct, hf]
      | start | check | recheck | pop | wake | judge | dispatch | compare =>
        simp only [workerAct, Worker.popTimeWait, Worker.checkFunc]
        split <;> simp
      | _ => simp [workerAct]
    · rw [workerNext_of_ne w b hv]; exact hflag hf v

/-- The stop counter counts the counted workers in every run. -/
theorem stopCount_preserved : PreservedUnder (step cfg) Free Books StopCount := by
  intro s a t hb h _ hs
  have hf := flag_mono hs
  obtain ⟨hen, rfl⟩ := step_eq_some.1 hs
  cases a with
  | worker w b => exact stopCount_worker hen hb.ok h
  | caller c b =>
    refine ⟨?_, ?_, fun hf' => ?_⟩
    · simpa [next, countedNum] using h.num
    · simpa [next] using h.seen
    · simpa [next] using h.flag (hf hf')
  | monitor b =>
    refine ⟨by rw [next, countedNum_monitor, monitorAct_stopped, h.num], fun v => ?_, fun hf' v => ?_⟩
    · have hm := worker_move hs v
      rw [next, monitorAct_stopped] at *
      generalize (monitorAct cfg s b).workers v = wk at hm ⊢
      cases hm with
      | same => exact h.seen v
      | create => exact Nat.zero_le _
    · have hm := worker_move hs v
      rw [next] at hm ⊢
      generalize (monitorAct cfg s b).workers v = wk at hm ⊢
      cases hm with
      | same => exact h.flag (hf hf') v
      | create => exact ⟨rfl, by simp [Worker.create]⟩
  | closer b =>
    refine ⟨by rw [next, countedNum_closer, closerAct_stopped, h.num], fun v => ?_, fun hf' => ?_⟩
    · have hm := worker_move hs v
      rw [next, closerAct_stopped] at *
      generalize (closerAct cfg s b).workers v = wk at hm ⊢
      cases hm with
      | same => exact h.seen v
      | close => exact h.seen v
    · exact absurd hen (hb.locks.no_closer (hf hf') b)

/-- The books and the stop counter. -/
structure Accounts (s : Pool) : Prop where
  books : Books s
  count : StopCount s

theorem Accounts.init (ids : LiveIds cfg.corePoolSize) : Accounts (initPool cfg ids) :=
  ⟨.init ids, .init ids⟩

theorem accounts_preserved : Preserved (step cfg) Free Accounts := fun s a t h hP hs =>
  ⟨books_preserved s a t h.books hP hs, stopCount_preserved s a t h.books h.count hP hs⟩

/-! ## What shutdown touches -/

/-- The closing pass has begun. -/
def CloserPc.begun : CloserPc → Bool
  | .idle | .setStop | .lock => false
  | .asyncClose | .pushEnd | .closeMonitor | .subPush | .notify | .returned => true

/-- A closing pass that has begun is not begun again. -/
theorem begun_stays {a : Act} (hl : Locks s) (hs : step cfg s a = some t) (h : s.closer.pc.begun = true) :
    t.closer.pc.begun = true := by
  obtain ⟨hen, rfl⟩ := step_eq_some.1 hs
  cases a with
  | worker w b => rwa [next, workerNext_closer]
  | monitor b => rwa [next, monitorAct_closer]
  | caller c b =>
    by_cases hw : b.Wins s
    · have hidle := hl.flag.1 (@callerNext_wins cfg s c b hw).1
      rw [hidle] at h; cases h
    · rwa [next, (callerNext_closing c b hw).2]
  | closer b =>
    rw [hen.1] at h
    cases b with
    | setStop | lock => cases h
    | asyncClose | pushEnd => simp only [next, closerAct, Pool.pushTask]; rw [hen.1]; rfl
    | _ => rfl

/-- The state is set by a worker that stops and by the closing sequence only. -/
theorem state_step {a : Act} (hs : step cfg s a = some t) :
    t.state = s.state ∨ (∃ w, a = .worker w .setShutDown) ∨ a = .closer .setStop := by
  obtain ⟨-, rfl⟩ := step_eq_some.1 hs
  cases a with
  | worker w b =>
    by_cases hb : b = .setShutDown
    · subst hb; exact .inr (.inl ⟨w, rfl⟩)
    · exact .inl (workerNext_state w b hb)
  | monitor b => exact .inl (monitorAct_state b)
  | caller c b => exact .inl (callerNext_state c b)
  | closer b =>
    by_cases hb : b = .setStop
    · subst hb; exact .inr (.inr rfl)
    · exact .inl (closerAct_state b hb)

/-- The counter is raised by `++m_stoppedThreadNum` only. -/
theorem stopped_step {a : Act} (hs : step cfg s a = some t) (h : ∀ w, a ≠ .worker w .count) :
    t.stoppedThreadNum = s.stoppedThreadNum := by
  obtain ⟨-, rfl⟩ := step_eq_some.1 hs
  cases a with
  | worker w b => exact workerNext_stopped w b fun hb => h w (by rw [hb])
  | monitor b => exact monitorAct_stopped b
  | caller c b => exact callerNext_stopped c b
  | closer b => exact closerAct_stopped b

/-- A step of another thread leaves a worker as it is, but for its close flag. -/
theorem worker_other {a : Act} (hs : step cfg s a = some t) {v : ℕ} (hv : v < s.workerNum)
    (h : ∀ b, a ≠ .worker v b) : ∃ r, t.workers v = { s.workers v with isRequestClose := r } := by
  have hm := worker_move hs v
  generalize t.workers v = wk at hm ⊢
  cases hm with
  | same => exact ⟨_, rfl⟩
  | act => exact absurd rfl (h _)
  | close => exact ⟨_, rfl⟩
  | create => exact absurd hv (Nat.lt_irrefl _)

/-! ## The monitor that is closed -/

/-- The other threads leave the monitor where it is. -/
theorem monitor_other {a : Act} (hs : step cfg s a = some t) (ha : ∀ b, a ≠ .monitor b) :
    ∃ n r, t.monitor = { s.monitor with notified := n, isRequestClose := s.monitor.isRequestClose || r } := by
  obtain ⟨-, rfl⟩ := step_eq_some.1 hs
  cases a with
  | worker w b =>
    obtain ⟨n, hm⟩ := @workerNext_monitor cfg s w b
    exact ⟨n, false, by rw [next, hm, Bool.or_false]⟩
  | caller c b =>
    obtain ⟨n, hm⟩ := @callerNext_monitor cfg s c b
    exact ⟨n, false, by rw [next, hm, Bool.or_false]⟩
  | monitor b => exact absurd rfl (ha b)
  | closer b =>
    cases b with
    | closeMonitor spurious => exact ⟨s.monitor.notified, !spurious, rfl⟩
    | notify => exact ⟨_, false, by rw [Bool.or_false]; rfl⟩
    | _ => exact ⟨s.monitor.notified, false, by rw [Bool.or_false]; rfl⟩

theorem monitorAct_isRequestClose (b : MonitorAct) :
    (monitorAct cfg s b).monitor.isRequestClose = s.monitor.isRequestClose := by
  cases b with
  | lock | wake =>
    simp only [monitorAct, Pool.timeWait]
    split <;> rfl
  | start | check | recheck | grow | insert | find =>
    simp only [monitorAct]
    split <;> rfl
  | _ => rfl

/-- A monitor that has been asked to close stays so. -/
theorem monitor_closed_stays {a : Act} (hs : step cfg s a = some t) (h : s.monitor.isRequestClose = true) :
    t.monitor.isRequestClose = true := by
  by_cases ha : ∃ b, a = .monitor b
  · obtain ⟨b, rfl⟩ := ha
    obtain ⟨-, rfl⟩ := step_eq_some.1 hs
    exact (monitorAct_isRequestClose b).trans h
  · obtain ⟨n, r, hm⟩ := monitor_other hs fun b hb => ha ⟨b, hb⟩
    rw [hm, h]
    rfl

/-- Past the second `checkFunc()` of an iteration, and about to start a worker. -/
def MonitorPc.mayCreate : MonitorPc → Prop
  | .grow | .create => True
  | _ => False

/-- The monitor has been asked to close, and the iteration in which it could still start a worker is over. -/
structure MonitorShut (s : Pool) : Prop where
  closed : s.monitor.isRequestClose = true
  past : ¬ s.monitor.pc.mayCreate

/-- The check of the next iteration is not passed. -/
theorem monitorShut_preserved : Preserved (step cfg) Free MonitorShut := by
  intro s a t h _ hs
  refine ⟨monitor_closed_stays hs h.closed, ?_⟩
  by_cases ha : ∃ b, a = .monitor b
  · obtain ⟨b, rfl⟩ := ha
    obtain ⟨hen, rfl⟩ := step_eq_some.1 hs
    have hpast := h.past
    rw [hen.1] at hpast
    cases b with
    | recheck =>
      simp only [next, monitorAct, if_pos h.closed]
      exact id
    | grow | create => exact absurd trivial hpast
    | start | check | insert =>
      simp only [next, monitorAct]
      split <;> exact id
    | lock | wake =>
      simp only [next, monitorAct, Pool.timeWait]
      split <;> exact id
    | find =>
      simp only [next, monitorAct]
      split
      · exact id
      · exact h.past
    | timeout | joinNew | join | clear | finish => exact id
  · obtain ⟨n, r, hm⟩ := monitor_other hs fun b hb => ha ⟨b, hb⟩
    rw [hm]
    exact h.past

/-- No worker is started. -/
def NoGrowth (_ : Pool) (a : Act) : Prop := ∀ id, a ≠ .monitor (.create id)

/-- **A monitor that is closed starts no worker**, in this step or later. -/
theorem MonitorShut.noGrowth (h : MonitorShut s) {a : Act} (hs : step cfg s a = some t) : NoGrowth s a := by
  rintro id rfl
  have hpast := h.past
  rw [(step_eq_some.1 hs).1.1] at hpast
  exact hpast trivial

/-- Where no worker is started there are as many as before. -/
theorem NoGrowth.workerNum {a : Act} (hno : NoGrowth s a) (hs : step cfg s a = some t) :
    t.workerNum = s.workerNum := by
  refine Nat.le_antisymm (Nat.not_lt.1 fun hlt => ?_) (workerNum_le hs)
  rcases worker_new hs hlt with hold | ⟨id, ha, -⟩
  · exact Nat.lt_irrefl _ hold
  · exact hno id ha

/-- After the closing pass has begun no worker is started, if the condition `P` on the steps excludes it; and once
    the monitor is closed and its iteration over, none is started in any case. -/
theorem run_noGrowth {P : Pool → Act → Prop} (hP : ∀ s a, P s a → s.closer.pc.begun = true → NoGrowth s a)
    (hb : Books s) (hbegun : s.closer.pc.begun = true) {bs : List Act}
    (hr : Run (step cfg) P s bs t ∨ MonitorShut s ∧ Run (step cfg) Free s bs t) :
    Run (step cfg) NoGrowth s bs t := by
  rcases hr with hr | ⟨hshut, hr⟩
  · exact hr.strengthen (J := fun s => Books s ∧ s.closer.pc.begun = true)
      (fun s a t h _ hs => ⟨books_preserved s a t h.1 trivial hs, begun_stays h.1.locks hs h.2⟩)
      (fun s a t h ha _ => hP s a ha h.2) ⟨hb, hbegun⟩
  · exact hr.strengthen monitorShut_preserved (fun s a t h _ hs => h.noGrowth hs) hshut

end Empool
