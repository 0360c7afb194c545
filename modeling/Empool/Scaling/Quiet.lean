/-
  `SHUTDOWN` means stopped: when the state is set, has every worker left its
  loop, and does none come after?

  The stopped workers are compared with `m_threads`, to which the monitor may
  still add: it is closed only after the closing pass (`runs_after_shutDown`).
  Once it is closed, and its iteration over, it adds none (`MonitorShut`).
-/
import Empool.Scaling.Complete

namespace Empool

open Lts

variable {cfg : Config} {s t : Pool}

/-- The monitor starts workers only before the closing pass, with ids that are not taken, and no
    comparison of a stopping worker succeeds before the closing pass. -/
def StopsAll (s : Pool) : Act → Prop
  | .monitor (.create id) => s.closer.pc.begun = false ∧ FreshId s id
  | .worker w .compare => s.threads.length ≤ (s.workers w).stoppedThreadNum → s.closer.pc.begun = true
  | _ => True

instance (s : Pool) : (a : Act) → Decidable (StopsAll s a)
  | .monitor (.create _) => inferInstanceAs (Decidable (_ ∧ _))
  | .worker _ .compare => inferInstanceAs (Decidable (_ → _))
  | .worker _ .start | .worker _ .check | .worker _ .pop | .worker _ .wake | .worker _ .timeout
  | .worker _ .judge | .worker _ (.asyncClose _) | .worker _ .recheck | .worker _ .dispatch
  | .worker _ .runReturn | .worker _ .runThrow | .worker _ .finish | .worker _ .subPush
  | .worker _ .subNotify | .worker _ .count | .worker _ .setShutDown | .worker _ .notifyAll
  | .worker _ .notifyFinished | .monitor .start | .monitor .check | .monitor .lock | .monitor .wake
  | .monitor .timeout | .monitor .recheck | .monitor .grow | .monitor .insert | .monitor .joinNew
  | .monitor .find | .monitor .join | .monitor .clear | .monitor .finish | .caller _ _ | .closer _ =>
    inferInstanceAs (Decidable True)

/-! ## Workers that have not retired keep their entry -/

/-- A worker that has not retired has its entry, or is about to get it. -/
def Kept (s : Pool) : Prop :=
  ∀ w < s.workerNum, (s.workers w).retired = false → Newcomer s w ∨ ((s.workers w).threadId, w) ∈ s.threads

theorem Kept.init (ids : LiveIds cfg.corePoolSize) : Kept (initPool cfg ids) := by
  intro w hw _
  rcases (Entries.init ids).booked w hw with h | h | h
  · simp [initPool, Worker.create] at h
  · exact .inl h
  · exact .inr h

theorem retired_of_step {a : Act} (hs : step cfg s a = some t) {v : ℕ} (hv : v < s.workerNum)
    (h : (t.workers v).retired = false) : (s.workers v).retired = false := by
  have hm := worker_move hs v
  generalize t.workers v = wk at hm h
  cases hm with
  | same => exact h
  | @act _ b hen =>
    by_cases hb : b = .finish
    · subst hb
      simp only [workerAct] at h
      split at h
      · exact h
      · cases h
    · rwa [retired_act hb] at h
  | close => exact h
  | create => exact absurd hv (Nat.lt_irrefl _)

theorem kept_outside {b : MonitorAct} (hpc : s.monitor.pc ≠ .insert ∧ s.monitor.pc ≠ .joinNew)
    (hc : ∀ id, b ≠ .create id) (hi : b ≠ .insert) (hj : b ≠ .join) (h : Kept s) :
    Kept (monitorAct cfg s b) := by
  obtain ⟨hw, hn⟩ := @monitorAct_workers cfg s b hc
  intro w hlt hr
  rw [hw] at hr ⊢
  rw [hn] at hlt
  rw [monitorAct_threads b hi hj]
  rcases h w hlt hr with ⟨hnew | hnew, -⟩ | hmem
  · exact absurd hnew hpc.1
  · exact absurd hnew hpc.2
  · exact .inr hmem

theorem kept_monitor {b : MonitorAct} (hen : Enabled s (.monitor b)) (hb : Books s) (ha : Accepts s)
    (h : Kept s) : Kept (monitorAct cfg s b) := by
  have hpc := hen.1
  cases b with
  | create id =>
    intro w hw hr
    rcases Nat.lt_succ_iff_lt_or_eq.1 hw with hlt | rfl
    · have hne := Nat.ne_of_lt hlt
      simp only [monitorAct, Function.update_of_ne hne] at hr ⊢
      rcases h w hlt hr with hn | hmem
      · exact absurd hn.1 (by simp [hpc, MonitorAct.at])
      · exact .inr hmem
    · exact .inl ⟨.inl rfl, rfl⟩
  | insert =>
    have hnone : s.findThread (s.workers s.monitor.newWorker).threadId = none := by
      have := ha.fresh hpc
      simpa [Pool.findThread, FreshId] using this
    intro w hw hr
    simp only [monitorAct, hnone, Option.isSome_none, Bool.false_eq_true, if_false] at hw hr ⊢
    right
    rcases h w hw hr with ⟨-, rfl⟩ | hmem
    · exact List.mem_append_right _ (List.mem_singleton.2 rfl)
    · exact List.mem_append_left _ hmem
  | joinNew => exact absurd hpc ha.accepted
  | join =>
    obtain ⟨hmem, hiter⟩ := hb.pending.joining hpc
    have hl := hb.pending.iter (by rw [hpc]; rfl) _ hiter s.monitor.victim.2 hmem
    intro w hw hr
    rcases h w hw hr with hn | he
    · exact absurd hn.1 (by simp [hpc, MonitorAct.at])
    · refine .inr ((List.mem_erase_of_ne ?_).2 he)
      -- the worker whose entry is erased has retired
      intro heq
      rw [← heq] at hl
      have hr' : (s.workers w).retired = false := hr
      rw [hl.1] at hr'; cases hr'
  | _ => exact kept_outside (by simp [hpc, MonitorAct.at]) (by simp) (by simp) (by simp) h

theorem kept_step {a : Act} (hb : Books s) (ha : Accepts s) (h : Kept s) (hs : step cfg s a = some t) :
    Kept t := by
  have hs' := hs
  obtain ⟨hen, rfl⟩ := step_eq_some.1 hs
  cases a with
  | monitor b => exact kept_monitor hen hb ha h
  | worker v b =>
    intro w hw hr
    have hw : w < s.workerNum := by simpa [next] using hw
    have hid := worker_threadId hs' hw
    obtain ⟨n, hm⟩ := @workerNext_monitor cfg s v b
    have := h w hw (retired_of_step hs' hw hr)
    rw [hid, Newcomer, next, hm, workerNext_threads]
    exact this
  | caller c b =>
    intro w hw hr
    obtain ⟨n, hm⟩ := @callerNext_monitor cfg s c b
    rw [next, callerNext_workerNum] at hw
    rw [next, callerNext_workers] at hr
    have := h w hw hr
    rw [Newcomer, next, hm, callerNext_threads, callerNext_workers]
    exact this
  | closer b =>
    intro w hw hr
    rw [next, closerAct_workerNum] at hw
    have hid := worker_threadId hs' hw
    have hm : (closerAct cfg s b).monitor.pc = s.monitor.pc ∧
        (closerAct cfg s b).monitor.newWorker = s.monitor.newWorker := by cases b <;> exact ⟨rfl, rfl⟩
    have := h w hw (retired_of_step hs' hw hr)
    rw [hid, Newcomer, next, hm.1, hm.2, closerAct_threads]
    exact this

/-! ## The comparison -/

/-- Every worker created is out. -/
def AllOut (s : Pool) : Prop := ∀ w < s.workerNum, (s.workers w).out = true

/-- If the comparison of a stopping worker succeeds, all workers are out. -/
theorem allOut_of_compare (h : Accounts s) (hk : Kept s) (hpc : s.monitor.pc ≠ .insert)
    (hpc' : s.monitor.pc ≠ .joinNew) {w : ℕ}
    (hle : s.threads.length ≤ (s.workers w).stoppedThreadNum) : AllOut s := by
  have hmem : ∀ v < s.workerNum, (s.workers v).retired = false → v ∈ s.members := by
    intro v hv hr
    rcases hk v hv hr with ⟨hn | hn, -⟩ | he
    · exact absurd hn hpc
    · exact absurd hn hpc'
    · exact List.mem_map.2 ⟨_, he, rfl⟩
  have hcounted : countedNum s ≤ s.members.countP (Worker.counted ∘ s.workers) := by
    refine countP_le_countP List.nodup_range fun v hv hc => hmem v (List.mem_range.1 hv) ?_
    have hok := h.books.ok v
    have hc : (s.workers v).counted = true := hc
    unfold Worker.Ok at hok
    cases hp : (s.workers v).pc <;> rw [hp] at hok <;> simp_all
  have hlen : s.members.length = s.threads.length := List.length_map ..
  have hseen := h.count.seen w
  have hnum := h.count.num
  have hall : s.members.countP (Worker.counted ∘ s.workers) = s.members.length := by
    have := List.countP_le_length (p := Worker.counted ∘ s.workers) (l := s.members)
    omega
  intro v hv
  cases hr : (s.workers v).retired with
  | true => simp [Worker.out, hr]
  | false =>
    have hc : (s.workers v).counted = true := List.countP_eq_length.1 hall v (hmem v hv hr)
    simp [Worker.out, hc]

/-- What shutdown rests on: `m_threads` has all workers, none is added after the closing pass has
    begun, and `SHUTDOWN` is set only when all of them are out. -/
structure Stopping (s : Pool) : Prop where
  accepts : Accepts s
  kept : Kept s
  added : s.closer.pc.begun = true → s.monitor.pc ≠ .insert
  set : (s.state = .shutDown ∨ ∃ w < s.workerNum, (s.workers w).pc = .setShutDown) →
    s.closer.pc.begun = true ∧ AllOut s

theorem Stopping.init (ids : LiveIds cfg.corePoolSize) : Stopping (initPool cfg ids) where
  accepts := .init ids
  kept := .init ids
  added := by simp [initPool]
  set := by simp [initPool, Worker.create]

/-- A closing pass begins while no worker is being added. -/
theorem added_step {a : Act} (hl : Locks s) (h : s.closer.pc.begun = true → s.monitor.pc ≠ .insert)
    (hP : StopsAll s a) (hs : step cfg s a = some t) :
    t.closer.pc.begun = true → t.monitor.pc ≠ .insert := by
  obtain ⟨hen, rfl⟩ := step_eq_some.1 hs
  cases a with
  | worker w b =>
    obtain ⟨n, hm⟩ := @workerNext_monitor cfg s w b
    rw [next, hm, workerNext_closer]
    exact h
  | caller c b =>
    obtain ⟨n, hm⟩ := @callerNext_monitor cfg s c b
    rw [next, hm]
    by_cases hw : b.Wins s
    · rw [(@callerNext_wins cfg s c b hw).2.2]
      intro hbegun; cases hbegun
    · rw [(@callerNext_closing cfg s c b hw).2]
      exact h
  | monitor b =>
    rw [next, monitorAct_closer]
    intro hbegun hi
    obtain ⟨id, rfl⟩ := monitor_insert b hen.1 hi
    rw [hP.1] at hbegun; cases hbegun
  | closer b =>
    have hm : (closerAct cfg s b).monitor.pc = s.monitor.pc := by cases b <;> rfl
    rw [next, hm]
    intro hbegun hi
    cases b with
    | lock =>
      have hg := hl.monitor.2 (by rw [hi]; rfl)
      rw [hen.2.1 rfl] at hg; cases hg
    | setStop => cases hbegun
    | _ => exact h (by rw [hen.1]; rfl) hi

theorem StopsAll.noGrowth {a : Act} (hP : StopsAll s a) (hbegun : s.closer.pc.begun = true) : NoGrowth s a := by
  rintro id rfl
  exact Bool.noConfusion (hbegun.symm.trans hP.1)

/-- Where no worker is started all stay out. -/
theorem allOut_stays {a : Act} (h : AllOut s) (hno : NoGrowth s a) (hs : step cfg s a = some t) : AllOut t := by
  intro w hw
  have hlt : w < s.workerNum := hno.workerNum hs ▸ hw
  exact out_stays hs hlt (h w hlt)

theorem set_step {a : Act} (hac : Accounts s) (h : Stopping s) (hP : StopsAll s a)
    (hs : step cfg s a = some t) (hset : t.state = .shutDown ∨ ∃ w < t.workerNum, (t.workers w).pc = .setShutDown) :
    t.closer.pc.begun = true ∧ AllOut t := by
  -- either `SHUTDOWN` was set or about to be set before the step, or the comparison succeeds
  have hcase : (s.state = .shutDown ∨ ∃ w < s.workerNum, (s.workers w).pc = .setShutDown) ∨
      ∃ w, a = .worker w .compare ∧ s.threads.length ≤ (s.workers w).stoppedThreadNum := by
    rcases hset with hst | ⟨w, hw, hpc⟩
    · left
      rcases state_step hs with heq | ⟨w, rfl⟩ | rfl
      · exact .inl (heq.symm.trans hst)
      · obtain ⟨hen, -⟩ := step_eq_some.1 hs
        exact .inr ⟨w, hen.1, hen.2.1⟩
      · obtain ⟨-, rfl⟩ := step_eq_some.1 hs
        cases hst
    · have hm := worker_move hs w
      have hnew := worker_new hs hw
      generalize t.workers w = wk at hm hpc hnew
      rcases hnew with hlt | ⟨id, rfl, -, rfl⟩
      swap
      · cases hpc
      cases hm with
      | same => exact .inl (.inr ⟨w, hlt, hpc⟩)
      | close => exact .inl (.inr ⟨w, hlt, hpc⟩)
      | create => exact absurd hlt (Nat.lt_irrefl _)
      | @act _ b hen =>
        cases b with
        | compare =>
          simp only [workerAct] at hpc
          split at hpc
          · rename_i hle; exact .inr ⟨w, rfl, hle⟩
          · cases hpc
        | start | check | recheck | pop | wake | judge | dispatch | finish =>
          simp only [workerAct, Worker.popTimeWait, Worker.checkFunc] at hpc
          split at hpc <;> cases hpc
        | _ => cases hpc
  rcases hcase with hold | ⟨w, rfl, hle⟩
  · obtain ⟨hbegun, hall⟩ := h.set hold
    exact ⟨begun_stays hac.books.locks hs hbegun, allOut_stays hall (hP.noGrowth hbegun) hs⟩
  · have hbegun := hP hle
    have hall := allOut_of_compare hac h.kept (h.added hbegun) h.accepts.accepted hle
    exact ⟨begun_stays hac.books.locks hs hbegun, allOut_stays hall (hP.noGrowth hbegun) hs⟩

theorem stopping_preserved : PreservedUnder (step cfg) StopsAll Accounts Stopping := by
  intro s a t hac h hP hs
  refine ⟨accepts_step hac.books h.accepts (fun id ha => ?_) hs,
    kept_step hac.books h.accepts h.kept hs, added_step hac.books.locks h.added hP hs,
    set_step hac h hP hs⟩
  subst ha; exact hP.2

/-- From a state with all workers out they start nothing, and no worker is added. -/
structure Quiet (s t : Pool) : Prop where
  allOut : AllOut t
  workerNum : t.workerNum = s.workerNum
  started : ∀ w < s.workerNum, (t.workers w).started = (s.workers w).started

theorem started_out {wk : Worker} {b : WorkerAct} (hok : wk.Ok) (hpc : wk.pc = b.at) (h : wk.out = true) :
    (workerAct cfg s wk b).1.started = wk.started := by
  cases b with
  | dispatch =>
    have h1 := hok.finished h
    unfold Worker.Ok at hok
    rw [hpc] at hok
    have h0 : wk.finishCalls = 0 := hok.1
    omega
  | start | check | recheck | pop | wake | finish =>
    simp only [workerAct, Worker.popTimeWait, Worker.checkFunc]
    split <;> rfl
  | _ => rfl

/-- Where no worker is started it stays quiet. -/
theorem quiet_preserved (s₀ : Pool) : PreservedUnder (step cfg) NoGrowth Books (Quiet s₀) := by
  intro s a t hb h hno hs
  obtain ⟨hall, hnum, hstart⟩ := h
  refine ⟨allOut_stays hall hno hs, (hno.workerNum hs).trans hnum, fun w hw => ?_⟩
  have hlt : w < s.workerNum := hnum ▸ hw
  rw [← hstart w hw]
  have hm := worker_move hs w
  generalize t.workers w = wk at hm ⊢
  cases hm with
  | same => rfl
  | act hen => exact started_out (hb.ok w) hen.2.1 (hall w hlt)
  | close => rfl
  | create => exact absurd hlt (Nat.lt_irrefl _)

theorem AllOut.not_running (h : AllOut s) (hok : ∀ v, (s.workers v).Ok) :
    ∀ w < s.workerNum, (s.workers w).pc ≠ .running := by
  intro w hw hpc
  have h1 := (hok w).finished (h w hw)
  have := hok w
  unfold Worker.Ok at this
  rw [hpc] at this
  omega

theorem run_stopping (ids : LiveIds cfg.corePoolSize) {as : List Act}
    (h : Run (step cfg) StopsAll (initPool cfg ids) as s) : Stopping s :=
  h.invariant_under (accounts_preserved.imp fun _ _ _ => trivial) stopping_preserved (.init ids) (.init ids)

/-- **`SHUTDOWN` means stopped**: in every run whose steps meet `StopsAll`, when the state is
    `SHUTDOWN` no worker runs a task, and however the run goes on no worker is created and no
    worker starts a task or runs one.  Once the monitor is closed and its iteration over, nothing is
    asked of the steps that follow. -/
theorem shutDown_is_quiet (ids : LiveIds cfg.corePoolSize) {as : List Act}
    (h : Run (step cfg) StopsAll (initPool cfg ids) as s) (hst : s.state = .shutDown) :
    (∀ w < s.workerNum, (s.workers w).pc ≠ .running) ∧
      ∀ bs t, (Run (step cfg) StopsAll s bs t ∨ MonitorShut s ∧ Run (step cfg) Free s bs t) →
        t.workerNum = s.workerNum ∧
          ∀ w < t.workerNum, (t.workers w).started = (s.workers w).started ∧ (t.workers w).pc ≠ .running := by
  have hb := run_books ids h.free
  obtain ⟨hbegun, hall⟩ := (run_stopping ids h).set (.inl hst)
  refine ⟨hall.not_running hb.ok, fun bs t hr => ?_⟩
  have hr := run_noGrowth (fun _ _ => StopsAll.noGrowth) hb hbegun hr
  have hbooks : Preserved (step cfg) NoGrowth Books := books_preserved.imp fun _ _ _ => trivial
  have hq := hr.invariant_under hbooks (quiet_preserved s) hb ⟨hall, rfl, fun _ _ => rfl⟩
  refine ⟨hq.workerNum, fun w hw => ⟨hq.started w (hq.workerNum ▸ hw), ?_⟩⟩
  exact hq.allOut.not_running (hr.invariant hbooks hb).ok w hw

/-! ## A worker added after the closing pass -/

/-- The closing pass visits the only worker; the monitor has not been closed yet. -/
def closingPass : List Act :=
  [.caller 1 (.shutDown true), .caller 1 (.cas false), .closer .setStop, .closer .lock,
    .closer (.asyncClose 0 false), .closer .threadNum, .closer .pushEnd, .closer .unlock]

/-- The worker stops, finds one thread, and sets `SHUTDOWN`. -/
def onlyStops : List Act :=
  [.worker 0 .start, .worker 0 .finish, .worker 0 .count, .worker 0 .compare, .worker 0 .setShutDown]

/-- The monitor adds a worker, which takes a task of the backlog. -/
def lateGrowth : List Act :=
  [.monitor .lock, .monitor .recheck, .monitor .grow, .monitor (.create 2), .monitor .insert,
    .monitor .clear, .worker 1 .start, .worker 1 .check, .worker 1 .pop, .worker 1 .dispatch]

/-- The state is `SHUTDOWN`, and a task is running. -/
theorem runs_after_shutDown : ∃ s, Run (step ⟨1, 2⟩) Free (initPool ⟨1, 2⟩ (.first 1))
    ([.monitor .start, .monitor .check] ++ addTaskCalls 0 1025 ++ (closingPass ++ onlyStops ++ lateGrowth)) s ∧
      s.state = .shutDown ∧ (s.workers 1).pc = .running :=
  exists_runWith (fun _ _ _ => trivial) (by decide +kernel) fun _ _ h => h

/-- Where the monitor has grown the pool before the request, `SHUTDOWN` is final. -/
theorem shutDown_is_quiet_three : ∃ s, Run (step ⟨2, 3⟩) StopsAll (initPool ⟨2, 3⟩ (.first 2))
    (bothWait ++ addTaskCalls 0 1025 ++ (grow ++ shutDownThree ++ monitorEnds ++ workersStop ++ lastStops)) s ∧
      s.state = .shutDown ∧ ∀ w < s.workerNum, (s.workers w).pc ≠ .running := by
  refine exists_runWith (I := fun s => s.state = .shutDown) (fun _ _ _ => trivial) (by decide +kernel)
    fun s hrun hst => ⟨hst, ?_⟩
  exact (@shutDown_is_quiet ⟨2, 3⟩ s (.first 2) _ hrun hst).1

end Empool
