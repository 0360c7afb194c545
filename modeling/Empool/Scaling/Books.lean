/-
  The books of a `ScalingThreadPool`: which thread holds the guard, which
  workers `m_threads` knows, and which of them `m_subWorkerThreadId` lists.

  * `Locks`: the guard is held by the monitor or the closing pass where the code
    says so, and the request flag is set by the call that closes;
  * `Entries`: an entry of `m_threads` belongs to the worker with its id, and
    every worker that has not ended has an entry or is about to get one;
  * `Pending`: an id that waits for its worker's removal is the id of an entry
    whose worker has left its loop.

  `Books` puts them together; it holds in every reachable state.
-/
import Empool.Scaling.Finish
import Mathlib.Data.List.Nodup

namespace Empool

open Lts

variable {cfg : Config} {s t : Pool}

/-! ## The guard and the request flag -/

/-- Does the monitor hold `m_addOrSubThreadNumGuard` at the statement? -/
def MonitorPc.holds : MonitorPc → Bool
  | .recheck | .grow | .create | .insert | .joinNew | .sub | .join => true
  | .start | .check | .lock | .wait | .finish | .ended => false

/-- Does the closing sequence hold `m_addOrSubThreadNumGuard` at the statement? -/
def CloserPc.holds : CloserPc → Bool
  | .asyncClose | .pushEnd => true
  | .idle | .setStop | .lock | .closeMonitor | .subPush | .notify | .returned => false

structure Locks (s : Pool) : Prop where
  monitor : s.guard = some .monitor ↔ s.monitor.pc.holds = true
  closer : s.guard = some .closer ↔ s.closer.pc.holds = true
  flag : s.isRequestShutDown = false ↔ s.closer.pc = .idle

theorem Locks.init (ids : LiveIds cfg.corePoolSize) : Locks (initPool cfg ids) where
  monitor := by simp [initPool, MonitorPc.holds]
  closer := by simp [initPool, CloserPc.holds]
  flag := by simp [initPool]

theorem locks_worker {w : ℕ} {b : WorkerAct} (h : Locks s) : Locks (workerNext cfg s w b) := by
  obtain ⟨n, hm⟩ := @workerNext_monitor cfg s w b
  exact ⟨by simpa [hm] using h.monitor, by simpa using h.closer, by simpa using h.flag⟩

theorem locks_caller {c : ℕ} {b : CallerAct} (h : Locks s) : Locks (callerNext cfg s c b) := by
  obtain ⟨n, hm⟩ := @callerNext_monitor cfg s c b
  by_cases hw : b.Wins s
  · obtain ⟨hf, hf', hc⟩ := @callerNext_wins cfg s c b hw
    have hidle := h.flag.1 hf
    have hcl := h.closer
    rw [hidle] at hcl
    refine ⟨by simpa [hm] using h.monitor, ?_, ?_⟩
    · simpa [hc, CloserPc.holds] using hcl
    · simp [hf', hc]
  · obtain ⟨hf, hc⟩ := @callerNext_closing cfg s c b hw
    exact ⟨by simpa [hm] using h.monitor, by simpa [hc] using h.closer, by simpa [hf, hc] using h.flag⟩

theorem locks_monitor {b : MonitorAct} (hen : Enabled s (.monitor b)) (h : Locks s) :
    Locks (monitorAct cfg s b) := by
  obtain ⟨hpc, hg, -⟩ := hen
  obtain ⟨hm, hc, hf⟩ := h
  rw [hpc] at hm
  cases b with
  | lock | wake =>
    have hg := hg rfl
    simp only [monitorAct, Pool.timeWait]
    rw [hg] at hc
    split <;> constructor <;> simp_all [Pool.monitorAt, MonitorPc.holds]
  | timeout =>
    have hg := hg rfl
    rw [hg] at hc
    constructor <;> simp_all [monitorAct, Pool.monitorAt, MonitorPc.holds]
  | start | check | grow | find =>
    simp only [monitorAct]
    split <;> constructor <;> simp_all [Pool.monitorAt, Pool.monitorSub, MonitorPc.holds, MonitorAct.at]
  | recheck | insert =>
    have hg : s.guard = some .monitor := hm.2 rfl
    simp only [monitorAct]
    split <;> constructor <;> simp_all [Pool.monitorAt, Pool.monitorSub, MonitorPc.holds, MonitorAct.at]
  | create | joinNew | join | clear | finish =>
    constructor <;> simp_all [monitorAct, Pool.monitorAt, Pool.monitorSub, MonitorPc.holds, MonitorAct.at]

theorem locks_closer {b : CloserAct} (hen : Enabled s (.closer b)) (h : Locks s) :
    Locks (closerAct cfg s b) := by
  obtain ⟨hpc, hg, -⟩ := hen
  obtain ⟨hm, hc, hf⟩ := h
  rw [hpc] at hc hf
  cases b <;>
    constructor <;>
      simp_all [closerAct, Pool.closerAt, Pool.pushTask, Pool.notifyMonitor, CloserPc.holds,
        CloserAct.at, CloserAct.locks]

theorem locks_preserved : Preserved (step cfg) Free Locks := by
  intro s a t h _ hs
  obtain ⟨hen, rfl⟩ := step_eq_some.1 hs
  cases a with
  | worker w b => exact locks_worker h
  | caller c b => exact locks_caller h
  | monitor b => exact locks_monitor hen h
  | closer b => exact locks_closer hen h

/-- Before shutdown is requested nobody is closing. -/
theorem Locks.no_closer (h : Locks s) (hf : s.isRequestShutDown = false) (b : CloserAct) :
    ¬ Enabled s (.closer b) := by
  intro hen
  have hidle := h.flag.1 hf
  rw [hen.1] at hidle
  cases b <;> cases hidle

/-! ## The entries of `m_threads` -/

/-- The worker `w` has been created by `AddWorkerThread` and not been inserted. -/
def Newcomer (s : Pool) (w : ℕ) : Prop :=
  (s.monitor.pc = .insert ∨ s.monitor.pc = .joinNew) ∧ s.monitor.newWorker = w

structure Entries (s : Pool) : Prop where
  entry : ∀ e ∈ s.threads, e.1 ≠ 0 ∧ e.2 < s.workerNum ∧ (s.workers e.2).threadId = e.1
  keys : (s.threads.map Prod.fst).Nodup
  newcomer : ∀ w, Newcomer s w → w < s.workerNum ∧ (s.workers w).threadId ≠ 0 ∧ ∀ e ∈ s.threads, e.2 ≠ w
  booked : ∀ w < s.workerNum, (s.workers w).pc = .ended ∨ Newcomer s w ∨
    ((s.workers w).threadId, w) ∈ s.threads

/-- The workers of `m_threads`. -/
def Pool.members (s : Pool) : List ℕ := s.threads.map Prod.snd

/-- No two entries belong to one worker. -/
theorem Entries.nodup (h : Entries s) : s.members.Nodup := by
  refine (List.nodup_map_iff_inj_on (List.Nodup.of_map _ h.keys)).2 fun e he e' he' heq => ?_
  have h1 := (h.entry e he).2.2
  have h2 := (h.entry e' he').2.2
  exact Prod.ext (by rw [← h1, ← h2, heq]) heq

/-- No two entries have one id. -/
theorem Entries.eq_of_id (h : Entries s) {id : ThreadId} {v w : ℕ} (hv : (id, v) ∈ s.threads)
    (hw : (id, w) ∈ s.threads) : v = w := by
  have := List.inj_on_of_nodup_map h.keys hv hw rfl
  exact (Prod.mk.inj this).2

theorem findThread_some {id : ThreadId} {e : ThreadId × ℕ} (h : s.findThread id = some e) :
    e ∈ s.threads ∧ e.1 = id := by
  refine ⟨List.mem_of_find?_eq_some h, ?_⟩
  simpa using List.find?_some h

theorem findThread_none {id : ThreadId} (h : s.findThread id = none) : ∀ e ∈ s.threads, e.1 ≠ id := by
  simpa [Pool.findThread] using h

theorem Entries.init (ids : LiveIds cfg.corePoolSize) : Entries (initPool cfg ids) where
  entry := by
    rintro e he
    simp only [initPool, List.mem_map, List.mem_range] at he
    obtain ⟨w, hw, rfl⟩ := he
    exact ⟨ids.pos w hw, hw, rfl⟩
  keys := by
    simp only [initPool, List.map_map]
    refine (List.nodup_map_iff_inj_on List.nodup_range).2 fun v hv w hw h => ?_
    exact ids.inj v (List.mem_range.1 hv) w (List.mem_range.1 hw) h
  newcomer := by simp [Newcomer, initPool]
  booked := by
    intro w hw
    refine .inr (.inr ?_)
    simp only [initPool, List.mem_map, List.mem_range]
    exact ⟨w, hw, rfl⟩

/-- The entries are kept by a step that leaves `m_threads` and the newcomer, creates no worker
    and ends workers at most. -/
theorem Entries.frame (h : Entries s) (hth : t.threads = s.threads) (hn : t.workerNum = s.workerNum)
    (hnew : ∀ w, Newcomer t w ↔ Newcomer s w)
    (hid : ∀ w < s.workerNum, (t.workers w).threadId = (s.workers w).threadId)
    (hend : ∀ w < s.workerNum, (s.workers w).pc = .ended → (t.workers w).pc = .ended) : Entries t where
  entry e he := by
    obtain ⟨h0, hlt, heq⟩ := h.entry e (hth ▸ he)
    exact ⟨h0, hn ▸ hlt, by rw [hid _ hlt, heq]⟩
  keys := by rw [hth]; exact h.keys
  newcomer w hw := by
    obtain ⟨hlt, h0, hne⟩ := h.newcomer w ((hnew w).1 hw)
    exact ⟨hn ▸ hlt, by rw [hid w hlt]; exact h0, by rw [hth]; exact hne⟩
  booked w hw := by
    rw [hn] at hw
    rw [hnew, hid w hw, hth]
    rcases h.booked w hw with h1 | h1 | h1
    · exact .inl (hend w hw h1)
    · exact .inr (.inl h1)
    · exact .inr (.inr h1)

/-- A worker that has ended stays so. -/
theorem ended_stays {a : Act} (hs : step cfg s a = some t) {v : ℕ} (hv : v < s.workerNum)
    (h : (s.workers v).pc = .ended) : (t.workers v).pc = .ended := by
  have hm := worker_move hs v
  generalize t.workers v = wk at hm ⊢
  cases hm with
  | same => exact h
  | @act _ b hen => exact absurd (h.symm.trans hen.2.1) (by cases b <;> simp [WorkerAct.at])
  | close => exact h
  | create => exact absurd hv (Nat.lt_irrefl _)

theorem entries_worker {w : ℕ} {b : WorkerAct} (hen : Enabled s (.worker w b)) (h : Entries s) :
    Entries (workerNext cfg s w b) := by
  have hs : step cfg s (.worker w b) = some (workerNext cfg s w b) := step_eq_some.2 ⟨hen, rfl⟩
  obtain ⟨n, hm⟩ := @workerNext_monitor cfg s w b
  refine h.frame (workerNext_threads w b) (workerNext_workerNum w b) (fun v => ?_)
    (fun v hv => worker_threadId hs hv) (fun v hv => ended_stays hs hv)
  simp [Newcomer, hm]

theorem entries_caller {c : ℕ} {b : CallerAct} (h : Entries s) : Entries (callerNext cfg s c b) := by
  obtain ⟨n, hm⟩ := @callerNext_monitor cfg s c b
  refine h.frame (callerNext_threads c b) (callerNext_workerNum c b) (fun v => ?_)
    (fun v _ => by rw [callerNext_workers]) (fun v _ hv => by rwa [callerNext_workers])
  simp [Newcomer, hm]

theorem entries_closer {b : CloserAct} (hen : Enabled s (.closer b)) (h : Entries s) :
    Entries (closerAct cfg s b) := by
  have hs : step cfg s (.closer b) = some (closerAct cfg s b) := step_eq_some.2 ⟨hen, rfl⟩
  refine h.frame ?_ ?_ (fun v => ?_) (fun v hv => worker_threadId hs hv) fun v hv => ended_stays hs hv
  all_goals cases b <;> rfl

/-- The monitor starts a worker. -/
theorem entries_create {id : ThreadId} (hpc : s.monitor.pc = .create)
    (hid : id ≠ 0) (h : Entries s) : Entries (monitorAct cfg s (.create id)) where
  entry e he := by
    obtain ⟨h0, hlt, heq⟩ := h.entry e he
    refine ⟨h0, Nat.lt_succ_of_lt hlt, ?_⟩
    simpa only [monitorAct, Function.update_of_ne (Nat.ne_of_lt hlt)] using heq
  keys := h.keys
  newcomer w hw := by
    obtain ⟨-, rfl⟩ := hw
    refine ⟨Nat.lt_succ_self _, ?_, fun e he => Nat.ne_of_lt (h.entry e he).2.1⟩
    simp only [monitorAct, Function.update_self]
    exact hid
  booked w hw := by
    rcases Nat.lt_succ_iff_lt_or_eq.1 hw with hlt | rfl
    · have hne := Nat.ne_of_lt hlt
      simp only [monitorAct, Function.update_of_ne hne]
      rcases h.booked w hlt with h1 | h1 | h1
      · exact .inl h1
      · exact absurd h1.1 (by simp [hpc])
      · exact .inr (.inr h1)
    · exact .inr (.inl ⟨.inl rfl, rfl⟩)

/-- The monitor inserts the worker it has started, if its id is not taken. -/
theorem entries_insert (hpc : s.monitor.pc = .insert) (h : Entries s) :
    Entries (monitorAct cfg s .insert) := by
  obtain ⟨hlt, h0, hne⟩ := h.newcomer _ ⟨.inl hpc, rfl⟩
  simp only [monitorAct]
  cases hf : s.findThread (s.workers s.monitor.newWorker).threadId with
  | some e =>
    simp only [Option.isSome_some, if_true]
    refine h.frame rfl rfl (fun w => ?_) (fun _ _ => rfl) fun _ _ hw => hw
    simp [Newcomer, Pool.monitorAt, hpc]
  | none =>
    simp only [Option.isSome_none, Bool.false_eq_true, if_false]
    have hfree := findThread_none hf
    constructor
    · intro e he
      rcases List.mem_append.1 he with he | he
      · exact h.entry e he
      · obtain rfl := List.mem_singleton.1 he
        exact ⟨h0, hlt, rfl⟩
    · simp only [List.map_append, List.map_cons, List.map_nil]
      refine List.nodup_append.2 ⟨h.keys, List.nodup_singleton _, fun a ha b hb => ?_⟩
      obtain ⟨e, he, rfl⟩ := List.mem_map.1 ha
      obtain rfl := List.mem_singleton.1 hb
      exact hfree e he
    · rintro w ⟨hw, -⟩
      simp [Pool.monitorSub] at hw
    · intro w hw
      rcases h.booked w hw with h1 | h1 | h1
      · exact .inl h1
      · obtain ⟨-, rfl⟩ := h1
        exact .inr (.inr (List.mem_append_right _ (List.mem_singleton.2 rfl)))
      · exact .inr (.inr (List.mem_append_left _ h1))

/-- The monitor erases the entry of a worker that has ended. -/
theorem entries_join (hpc : s.monitor.pc = .join) (hend : (s.workers s.monitor.victim.2).pc = .ended)
    (h : Entries s) : Entries (monitorAct cfg s .join) where
  entry e he := h.entry e (List.mem_of_mem_erase he)
  keys := h.keys.sublist ((List.erase_sublist).map _)
  newcomer w hw := absurd hw.1 (by simp [monitorAct])
  booked w hw := by
    rcases h.booked w hw with h1 | h1 | h1
    · exact .inl h1
    · exact absurd h1.1 (by simp [hpc])
    · by_cases hv : ((s.workers w).threadId, w) = s.monitor.victim
      · left
        rw [← hv] at hend
        exact hend
      · exact .inr (.inr ((List.mem_erase_of_ne hv).2 h1))

theorem entries_monitor {b : MonitorAct} (hen : Enabled s (.monitor b)) (h : Entries s) :
    Entries (monitorAct cfg s b) := by
  obtain ⟨hpc, -, hr⟩ := hen
  cases b with
  | create id => exact entries_create hpc hr.1 h
  | insert => exact entries_insert hpc h
  | join => exact entries_join hpc hr h
  | joinNew =>
    -- the newcomer has ended, so it needs no entry
    constructor
    · exact h.entry
    · exact h.keys
    · intro w hw
      exact absurd hw.1 (by simp [monitorAct, Pool.monitorSub])
    · intro w hw
      rcases h.booked w hw with h1 | ⟨-, rfl⟩ | h1
      · exact .inl h1
      · exact .inl hr
      · exact .inr (.inr h1)
  | lock | wake =>
    simp only [monitorAct, Pool.timeWait]
    split <;> refine h.frame rfl rfl (fun w => ?_) (fun _ _ => rfl) (fun _ _ hw => hw) <;>
      simp [Newcomer, Pool.monitorAt, hpc, MonitorAct.at]
  | start | check | recheck | grow | find =>
    simp only [monitorAct]
    split <;> refine h.frame rfl rfl (fun w => ?_) (fun _ _ => rfl) (fun _ _ hw => hw) <;>
      simp [Newcomer, Pool.monitorAt, Pool.monitorSub, hpc, MonitorAct.at]
  | timeout | clear | finish =>
    refine h.frame rfl rfl (fun w => ?_) (fun _ _ => rfl) (fun _ _ hw => hw)
    simp [Newcomer, monitorAct, Pool.monitorAt, hpc, MonitorAct.at]

theorem entries_preserved : Preserved (step cfg) Free Entries := by
  intro s a t h _ hs
  obtain ⟨hen, rfl⟩ := step_eq_some.1 hs
  cases a with
  | worker w b => exact entries_worker hen h
  | caller c b => exact entries_caller h
  | monitor b => exact entries_monitor hen h
  | closer b => exact entries_closer hen h

/-! ## The ids of `m_subWorkerThreadId` -/

/-- The worker has put its id into `m_subWorkerThreadId`. -/
def Worker.Listed (wk : Worker) : Prop := wk.retired = true ∧ wk.pc ≠ .subPush

theorem Worker.Listed.act {wk : Worker} {b : WorkerAct} (hok : wk.Ok) (hpc : wk.pc = b.at)
    (h : wk.Listed) : (workerAct cfg s wk b).1.Listed := by
  obtain ⟨hr, -⟩ := h
  unfold Worker.Ok at hok
  rw [hpc] at hok
  cases b <;> simp_all [WorkerAct.at, workerAct, Worker.Listed]

theorem listed_stays {a : Act} (hok : ∀ v, (s.workers v).Ok) (hs : step cfg s a = some t) {v : ℕ}
    (hv : v < s.workerNum) (h : (s.workers v).Listed) : (t.workers v).Listed := by
  have hm := worker_move hs v
  generalize t.workers v = wk at hm ⊢
  cases hm with
  | same => exact h
  | act hen => exact h.act (hok v) hen.2.1
  | close => exact h
  | create => exact absurd hv (Nat.lt_irrefl _)

/-- The monitor is in the loop over `m_subWorkerThreadId`. -/
def MonitorPc.subs : MonitorPc → Bool
  | .sub | .join => true
  | _ => false

structure Pending (s : Pool) : Prop where
  iter : s.monitor.pc.subs = true → ∀ id ∈ s.monitor.iter, ∀ w, (id, w) ∈ s.threads →
    (s.workers w).Listed
  sub : s.monitor.pc.subs = false → ∀ id ∈ s.subWorkerThreadId, id ≠ 0 →
    ∃ w, (id, w) ∈ s.threads ∧ (s.workers w).Listed
  joining : s.monitor.pc = .join → s.monitor.victim ∈ s.threads ∧ s.monitor.victim.1 ∈ s.monitor.iter

theorem Pending.init (ids : LiveIds cfg.corePoolSize) : Pending (initPool cfg ids) := by
  constructor <;> simp [initPool, MonitorPc.subs]

/-- The loop over `m_subWorkerThreadId` begins with the ids listed so far. -/
theorem Pending.loop (h : Pending s) (hpc : s.monitor.pc.subs = false) (he : Entries t)
    (hmono : ∀ e ∈ s.threads, e ∈ t.threads) (hw : t.workers = s.workers)
    (hm : t.monitor.pc = .sub) (hiter : t.monitor.iter = s.subWorkerThreadId) : Pending t where
  iter _ id hid w hmem := by
    have h0 := (he.entry _ hmem).1
    obtain ⟨v, hv, hl⟩ := h.sub hpc id (hiter ▸ hid) h0
    rw [he.eq_of_id hmem (hmono _ hv), hw]
    exact hl
  sub hsub := by rw [hm] at hsub; simp [MonitorPc.subs] at hsub
  joining hj := by rw [hm] at hj; cases hj

/-- A step that leaves the entries, the list and the monitor's place keeps the pending ids. -/
theorem Pending.frame (h : Pending s) (he : Entries s) (hth : t.threads = s.threads)
    (hsub : t.subWorkerThreadId = s.subWorkerThreadId)
    (hm : ∃ n, t.monitor = { s.monitor with notified := n })
    (hl : ∀ v < s.workerNum, (s.workers v).Listed → (t.workers v).Listed) : Pending t := by
  obtain ⟨n, hm⟩ := hm
  constructor
  · rw [hm, hth]
    exact fun hp id hid w hw => hl w (he.entry _ hw).2.1 (h.iter hp id hid w hw)
  · rw [hm, hth, hsub]
    intro hp id hid h0
    obtain ⟨w, hw, hwl⟩ := h.sub hp id hid h0
    exact ⟨w, hw, hl w (he.entry _ hw).2.1 hwl⟩
  · rw [hm, hth]
    exact h.joining

/-- The invariants of this file. -/
structure Books (s : Pool) : Prop where
  locks : Locks s
  entries : Entries s
  ok : ∀ v, (s.workers v).Ok
  pending : Pending s

theorem Books.init (ids : LiveIds cfg.corePoolSize) : Books (initPool cfg ids) :=
  ⟨.init ids, .init ids, init_ok ids, .init ids⟩

/-- While the guard is free, a worker that has not ended has its entry. -/
theorem Books.entry_of_free (h : Books s) (hg : s.guard = none) {w : ℕ} (hw : w < s.workerNum)
    (hpc : (s.workers w).pc ≠ .ended) : ((s.workers w).threadId, w) ∈ s.threads := by
  rcases h.entries.booked w hw with h1 | ⟨h1, -⟩ | h1
  · exact absurd h1 hpc
  · have hm := h.locks.monitor.2 (by rcases h1 with h1 | h1 <;> rw [h1] <;> rfl)
    rw [hg] at hm; cases hm
  · exact h1

/-- While the guard is free, the monitor is not in its loop over `m_subWorkerThreadId`. -/
theorem Locks.subs_of_free (h : Locks s) (hg : s.guard ≠ some .monitor) : s.monitor.pc.subs = false := by
  cases hpc : s.monitor.pc <;> try rfl
  all_goals exact absurd (h.monitor.2 (by rw [hpc]; rfl)) hg

theorem pending_worker {w : ℕ} {b : WorkerAct} (hen : Enabled s (.worker w b)) (h : Books s) :
    Pending (workerNext cfg s w b) := by
  have hs : step cfg s (.worker w b) = some (workerNext cfg s w b) := step_eq_some.2 ⟨hen, rfl⟩
  by_cases hb : b = .subPush
  · subst hb
    obtain ⟨hw, hpc, hg⟩ := hen
    have hg := hg rfl
    have hentry := h.entries.booked w hw
    have hsubs := h.locks.subs_of_free (by simp [hg])
    have hok := h.ok w
    unfold Worker.Ok at hok
    rw [hpc] at hok
    constructor
    · intro hp
      have : s.monitor.pc.subs = true := hp
      rw [hsubs] at this; cases this
    · intro _ id hid h0
      rcases List.mem_append.1 hid with hid | hid
      · obtain ⟨v, hv, hl⟩ := h.pending.sub hsubs id hid h0
        exact ⟨v, hv, listed_stays h.ok hs (h.entries.entry _ hv).2.1 hl⟩
      · obtain rfl := List.mem_singleton.1 hid
        refine ⟨w, h.entry_of_free hg hw (by rw [hpc]; simp [WorkerAct.at]), ?_⟩
        rw [workerNext_self]
        exact ⟨hok.2.1, by simp [workerAct]⟩
    · intro hj
      have : s.monitor.pc = .join := hj
      rw [this] at hsubs; cases hsubs
  · exact h.pending.frame h.entries (workerNext_threads w b) (workerNext_sub w b hb)
      (workerNext_monitor w b) fun v hv hl => listed_stays h.ok hs hv hl

theorem pending_caller {c : ℕ} {b : CallerAct} (h : Books s) : Pending (callerNext cfg s c b) :=
  h.pending.frame h.entries (callerNext_threads c b) (callerNext_sub c b) (callerNext_monitor c b)
    fun v _ hl => by rwa [callerNext_workers]

theorem pending_closer {b : CloserAct} (hen : Enabled s (.closer b)) (h : Books s) :
    Pending (closerAct cfg s b) := by
  have hs : step cfg s (.closer b) = some (closerAct cfg s b) := step_eq_some.2 ⟨hen, rfl⟩
  have hl := fun v hv => listed_stays h.ok hs (v := v) hv
  cases b with
  | subPush =>
    have hsubs := h.locks.subs_of_free (by simp [hen.2.1 rfl])
    constructor
    · exact h.pending.iter
    · intro _ id hid h0
      rcases List.mem_append.1 hid with hid | hid
      · exact h.pending.sub hsubs id hid h0
      · exact absurd (List.mem_singleton.1 hid) h0
    · exact h.pending.joining
  | closeMonitor =>
    exact ⟨h.pending.iter, h.pending.sub, h.pending.joining⟩
  | _ => exact h.pending.frame h.entries rfl rfl ⟨_, rfl⟩ hl

/-- Outside the loop over `m_subWorkerThreadId` the monitor only moves on. -/
theorem Pending.outside (h : Pending s) (hpc : s.monitor.pc.subs = false)
    (hpc' : t.monitor.pc.subs = false) (hth : t.threads = s.threads)
    (hsub : t.subWorkerThreadId = s.subWorkerThreadId) (hw : t.workers = s.workers) : Pending t where
  iter hp := by rw [hpc'] at hp; cases hp
  sub _ := by rw [hth, hsub, hw]; exact h.sub hpc
  joining hj := by rw [hj] at hpc'; cases hpc'

theorem pending_find (hpc : s.monitor.pc = .sub) (h : Pending s) :
    Pending (monitorAct cfg s .find) := by
  have hiter := h.iter (by rw [hpc]; rfl)
  simp only [monitorAct]
  cases hf : s.monitor.iter.head?.bind s.findThread with
  | none =>
    refine ⟨fun _ id hid => hiter id (List.mem_of_mem_tail hid), fun hp => ?_, fun hj => ?_⟩
    · have : s.monitor.pc.subs = false := hp
      rw [hpc] at this; cases this
    · have : s.monitor.pc = .join := hj
      rw [hpc] at this; cases this
  | some e =>
    obtain ⟨id, hid, hfind⟩ := Option.bind_eq_some_iff.1 hf
    obtain ⟨he, rfl⟩ := findThread_some hfind
    exact ⟨fun _ => hiter, fun hp => by simp [MonitorPc.subs] at hp,
      fun _ => ⟨he, List.mem_of_mem_head? hid⟩⟩

theorem pending_create {id : ThreadId} (hpc : s.monitor.pc = .create) (he : Entries s) (h : Pending s) :
    Pending (monitorAct cfg s (.create id)) := by
  refine ⟨fun hp => by simp [monitorAct, MonitorPc.subs] at hp, fun _ i hi h0 => ?_,
    fun hj => by simp [monitorAct] at hj⟩
  obtain ⟨w, hw, hl⟩ := h.sub (by rw [hpc]; rfl) i hi h0
  refine ⟨w, hw, ?_⟩
  simpa only [monitorAct, Function.update_of_ne (Nat.ne_of_lt (he.entry _ hw).2.1)] using hl

theorem pending_monitor {b : MonitorAct} (hen : Enabled s (.monitor b)) (h : Books s) :
    Pending (monitorAct cfg s b) := by
  have he : Entries (monitorAct cfg s b) := entries_monitor hen h.entries
  obtain ⟨hpc, -, -⟩ := hen
  have hp := h.pending
  have hsubs : s.monitor.pc.subs = b.at.subs := by rw [hpc]
  cases b with
  | start | check | lock | wake | recheck =>
    refine hp.outside hsubs ?_ ?_ ?_ ?_
    all_goals
      simp only [monitorAct, Pool.timeWait]
      split <;> rfl
  | timeout | finish => exact hp.outside hsubs rfl rfl rfl rfl
  | grow =>
    simp only [monitorAct]
    split
    · exact hp.outside hsubs rfl rfl rfl rfl
    · refine hp.loop hsubs ?_ (fun _ he => he) rfl rfl rfl
      exact h.entries.frame rfl rfl (fun w => by simp [Newcomer, Pool.monitorSub, hpc, MonitorAct.at])
        (fun _ _ => rfl) fun _ _ hw => hw
  | create id => exact pending_create hpc h.entries hp
  | insert =>
    revert he
    simp only [monitorAct]
    split
    · exact fun _ => hp.outside hsubs rfl rfl rfl rfl
    · exact fun he => hp.loop hsubs he (fun _ he => List.mem_append_left _ he) rfl rfl rfl
  | joinNew => exact hp.loop hsubs he (fun _ he => he) rfl rfl rfl
  | find => exact pending_find hpc hp
  | join =>
    refine ⟨fun _ id hid w hw => ?_, fun hp => by simp [monitorAct, MonitorPc.subs] at hp,
      fun hj => by simp [monitorAct] at hj⟩
    exact hp.iter hsubs id (List.mem_of_mem_tail hid) w (List.mem_of_mem_erase hw)
  | clear =>
    exact ⟨fun hp => by simp [monitorAct, Pool.monitorAt, MonitorPc.subs] at hp,
      fun _ id hid => by simp [monitorAct] at hid, fun hj => by simp [monitorAct, Pool.monitorAt] at hj⟩

theorem books_preserved : Preserved (step cfg) Free Books := by
  intro s a t h hf hs
  refine ⟨locks_preserved s a t h.locks hf hs, entries_preserved s a t h.entries hf hs,
    workers_ok s a t h.ok hf hs, ?_⟩
  obtain ⟨hen, rfl⟩ := step_eq_some.1 hs
  cases a with
  | worker w b => exact pending_worker hen h
  | caller c b => exact pending_caller h
  | monitor b => exact pending_monitor hen h
  | closer b => exact pending_closer hen h

/-- The books hold in every reachable state. -/
theorem run_books (ids : LiveIds cfg.corePoolSize) {as : List Act}
    (h : Run (step cfg) Free (initPool cfg ids) as s) : Books s :=
  h.invariant books_preserved (.init ids)

/-! ## Ids that are not taken -/

/-- The id is the id of no entry. -/
def FreshId (s : Pool) (id : ThreadId) : Prop := ∀ e ∈ s.threads, e.1 ≠ id

instance (s : Pool) (id : ThreadId) : Decidable (FreshId s id) :=
  inferInstanceAs (Decidable (∀ e ∈ s.threads, e.1 ≠ id))

/-- `m_threads` accepts the worker that the monitor has started. -/
structure Accepts (s : Pool) : Prop where
  fresh : s.monitor.pc = .insert → FreshId s (s.workers s.monitor.newWorker).threadId
  accepted : s.monitor.pc ≠ .joinNew

theorem Accepts.init (ids : LiveIds cfg.corePoolSize) : Accepts (initPool cfg ids) :=
  ⟨by simp [initPool], by simp [initPool]⟩

/-- It does so if each new worker gets an id that is not taken. -/
theorem accepts_step {a : Act} (hb : Books s) (h : Accepts s)
    (hc : ∀ id, a = .monitor (.create id) → FreshId s id) (hs : step cfg s a = some t) : Accepts t := by
  have hs' := hs
  obtain ⟨hen, rfl⟩ := step_eq_some.1 hs
  cases a with
  | worker w b =>
    obtain ⟨n, hm⟩ := @workerNext_monitor cfg s w b
    refine ⟨?_, by rw [next, hm]; exact h.accepted⟩
    rw [next, hm, FreshId, workerNext_threads]
    intro hi
    have hid := worker_threadId hs' (hb.entries.newcomer _ ⟨.inl hi, rfl⟩).1
    rw [next] at hid
    rw [hid]
    exact h.fresh hi
  | caller c b =>
    obtain ⟨n, hm⟩ := @callerNext_monitor cfg s c b
    rw [next]
    refine ⟨?_, by rw [hm]; exact h.accepted⟩
    rw [hm, FreshId, callerNext_threads, callerNext_workers]
    exact h.fresh
  | monitor b =>
    constructor
    · intro hi
      obtain ⟨id, rfl⟩ := monitor_insert b hen.1 hi
      simp only [next, monitorAct, Function.update_self]
      exact hc id rfl
    · intro hj
      obtain ⟨rfl, hsome⟩ := monitor_joinNew b hen.1 hj
      obtain ⟨e, he⟩ := Option.isSome_iff_exists.1 hsome
      obtain ⟨hmem, hid⟩ := findThread_some he
      exact h.fresh hen.1 e hmem hid
  | closer b =>
    have hm : (closerAct cfg s b).monitor.pc = s.monitor.pc ∧
        (closerAct cfg s b).monitor.newWorker = s.monitor.newWorker := by cases b <;> exact ⟨rfl, rfl⟩
    refine ⟨?_, by rw [next, hm.1]; exact h.accepted⟩
    rw [next, hm.1, hm.2, FreshId, closerAct_threads]
    intro hi
    have hid := worker_threadId hs' (hb.entries.newcomer _ ⟨.inl hi, rfl⟩).1
    rw [next] at hid
    rw [hid]
    exact h.fresh hi

end Empool
