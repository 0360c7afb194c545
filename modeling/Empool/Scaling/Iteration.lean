/-
  What the pool knows of its workers after an iteration of the monitor.

  `m_threads` is keyed by thread ids, and the kernel gives the id of a thread
  that has ended to another one.  So `AddWorkerThread` may start a worker whose
  id is still a key; `insert` refuses it then, and `AddWorkerThread` joins it.

  * `Listing`: the ids that the monitor has still to visit, with the workers that
    have listed them; each of these has its entry, so the loop erases it and no
    other;
  * `Accounted`: every worker that has not called its finish action has its
    entry, as long as no refused worker is ended by an exception of its task;
  * `Dropped`: such a worker has no entry from then on.
-/
import Empool.Scaling.Backlog
import Empool.Lib.History

namespace Empool

open Lts

variable {cfg : Config} {s t : Pool}

/-! ## The ids to visit -/

/-- The workers whose ids in `m_subWorkerThreadId` have still to be visited by the monitor's loop, in the order
    of the ids. -/
def listing (l : List ℕ) (s : Pool) : Act → List ℕ
  | .worker w .subPush => l ++ [w]
  | .monitor .find => if (s.monitor.iter.head?.bind s.findThread).isSome then l else l.tail
  | .monitor .join => l.tail
  | _ => l

/-- A step of the pool with the listing of the run. -/
def recorded (cfg : Config) : List ℕ × Pool → Act → Option (List ℕ × Pool) := record (step cfg) listing

/-- The ids that have still to be visited. -/
def Pool.toVisit (s : Pool) : List ThreadId :=
  if s.monitor.pc.subs then s.monitor.iter else s.subWorkerThreadId

/-- The worker has its own entry in `m_threads`. -/
def Pool.HasEntry (s : Pool) (w : ℕ) : Prop := ((s.workers w).threadId, w) ∈ s.threads

instance (s : Pool) (w : ℕ) : Decidable (s.HasEntry w) := inferInstanceAs (Decidable (_ ∈ _))

/-- Before shutdown, each id to visit is that of a worker that has listed it and has its entry. -/
structure Listing (l : List ℕ) (s : Pool) : Prop where
  ids : s.toVisit = l.map fun w => (s.workers w).threadId
  nodup : l.Nodup
  listed : ∀ w ∈ l, w < s.workerNum ∧ (s.workers w).Listed ∧ s.HasEntry w
  joining : s.monitor.pc = .join → ∃ w rest, l = w :: rest ∧ s.monitor.victim = ((s.workers w).threadId, w)

theorem Listing.init (ids : LiveIds cfg.corePoolSize) : Listing [] (initPool cfg ids) where
  ids := rfl
  nodup := List.nodup_nil
  listed w hw := by cases hw
  joining hj := by cases hj

variable {l : List ℕ}

/-- A step that leaves the ids to visit and the entries, and no worker unlisted. -/
theorem Listing.frame (h : Listing l s) (hids : t.toVisit = s.toVisit) (hnum : s.workerNum ≤ t.workerNum)
    (hid : ∀ w < s.workerNum, (t.workers w).threadId = (s.workers w).threadId)
    (hlisted : ∀ w < s.workerNum, (s.workers w).Listed → (t.workers w).Listed)
    (hth : ∀ e ∈ s.threads, e ∈ t.threads)
    (hjoin : t.monitor.pc = .join → s.monitor.pc = .join ∧ t.monitor.victim = s.monitor.victim) :
    Listing l t where
  ids := by
    rw [hids, h.ids]
    exact List.map_congr_left fun w hw => (hid w (h.listed w hw).1).symm
  nodup := h.nodup
  listed w hw := by
    obtain ⟨hlt, hl, he⟩ := h.listed w hw
    refine ⟨Nat.lt_of_lt_of_le hlt hnum, hlisted w hlt hl, ?_⟩
    rw [Pool.HasEntry, hid w hlt]
    exact hth _ he
  joining hj := by
    obtain ⟨hpc, hv⟩ := hjoin hj
    obtain ⟨w, rest, rfl, hw⟩ := h.joining hpc
    refine ⟨w, rest, rfl, ?_⟩
    rw [hv, hw, hid w (h.listed w (List.mem_cons_self ..)).1]

theorem listing_worker {w : ℕ} {b : WorkerAct} (hen : Enabled s (.worker w b)) (hb : Books s)
    (h : Listing l s) : Listing (listing l s (.worker w b)) (workerNext cfg s w b) := by
  have hs : step cfg s (.worker w b) = some (workerNext cfg s w b) := step_eq_some.2 ⟨hen, rfl⟩
  have hid : ∀ v < s.workerNum, ((workerNext cfg s w b).workers v).threadId = (s.workers v).threadId :=
    fun v hv => worker_threadId hs hv
  have hlisted : ∀ v < s.workerNum, (s.workers v).Listed → ((workerNext cfg s w b).workers v).Listed :=
    fun v hv hl => listed_stays hb.ok hs hv hl
  obtain ⟨n, hm⟩ := @workerNext_monitor cfg s w b
  by_cases hpush : b = .subPush
  · subst hpush
    obtain ⟨hw, hpc, hg⟩ := hen
    have hfree := hg rfl
    have hsubs := hb.locks.subs_of_free (by simp [hfree])
    have hok := hb.ok w
    unfold Worker.Ok at hok
    rw [hpc] at hok
    have hentry := hb.entry_of_free hfree hw (by rw [hpc]; exact nofun)
    have hnew : w ∉ l := fun hmem => (h.listed w hmem).2.1.2 hpc
    have hvisit := h.ids
    simp only [Pool.toVisit, hsubs, if_neg Bool.false_ne_true] at hvisit
    have hself : ((workerNext cfg s w .subPush).workers w).Listed := by
      rw [workerNext_self]
      exact ⟨hok.2.1, nofun⟩
    refine ⟨?_, h.nodup.append (List.nodup_singleton w) (by simpa using hnew), fun v hv => ?_, fun hj => ?_⟩
    · have hids : (l ++ [w]).map (fun v => ((workerNext cfg s w .subPush).workers v).threadId) =
          s.subWorkerThreadId ++ [(s.workers w).threadId] := by
        rw [List.map_append, List.map_singleton, hid w hw, hvisit]
        exact congrArg (· ++ _) (List.map_congr_left fun v hv => hid v (h.listed v hv).1)
      refine Eq.trans ?_ hids.symm
      simp only [Pool.toVisit, hm, hsubs, if_neg Bool.false_ne_true]
      rfl
    · rcases List.mem_append.1 hv with hv | hv
      · obtain ⟨hlt, hl, he⟩ := h.listed v hv
        exact ⟨hlt, hlisted v hlt hl, by rw [Pool.HasEntry, hid v hlt]; exact he⟩
      · obtain rfl := List.mem_singleton.1 hv
        exact ⟨hw, hself, by rw [Pool.HasEntry, hid v hw]; exact hentry⟩
    · rw [hm] at hj
      rw [show s.monitor.pc = .join from hj] at hsubs
      cases hsubs
  · have hl : listing l s (.worker w b) = l := by cases b <;> first | rfl | exact absurd rfl hpush
    rw [hl]
    refine h.frame ?_ (Nat.le_of_eq (workerNext_workerNum w b).symm) hid hlisted (fun e he => ?_) fun hj => ?_
    · simp only [Pool.toVisit, hm, workerNext_sub w b hpush]
    · rwa [workerNext_threads]
    · rw [hm] at hj ⊢
      exact ⟨hj, rfl⟩

theorem listing_caller {c : ℕ} {b : CallerAct} (h : Listing l s) : Listing l (callerNext cfg s c b) := by
  obtain ⟨n, hm⟩ := @callerNext_monitor cfg s c b
  refine h.frame ?_ (Nat.le_of_eq (callerNext_workerNum c b).symm) (fun w _ => ?_) (fun w _ hl => ?_) (fun e he => ?_)
    fun hj => ?_
  · simp only [Pool.toVisit, hm, callerNext_sub]
  · rw [callerNext_workers]
  · rwa [callerNext_workers]
  · rwa [callerNext_threads]
  · rw [hm] at hj ⊢
    exact ⟨hj, rfl⟩

/-- The monitor begins its loop, or moves on outside of it. -/
theorem Listing.outside (h : Listing l s) (hpc : s.monitor.pc.subs = false)
    (ht : t.monitor.pc.subs = false ∧ t.subWorkerThreadId = s.subWorkerThreadId ∨
      t.monitor.pc = .sub ∧ t.monitor.iter = s.subWorkerThreadId)
    (hw : t.workers = s.workers) (hnum : t.workerNum = s.workerNum) (hth : ∀ e ∈ s.threads, e ∈ t.threads) :
    Listing l t := by
  refine h.frame ?_ (Nat.le_of_eq hnum.symm) (fun _ _ => by rw [hw]) (fun _ _ hl => by rwa [hw]) hth fun hj => ?_
  · rcases ht with ⟨hpc', hsub⟩ | ⟨hpc', hiter⟩
    · simp only [Pool.toVisit, hpc, hpc', hsub, if_neg Bool.false_ne_true]
    · simp only [Pool.toVisit, hpc, hpc', hiter, if_neg Bool.false_ne_true]
      rfl
  · rcases ht with ⟨hpc', -⟩ | ⟨hpc', -⟩
    · rw [hj] at hpc'
      cases hpc'
    · cases hpc'.symm.trans hj

theorem Entries.findThread (h : Entries s) {w : ℕ} (hw : s.HasEntry w) :
    s.findThread (s.workers w).threadId = some ((s.workers w).threadId, w) := by
  cases hf : s.findThread (s.workers w).threadId with
  | none => exact absurd rfl (findThread_none hf _ hw)
  | some e =>
    obtain ⟨hmem, hid⟩ := findThread_some hf
    obtain ⟨id, v⟩ := e
    obtain rfl : id = (s.workers w).threadId := hid
    rw [h.eq_of_id hmem hw]

/-- The loop finds the entry of the worker that has listed the id. -/
theorem Listing.find (h : Listing l s) (he : Entries s) (hpc : s.monitor.pc = .sub) {id : ThreadId}
    (hid : s.monitor.iter.head? = some id) :
    ∃ w rest, l = w :: rest ∧ (s.workers w).threadId = id ∧ s.findThread id = some (id, w) := by
  have hvisit := h.ids
  simp only [Pool.toVisit, hpc, MonitorPc.subs, if_true] at hvisit
  rw [hvisit] at hid
  cases l with
  | nil => cases hid
  | cons w rest =>
    obtain rfl : (s.workers w).threadId = id := Option.some.inj hid
    exact ⟨w, rest, rfl, rfl, he.findThread (h.listed w (List.mem_cons_self ..)).2.2⟩

/-- The loop visits the next id. -/
theorem listing_find (hpc : s.monitor.pc = .sub) (hne : s.monitor.iter ≠ []) (he : Entries s) (h : Listing l s) :
    Listing (listing l s (.monitor .find)) (monitorAct cfg s .find) := by
  obtain ⟨id, tl, hiter⟩ := List.exists_cons_of_ne_nil hne
  obtain ⟨w, rest, rfl, rfl, hfind⟩ := h.find he hpc (by rw [hiter]; rfl)
  have hsome : s.monitor.iter.head?.bind s.findThread = some ((s.workers w).threadId, w) := by
    rw [hiter]
    exact hfind
  have hl : listing (w :: rest) s (.monitor .find) = w :: rest := by
    simp only [listing, hsome, Option.isSome_some, if_true]
  rw [hl]
  simp only [monitorAct, hsome]
  refine ⟨?_, h.nodup, h.listed, fun _ => ⟨w, rest, rfl, rfl⟩⟩
  rw [← h.ids]
  simp only [Pool.toVisit, hpc]
  rfl

/-- It erases the entry of the worker that has listed the id. -/
theorem listing_join (hpc : s.monitor.pc = .join) (h : Listing l s) :
    Listing (listing l s (.monitor .join)) (monitorAct cfg s .join) := by
  obtain ⟨w, rest, rfl, hv⟩ := h.joining hpc
  have hvisit := h.ids
  simp only [Pool.toVisit, hpc, MonitorPc.subs, if_true] at hvisit
  have hw := (List.nodup_cons.1 h.nodup).1
  refine ⟨?_, (List.nodup_cons.1 h.nodup).2, fun v hv' => ?_, fun hj => by cases hj⟩
  · show s.monitor.iter.tail = rest.map _
    rw [hvisit]
    rfl
  · obtain ⟨hlt, hl, he⟩ := h.listed v (List.mem_cons_of_mem w hv')
    refine ⟨hlt, hl, (List.mem_erase_of_ne fun heq => ?_).2 he⟩
    rw [hv] at heq
    exact hw ((Prod.mk.inj heq).2 ▸ hv')

theorem listing_monitor {b : MonitorAct} (hen : Enabled s (.monitor b)) (hb : Books s) (h : Listing l s) :
    Listing (listing l s (.monitor b)) (monitorAct cfg s b) := by
  obtain ⟨hpc, -, hr⟩ := hen
  have hsubs : s.monitor.pc.subs = b.at.subs := by rw [hpc]
  cases b with
  | start | check | lock | wake | recheck =>
    refine h.outside hsubs (.inl ?_) ?_ ?_ fun e he => ?_
    all_goals
      simp only [monitorAct, Pool.timeWait]
      split
    all_goals first | exact ⟨rfl, rfl⟩ | rfl | exact he
  | timeout | finish => exact h.outside hsubs (.inl ⟨rfl, rfl⟩) rfl rfl fun _ he => he
  | grow =>
    simp only [monitorAct]
    split
    · exact h.outside hsubs (.inl ⟨rfl, rfl⟩) rfl rfl fun _ he => he
    · exact h.outside hsubs (.inr ⟨rfl, rfl⟩) rfl rfl fun _ he => he
  | create id =>
    have hold : ∀ w < s.workerNum, (monitorAct cfg s (.create id)).workers w = s.workers w :=
      fun w hw => Function.update_of_ne (Nat.ne_of_lt hw) ..
    refine h.frame ?_ (Nat.le_succ _) (fun w hw => by rw [hold w hw]) (fun w hw hl => by rwa [hold w hw])
      (fun _ he => he) fun hj => by cases hj
    simp only [Pool.toVisit, hsubs]
    rfl
  | insert =>
    simp only [monitorAct]
    split
    · exact h.outside hsubs (.inl ⟨rfl, rfl⟩) rfl rfl fun _ he => he
    · exact h.outside hsubs (.inr ⟨rfl, rfl⟩) rfl rfl fun _ he => List.mem_append_left _ he
  | joinNew => exact h.outside hsubs (.inr ⟨rfl, rfl⟩) rfl rfl fun _ he => he
  | find => exact listing_find hpc hr hb.entries h
  | join => exact listing_join hpc h
  | clear =>
    have hnil : s.monitor.iter = [] := hr
    have hpc : s.monitor.pc = .sub := hpc
    have hvisit := h.ids
    simp only [Pool.toVisit, hpc, MonitorPc.subs, if_true, hnil] at hvisit
    obtain rfl : l = [] := List.map_eq_nil_iff.1 hvisit.symm
    exact ⟨rfl, List.nodup_nil, List.forall_mem_nil _, fun hj => by cases hj⟩

/-- The listing of a run, before shutdown. -/
theorem listing_step : PreservedUnder (recorded cfg) Free (fun p => Books p.2)
    fun p => p.2.isRequestShutDown = false → Listing p.1 p.2 := by
  rintro ⟨l, s⟩ a ⟨l', t⟩ hb h - hs hf
  obtain ⟨hst, rfl⟩ := record_eq_some.1 hs
  have hf₀ := flag_mono hst hf
  obtain ⟨hen, rfl⟩ := step_eq_some.1 hst
  cases a with
  | worker w b => exact listing_worker hen hb (h hf₀)
  | caller c b => exact listing_caller (h hf₀)
  | monitor b => exact listing_monitor hen hb (h hf₀)
  | closer b => exact absurd hen (hb.locks.no_closer hf₀ b)

/-! ## The number of entries -/

/-- `m_threads` has no more than `m_maxThreadSize` entries, and fewer while a worker is about to be inserted. -/
structure Bounded (cfg : Config) (s : Pool) : Prop where
  size : s.threads.length ≤ cfg.maxThreadSize
  room : s.monitor.pc = .create ∨ s.monitor.pc = .insert → s.threads.length < cfg.maxThreadSize

theorem Bounded.init (hcfg : cfg.corePoolSize ≤ cfg.maxThreadSize) (ids : LiveIds cfg.corePoolSize) :
    Bounded cfg (initPool cfg ids) where
  size := by simpa [initPool] using hcfg
  room h := by rcases h with h | h <;> cases h

theorem Bounded.frame (h : Bounded cfg s) (hth : t.threads.length ≤ s.threads.length)
    (hpc : t.monitor.pc = .create ∨ t.monitor.pc = .insert → s.monitor.pc = .create ∨ s.monitor.pc = .insert) :
    Bounded cfg t where
  size := Nat.le_trans hth h.size
  room ht := Nat.lt_of_le_of_lt hth (h.room (hpc ht))

theorem bounded_monitor {b : MonitorAct} (hpc : s.monitor.pc = b.at) (h : Bounded cfg s) :
    Bounded cfg (monitorAct cfg s b) := by
  cases b with
  | start | check | lock | wake | recheck | find =>
    refine h.frame ?_ fun ht => absurd ht ?_
    all_goals
      simp only [monitorAct, Pool.timeWait]
      split
    all_goals first | exact Nat.le_refl _ | simp [Pool.monitorAt, hpc, MonitorAct.at]
  | grow =>
    simp only [monitorAct]
    split
    next hroom => exact ⟨h.size, fun _ => hroom.2⟩
    next => exact h.frame (Nat.le_refl _) fun ht => by rcases ht with ht | ht <;> cases ht
  | create id => exact ⟨h.size, fun _ => h.room (.inl hpc)⟩
  | insert =>
    simp only [monitorAct]
    split
    · exact h.frame (Nat.le_refl _) fun ht => by rcases ht with ht | ht <;> cases ht
    · refine ⟨?_, fun ht => by rcases ht with ht | ht <;> cases ht⟩
      have hroom := h.room (.inr hpc)
      show (s.threads ++ [_]).length ≤ _
      rw [List.length_append, List.length_singleton]
      omega
  | join =>
    exact h.frame List.length_erase_le fun ht => by rcases ht with ht | ht <;> cases ht
  | timeout | joinNew | clear | finish =>
    exact h.frame (Nat.le_refl _) fun ht => by rcases ht with ht | ht <;> cases ht

theorem bounded_step : Preserved (step cfg) Free (Bounded cfg) := by
  intro s a t h _ hs
  obtain ⟨hen, rfl⟩ := step_eq_some.1 hs
  cases a with
  | worker w b =>
    obtain ⟨n, hm⟩ := @workerNext_monitor cfg s w b
    refine h.frame (by simp only [next, workerNext_threads]; exact Nat.le_refl _) fun ht => ?_
    rwa [next, hm] at ht
  | caller c b =>
    obtain ⟨n, hm⟩ := @callerNext_monitor cfg s c b
    refine h.frame (by simp only [next, callerNext_threads]; exact Nat.le_refl _) fun ht => ?_
    rwa [next, hm] at ht
  | monitor b => exact bounded_monitor hen.1 h
  | closer b =>
    refine h.frame (by simp only [next, closerAct_threads]; exact Nat.le_refl _) fun ht => ?_
    cases b <;> exact ht

/-! ## The workers with an entry -/

/-- Where a worker can be that has not locked the guard since its start. -/
def Worker.Early (wk : Worker) : Prop :=
  match wk.pc with
  | .start | .check | .pop | .popWait | .judge | .dispatch | .running | .finish | .subPush | .ended => True
  | .asyncClose | .recheck | .subNotify | .count | .compare | .setShutDown | .notifyAll | .notifyFinished => False

/-- Without the guard, and before shutdown, it does not get further. -/
theorem Worker.Early.act {wk : Worker} {b : WorkerAct} (h : wk.Early) (hpc : wk.pc = b.at)
    (hb : b.locks = false) (hf : s.isRequestShutDown = false) : (workerAct cfg s wk b).1.Early := by
  unfold Worker.Early at h
  rw [hpc] at h
  cases b with
  | start | check =>
    simp only [workerAct, Worker.checkFunc]
    split <;> trivial
  | pop | wake =>
    simp only [workerAct, Worker.popTimeWait]
    split <;> trivial
  | dispatch =>
    simp only [workerAct]
    split <;> trivial
  | finish =>
    simp only [workerAct, hf]
    trivial
  | timeout | runReturn | runThrow => trivial
  | judge | subPush | subNotify => cases hb
  | asyncClose | recheck | count | compare | setShutDown | notifyAll | notifyFinished => exact h.elim

/-- Only an exception ends it. -/
theorem Worker.Early.ended {wk : Worker} {b : WorkerAct} (h : wk.Early) (hpc : wk.pc = b.at)
    (hend : (workerAct cfg s wk b).1.pc = .ended) : b = .runThrow := by
  unfold Worker.Early at h
  rw [hpc] at h
  cases b with
  | start | check | recheck =>
    simp only [workerAct, Worker.checkFunc] at hend
    split at hend <;> cases hend
  | pop | wake =>
    simp only [workerAct, Worker.popTimeWait] at hend
    split at hend <;> cases hend
  | judge | dispatch | finish | compare =>
    simp only [workerAct] at hend
    split at hend <;> cases hend
  | runThrow => rfl
  | notifyFinished => exact h.elim
  | _ => cases hend

/-- The finish action is not taken back. -/
theorem finishCalls_of_act {wk : Worker} {b : WorkerAct} (h : (workerAct cfg s wk b).1.finishCalls = 0) :
    wk.finishCalls = 0 := by
  cases b with
  | start | check | recheck =>
    simp only [workerAct, Worker.checkFunc] at h
    split at h
    · cases h
    · exact h
  | pop | wake =>
    simp only [workerAct, Worker.popTimeWait] at h
    split at h <;> exact h
  | dispatch =>
    simp only [workerAct] at h
    split at h
    · cases h
    · exact h
    · exact h
  | finish =>
    simp only [workerAct] at h
    split at h <;> exact h
  | _ => exact h

theorem finishCalls_of_step {a : Act} (hs : step cfg s a = some t) {w : ℕ} (hw : w < s.workerNum)
    (h : (t.workers w).finishCalls = 0) : (s.workers w).finishCalls = 0 := by
  have hm := worker_move hs w
  generalize t.workers w = wk at hm h
  cases hm with
  | same | close => exact h
  | act => exact finishCalls_of_act h
  | create => exact absurd hw (Nat.lt_irrefl _)

instance (s : Pool) (w : ℕ) : Decidable (Newcomer s w) := inferInstanceAs (Decidable ((_ ∨ _) ∧ _))

/-- Every worker that has not called its finish action has its entry or is about to get it; a worker whose id
    is taken is alive. -/
structure Accounted (s : Pool) : Prop where
  booked : ∀ w < s.workerNum, (s.workers w).finishCalls = 0 → s.HasEntry w ∨ Newcomer s w
  early : ∀ w, Newcomer s w → (s.workers w).Early
  alive : ∀ w, Newcomer s w → ¬ FreshId s (s.workers w).threadId → (s.workers w).pc ≠ .ended
  taken : s.monitor.pc = .joinNew → ¬ FreshId s (s.workers s.monitor.newWorker).threadId

/-- No task of a worker that `AddWorkerThread` has started under an id that is a key of `m_threads` is left by an
    exception. -/
def Spared (s : Pool) : Act → Prop
  | .worker w .runThrow => Newcomer s w → FreshId s (s.workers w).threadId
  | _ => True

theorem Accounted.init (ids : LiveIds cfg.corePoolSize) : Accounted (initPool cfg ids) where
  booked w hw _ := ((Entries.init ids).booked w hw).elim (fun h => by cases h) Or.symm
  early w h := by rcases h.1 with h | h <;> cases h
  alive w h := by rcases h.1 with h | h <;> cases h
  taken h := by cases h

/-- The monitor has started a worker and not inserted it yet. -/
def MonitorPc.adds : MonitorPc → Bool
  | .insert | .joinNew => true
  | _ => false

theorem not_newcomer (hpc : s.monitor.pc.adds = false) (w : ℕ) : ¬ Newcomer s w := by
  rintro ⟨hw | hw, -⟩
  · rw [hw] at hpc
    cases hpc
  · rw [hw] at hpc
    cases hpc

/-- A step of no worker, to a state with no newcomer. -/
theorem Accounted.frame (h : Accounted s) (hw : t.workers = s.workers) (hnum : t.workerNum = s.workerNum)
    (hold : s.monitor.pc.adds = false) (hnew : t.monitor.pc.adds = false)
    (hth : ∀ w < s.workerNum, (s.workers w).finishCalls = 0 → s.HasEntry w → t.HasEntry w) : Accounted t where
  booked w hlt hfin := by
    rw [hnum] at hlt
    rw [hw] at hfin
    exact .inl (hth w hlt hfin ((h.booked w hlt hfin).resolve_right (not_newcomer hold w)))
  early w hn := absurd hn (not_newcomer hnew w)
  alive w hn := absurd hn (not_newcomer hnew w)
  taken hj := absurd ⟨.inr hj, rfl⟩ (not_newcomer hnew t.monitor.newWorker)

theorem accounted_worker {w : ℕ} {b : WorkerAct} (hen : Enabled s (.worker w b)) (hb : Books s)
    (hf : s.isRequestShutDown = false) (hP : Spared s (.worker w b)) (h : Accounted s) :
    Accounted (workerNext cfg s w b) := by
  have hs : step cfg s (.worker w b) = some (workerNext cfg s w b) := step_eq_some.2 ⟨hen, rfl⟩
  have hid : ∀ v < s.workerNum, ((workerNext cfg s w b).workers v).threadId = (s.workers v).threadId :=
    fun v hv => worker_threadId hs hv
  obtain ⟨n, hm⟩ := @workerNext_monitor cfg s w b
  have hnew : ∀ v, Newcomer (workerNext cfg s w b) v ↔ Newcomer s v := fun v => by simp only [Newcomer, hm]
  have hfresh : ∀ id, FreshId (workerNext cfg s w b) id ↔ FreshId s id := fun id => by
    simp only [FreshId, workerNext_threads]
  -- a newcomer runs while the monitor holds the guard
  have hmove : ∀ v, Newcomer s v → ((workerNext cfg s w b).workers v).Early ∧
      (((workerNext cfg s w b).workers v).pc = .ended → (s.workers v).pc = .ended ∨ v = w ∧ b = .runThrow) := by
    intro v hv
    by_cases hvw : v = w
    · subst hvw
      have hguard := hb.locks.monitor.2 (by rcases hv.1 with hv | hv <;> rw [hv] <;> rfl)
      have hlocks : b.locks = false := by
        cases hl : b.locks with
        | false => rfl
        | true => cases hguard.symm.trans (hen.2.2 hl)
      rw [workerNext_self]
      have hearly := h.early v hv
      exact ⟨hearly.act hen.2.1 hlocks hf, fun hend => .inr ⟨rfl, hearly.ended hen.2.1 hend⟩⟩
    · rw [workerNext_of_ne w b hvw]
      exact ⟨h.early v hv, .inl⟩
  refine ⟨fun v hv hfin => ?_, fun v hv => (hmove v ((hnew v).1 hv)).1, fun v hv htaken hend => ?_, fun hj => ?_⟩
  · rw [workerNext_workerNum] at hv
    rw [hnew, Pool.HasEntry, hid v hv, workerNext_threads]
    exact h.booked v hv (finishCalls_of_step hs hv hfin)
  · rw [hnew] at hv
    have hlt := (hb.entries.newcomer v hv).1
    rw [hid v hlt, hfresh] at htaken
    rcases (hmove v hv).2 hend with hended | ⟨rfl, rfl⟩
    · exact h.alive v hv htaken hended
    · exact htaken (hP hv)
  · rw [hm] at hj ⊢
    have hj : s.monitor.pc = .joinNew := hj
    have hlt := (hb.entries.newcomer _ ⟨.inr hj, rfl⟩).1
    rw [hfresh, hid _ hlt]
    exact h.taken hj

theorem accounted_caller {c : ℕ} {b : CallerAct} (h : Accounted s) : Accounted (callerNext cfg s c b) := by
  obtain ⟨n, hm⟩ := @callerNext_monitor cfg s c b
  have hnew : ∀ v, Newcomer (callerNext cfg s c b) v ↔ Newcomer s v := fun v => by simp only [Newcomer, hm]
  refine ⟨fun v hv hfin => ?_, fun v hv => ?_, fun v hv htaken => ?_, fun hj => ?_⟩
  · rw [callerNext_workerNum] at hv
    rw [callerNext_workers] at hfin
    rw [hnew, Pool.HasEntry, callerNext_workers, callerNext_threads]
    exact h.booked v hv hfin
  · rw [callerNext_workers]
    exact h.early v ((hnew v).1 hv)
  · rw [callerNext_workers] at htaken ⊢
    rw [FreshId, callerNext_threads] at htaken
    exact h.alive v ((hnew v).1 hv) htaken
  · rw [hm] at hj ⊢
    rw [FreshId, callerNext_threads, callerNext_workers]
    exact h.taken hj

/-- A worker retires in its finish action. -/
theorem Worker.Ok.finishCalls_of_retired {wk : Worker} (h : wk.Ok) (hr : wk.retired = true) :
    wk.finishCalls = 1 := by
  unfold Worker.Ok at h
  cases hpc : wk.pc <;> simp_all

theorem accounted_create {id : ThreadId} (hpc : s.monitor.pc = .create) (h : Accounted s) :
    Accounted (monitorAct cfg s (.create id)) where
  booked w hw hfin := by
    rcases Nat.lt_succ_iff_lt_or_eq.1 hw with hlt | rfl
    · have hold : (monitorAct cfg s (.create id)).workers w = s.workers w :=
        Function.update_of_ne (Nat.ne_of_lt hlt) ..
      rw [hold] at hfin
      rw [Pool.HasEntry, hold]
      exact .inl ((h.booked w hlt hfin).resolve_right (not_newcomer (by rw [hpc]; rfl) w))
    · exact .inr ⟨.inl rfl, rfl⟩
  early w hn := by
    obtain ⟨-, rfl⟩ := hn
    simp only [monitorAct, Function.update_self]
    trivial
  alive w hn _ hend := by
    obtain ⟨-, rfl⟩ := hn
    simp only [monitorAct, Function.update_self] at hend
    cases hend
  taken hj := by cases hj

theorem accounted_insert (hpc : s.monitor.pc = .insert) (h : Accounted s) :
    Accounted (monitorAct cfg s .insert) := by
  simp only [monitorAct]
  split
  next hsome =>
    obtain ⟨e, he⟩ := Option.isSome_iff_exists.1 hsome
    obtain ⟨hmem, hid⟩ := findThread_some he
    have hnew : ∀ v, Newcomer (s.monitorAt .joinNew) v ↔ Newcomer s v := fun v => by
      simp [Newcomer, Pool.monitorAt, hpc]
    exact ⟨fun v hv hfin => by rw [hnew]; exact h.booked v hv hfin, fun v hv => h.early v ((hnew v).1 hv),
      fun v hv => h.alive v ((hnew v).1 hv), fun _ hfresh => hfresh e hmem hid⟩
  next =>
    refine ⟨fun v hv hfin => .inl ?_, fun v hv => ?_, fun v hv => ?_, fun hj => by cases hj⟩
    · rcases h.booked v hv hfin with hentry | ⟨-, rfl⟩
      · exact List.mem_append_left _ hentry
      · exact List.mem_append_right _ (List.mem_singleton.2 rfl)
    all_goals
      rcases hv.1 with hv | hv
      all_goals cases hv

theorem accounted_monitor {b : MonitorAct} (hen : Enabled s (.monitor b)) (hb : Books s) (h : Accounted s) :
    Accounted (monitorAct cfg s b) := by
  obtain ⟨hpc, -, hr⟩ := hen
  cases b with
  | create id => exact accounted_create hpc h
  | insert => exact accounted_insert hpc h
  | joinNew =>
    -- a newcomer that is refused does not end
    have hpc : s.monitor.pc = .joinNew := hpc
    exact absurd hr (h.alive _ ⟨.inr hpc, rfl⟩ (h.taken hpc))
  | join =>
    have hpc : s.monitor.pc = .join := hpc
    obtain ⟨hmem, hiter⟩ := hb.pending.joining hpc
    have hlisted := hb.pending.iter (by rw [hpc]; rfl) _ hiter s.monitor.victim.2 hmem
    refine h.frame rfl rfl (by rw [hpc]; rfl) rfl fun w _ hfin hentry => ?_
    refine (List.mem_erase_of_ne fun heq => ?_).2 hentry
    have hvictim : w = s.monitor.victim.2 := congrArg Prod.snd heq
    cases hfin.symm.trans ((hb.ok w).finishCalls_of_retired (hvictim ▸ hlisted.1))
  | start | check | lock | wake | recheck | grow | find =>
    refine h.frame ?_ ?_ (by rw [hpc]; rfl) ?_ fun w _ _ hentry => ?_
    all_goals
      simp only [monitorAct, Pool.timeWait, Pool.HasEntry]
      split
    all_goals first | rfl | exact hentry | (rw [hpc]; rfl)
  | timeout | clear | finish =>
    exact h.frame rfl rfl (by rw [hpc]; rfl) rfl fun _ _ _ hentry => hentry

theorem accounted_step : PreservedUnder (step cfg) Spared Books
    fun s => s.isRequestShutDown = false → Accounted s := by
  intro s a t hb h hP hs hf
  have hf₀ := flag_mono hs hf
  obtain ⟨hen, rfl⟩ := step_eq_some.1 hs
  cases a with
  | worker w b => exact accounted_worker hen hb hf₀ hP (h hf₀)
  | caller c b => exact accounted_caller (h hf₀)
  | monitor b => exact accounted_monitor hen hb (h hf₀)
  | closer b => exact absurd hen (hb.locks.no_closer hf₀ b)

/-- While the monitor does not hold the guard, nobody is about to get an entry. -/
theorem Accounted.entry (h : Accounted s) (hb : Books s) (hg : s.guard ≠ some .monitor) {w : ℕ}
    (hw : w < s.workerNum) (hfin : (s.workers w).finishCalls = 0) : s.HasEntry w := by
  refine (h.booked w hw hfin).resolve_right fun hn => hg (hb.locks.monitor.2 ?_)
  rcases hn.1 with hn | hn <;> rw [hn] <;> rfl

/-! ## The exception -/

/-- The worker has ended without its finish action, and it has no entry and will get none. -/
structure Dropped (w : ℕ) (s : Pool) : Prop where
  there : w < s.workerNum
  ended : (s.workers w).pc = .ended
  unfinished : (s.workers w).finishCalls = 0
  entry : ∀ e ∈ s.threads, e.2 ≠ w
  taken : s.monitor.pc = .insert → s.monitor.newWorker = w → ¬ FreshId s (s.workers w).threadId

theorem Dropped.not_entry {w : ℕ} (h : Dropped w s) : ¬ s.HasEntry w := fun hmem => h.entry _ hmem rfl

theorem finishCalls_of_ended {a : Act} (hs : step cfg s a = some t) {w : ℕ} (hw : w < s.workerNum)
    (hend : (s.workers w).pc = .ended) : (t.workers w).finishCalls = (s.workers w).finishCalls := by
  have hm := worker_move hs w
  generalize t.workers w = wk at hm ⊢
  cases hm with
  | same | close => rfl
  | @act _ b hen => exact absurd (hend.symm.trans hen.2.1) (by cases b <;> simp [WorkerAct.at])
  | create => exact absurd hw (Nat.lt_irrefl _)

theorem dropped_monitor {w : ℕ} {b : MonitorAct} (hpc : s.monitor.pc = b.at) (h : Dropped w s) :
    (∀ e ∈ (monitorAct cfg s b).threads, e.2 ≠ w) ∧
      ((monitorAct cfg s b).monitor.pc = .insert → (monitorAct cfg s b).monitor.newWorker ≠ w) := by
  refine ⟨?_, fun hi => ?_⟩
  · by_cases hins : b = .insert
    · subst hins
      simp only [monitorAct]
      split
      · exact h.entry
      next hsome =>
        intro e he
        rcases List.mem_append.1 he with he | he
        · exact h.entry e he
        · obtain rfl := List.mem_singleton.1 he
          rintro rfl
          -- the id of the dropped worker is taken
          refine h.taken hpc rfl fun e he hid => hsome ?_
          exact List.find?_isSome.2 ⟨e, he, by simpa using hid⟩
    · by_cases hjoin : b = .join
      · subst hjoin
        exact fun e he => h.entry e (List.mem_of_mem_erase he)
      · rw [monitorAct_threads b hins hjoin]
        exact h.entry
  · obtain ⟨id, rfl⟩ := monitor_insert b hpc hi
    exact (Nat.ne_of_lt h.there).symm

theorem dropped_step (w : ℕ) : Preserved (step cfg) Free (Dropped w) := by
  intro s a t h _ hs
  have hid := worker_threadId hs h.there
  suffices hkept : (∀ e ∈ t.threads, e.2 ≠ w) ∧ (t.monitor.pc = .insert → t.monitor.newWorker = w →
      ¬ FreshId t (s.workers w).threadId) from
    ⟨Nat.lt_of_lt_of_le h.there (workerNum_le hs), ended_stays hs h.there h.ended,
      (finishCalls_of_ended hs h.there h.ended).trans h.unfinished, hkept.1, by rw [hid]; exact hkept.2⟩
  obtain ⟨hen, rfl⟩ := step_eq_some.1 hs
  cases a with
  | worker v b =>
    obtain ⟨n, hm⟩ := @workerNext_monitor cfg s v b
    simp only [next, FreshId, workerNext_threads, hm]
    exact ⟨h.entry, h.taken⟩
  | caller c b =>
    obtain ⟨n, hm⟩ := @callerNext_monitor cfg s c b
    simp only [next, FreshId, callerNext_threads, hm]
    exact ⟨h.entry, h.taken⟩
  | monitor b =>
    obtain ⟨hentry, hnew⟩ := dropped_monitor hen.1 h
    exact ⟨hentry, fun hi hw => absurd hw (hnew hi)⟩
  | closer b =>
    simp only [next, FreshId, closerAct_threads]
    refine ⟨h.entry, fun hi hw => h.taken ?_ ?_⟩
    · cases b <;> exact hi
    · cases b <;> exact hw

/-- An exception of the task of a worker whose id is taken. -/
theorem dropped_of_not_spared {a : Act} (hb : Books s) (ha : ¬ Spared s a) (hs : step cfg s a = some t) :
    ∃ w, Dropped w t := by
  have hthrow : ∃ w, a = .worker w .runThrow ∧ Newcomer s w ∧ ¬ FreshId s (s.workers w).threadId := by
    unfold Spared at ha
    split at ha
    next w => exact ⟨w, rfl, Classical.not_imp.1 ha⟩
    next => exact absurd trivial ha
  obtain ⟨w, rfl, hnew, htaken⟩ := hthrow
  obtain ⟨hlt, hend, hfin⟩ := throw_unreported hb.ok hs
  have hentry := (hb.entries.newcomer w hnew).2.2
  obtain ⟨-, rfl⟩ := step_eq_some.1 hs
  refine ⟨w, hlt, hend, hfin, ?_, fun _ _ hfresh => htaken ?_⟩
  · rw [next, workerNext_threads]
    exact hentry
  · simpa only [next, FreshId, workerNext_threads, workerNext_self, workerAct] using hfresh

/-! ## After an iteration -/

/-- What the books of the pool say; `l` is the listing of the run. -/
structure OnBooks (cfg : Config) (l : List ℕ) (s : Pool) : Prop where
  /-- outside an iteration, every worker that has not called its finish action has its own entry -/
  entry : s.guard ≠ some .monitor → ∀ w < s.workerNum, (s.workers w).finishCalls = 0 → s.HasEntry w
  size : s.threads.length ≤ cfg.maxThreadSize
  /-- the id that is visited next is found in the entry of the worker that has listed it -/
  finds : s.monitor.pc = .sub → ∀ id ∈ s.monitor.iter.head?, ∃ w ∈ l.head?,
    (s.workers w).threadId = id ∧ s.findThread id = some (id, w)
  /-- and this entry is erased, and no other -/
  erases : ∀ t, step cfg s (.monitor .join) = some t → ∃ w ∈ l.head?,
    ∀ e, e ∈ t.threads ↔ e ∈ s.threads ∧ e ≠ ((s.workers w).threadId, w)

theorem Listing.erases (h : Listing l s) (he : Entries s) (hs : step cfg s (.monitor .join) = some t) :
    ∃ w ∈ l.head?, ∀ e, e ∈ t.threads ↔ e ∈ s.threads ∧ e ≠ ((s.workers w).threadId, w) := by
  obtain ⟨⟨hpc, -⟩, rfl⟩ := step_eq_some.1 hs
  obtain ⟨w, rest, rfl, hv⟩ := h.joining hpc
  refine ⟨w, rfl, fun e => ?_⟩
  show e ∈ s.threads.erase s.monitor.victim ↔ _
  rw [hv, (List.Nodup.of_map _ he.keys).mem_erase_iff]
  exact And.comm

instance (s : Pool) : ∀ a, Decidable (Spared s a)
  | .worker _ .runThrow => inferInstanceAs (Decidable (_ → _))
  | .worker _ .start | .worker _ .check | .worker _ .pop | .worker _ .wake | .worker _ .timeout | .worker _ .judge
  | .worker _ (.asyncClose _) | .worker _ .recheck | .worker _ .dispatch | .worker _ .runReturn
  | .worker _ .finish | .worker _ .subPush | .worker _ .subNotify | .worker _ .count | .worker _ .compare
  | .worker _ .setShutDown | .worker _ .notifyAll | .worker _ .notifyFinished | .monitor _ | .caller _ _
  | .closer _ => isTrue trivial

/-- Before shutdown every worker that has not called its finish action is on the books after each iteration of the
    monitor, and the loop erases what has been listed, as long as no worker that has been started under a taken id
    is ended by an exception of its task; such a worker is on the books never again. -/
theorem workers_on_books (hcfg : cfg.corePoolSize ≤ cfg.maxThreadSize) (ids : LiveIds cfg.corePoolSize) :
    (∀ as l s, Run (recorded cfg) (fun p => Spared p.2) ([], initPool cfg ids) as (l, s) →
      s.isRequestShutDown = false → OnBooks cfg l s) ∧
    ∀ as s a t, Run (step cfg) Free (initPool cfg ids) as s → step cfg s a = some t → ¬ Spared s a →
      ∀ bs u, Run (step cfg) Free t bs u →
        ∃ w < u.workerNum, (u.workers w).finishCalls = 0 ∧ ¬ u.HasEntry w := by
  constructor
  · intro as l s hrun hf
    have hpool : Run (step cfg) Spared (initPool cfg ids) as s := hrun.forget fun _ _ _ h => h
    have hbooks := run_books ids hpool.free
    have hacc := hpool.invariant_under (books_preserved.imp fun _ _ _ => trivial) accounted_step (.init ids)
      (fun _ => .init ids) hf
    have hlist := hrun.free.invariant_under (books_preserved.record fun _ _ _ _ => trivial) listing_step (.init ids)
      (fun _ => .init ids) hf
    refine ⟨fun hg w hw hfin => hacc.entry hbooks hg hw hfin,
      (hpool.free.invariant bounded_step (.init hcfg ids)).size, fun hpc id hid => ?_,
      fun t hs => hlist.erases hbooks.entries hs⟩
    obtain ⟨w, rest, rfl, hw⟩ := hlist.find hbooks.entries hpc hid
    exact ⟨w, rfl, hw⟩
  · intro as s a t hrun hs ha bs u hrest
    obtain ⟨w, hdrop⟩ := dropped_of_not_spared (run_books ids hrun) ha hs
    have hu := hrest.invariant (dropped_step w) hdrop
    exact ⟨w, hu.there, hu.unfinished, hu.not_entry⟩

/-- The worker 0 has retired and ends, and the monitor removes it. -/
def removeFirst : List Act :=
  [.worker 0 .subNotify, .worker 0 .notifyFinished, .monitor .lock, .monitor .recheck, .monitor .grow,
    .monitor .find, .monitor .join, .monitor .clear]

theorem workers_on_books_two : ∃ l s, Run (recorded ⟨2, 3⟩) (fun p => Spared p.2)
      ([], initPool ⟨2, 3⟩ (.first 2)) (bothWait ++ addTaskCalls 0 1025 ++ (grow ++ retireFirst ++ removeFirst)) (l, s) ∧
      s.guard = none ∧ s.threads = [(2, 1), (3, 2)] ∧ OnBooks ⟨2, 3⟩ l s := by
  obtain ⟨s, hrun, hf, hg, hth⟩ : ∃ s, Run (step ⟨2, 3⟩) Spared (initPool ⟨2, 3⟩ (.first 2))
      (bothWait ++ addTaskCalls 0 1025 ++ (grow ++ retireFirst ++ removeFirst)) s ∧
      s.isRequestShutDown = false ∧ s.guard = none ∧ s.threads = [(2, 1), (3, 2)] :=
    exists_runWith (fun _ _ _ => trivial) (by decide +kernel) fun _ _ h => h
  obtain ⟨l, hrec⟩ := hrun.record (f := listing) []
  exact ⟨l, s, hrec, hg, hth, (@workers_on_books ⟨2, 3⟩ (by decide) (.first 2)).1 _ l s hrec hf⟩

/-- The monitor starts the worker 1 under the id 1, it is refused, and its task throws. -/
def refuseSecond : List Act :=
  [.monitor .lock, .monitor .recheck, .monitor .grow, .monitor (.create 1), .monitor .insert, .worker 1 .start,
    .worker 1 .check, .worker 1 .pop, .worker 1 .dispatch, .worker 1 .runThrow, .monitor .joinNew, .monitor .clear]

/-- The worker 0 is ended by an exception and keeps its entry, and the iteration that has started the worker 1
    goes on without it. -/
theorem worker_off_books : ¬ ∀ cfg, ∀ ids : LiveIds cfg.corePoolSize, cfg.corePoolSize ≤ cfg.maxThreadSize →
    ∀ as l s, Run (recorded cfg) Free ([], initPool cfg ids) as (l, s) → s.isRequestShutDown = false →
      OnBooks cfg l s := by
  intro hall
  obtain ⟨s, hrun, hf, hg, hw, hfin, hno⟩ : ∃ s, Run (step ⟨1, 2⟩) Free (initPool ⟨1, 2⟩ (.first 1))
      ((takeTask ++ [.worker 0 .runThrow, .monitor .start, .monitor .check]) ++ addTaskCalls 0 1025 ++ refuseSecond) s ∧
      s.isRequestShutDown = false ∧ s.guard = none ∧ 1 < s.workerNum ∧ (s.workers 1).finishCalls = 0 ∧
      ¬ s.HasEntry 1 :=
    exists_runWith (fun _ _ _ => trivial) (by decide +kernel) fun _ _ h => h
  obtain ⟨l, hrec⟩ := hrun.record (f := listing) []
  exact hno ((hall ⟨1, 2⟩ (.first 1) (by decide) _ l s hrec hf).entry (by rw [hg]; exact nofun) 1 hw hfin)

end Empool
