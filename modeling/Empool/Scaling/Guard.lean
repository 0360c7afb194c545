/-
  `m_addOrSubThreadNumGuard` gets free again and again.

  The monitor holds the guard for an iteration, the closing sequence for its
  pass over the workers.  Both release it if they are scheduled, unless the
  monitor joins a worker that has still to lock the guard (see `JoinBlocked`);
  so it must not find such a worker (`JoinsSignalled`).

  * `Guarded`: what is kept then;
  * `Pool.holdRank`, `Pool.closeRank`: the statements left until the release;
  * `leadsTo_guard_free`.
-/
import Empool.Scaling.Reach
import Empool.Scaling.Deadlock
import Empool.Lib.Fair

namespace Empool

open Lts

variable {cfg : Config} {s t : Pool} {a : Act}

/-! ## Who has to be scheduled -/

/-- The next statement of the monitor; a wake-up, which may be spurious, does not count. -/
def MonitorActs : Pool → Act → Prop
  | _, .monitor b => b ≠ .wake
  | _, _ => False

/-- The next statement of the worker `w`, without a wake-up. -/
def WorkerActs (w : ℕ) : Pool → Act → Prop
  | _, .worker v b => v = w ∧ b ≠ .wake
  | _, _ => False

/-- The next statement of the closing sequence. -/
def CloserActs : Pool → Act → Prop
  | _, .closer _ => True
  | _, _ => False

/-! ## The worker that is joined -/

/-- The monitor joins only a worker that has signalled it already, and the id of a worker it starts is not the
    id of an entry. -/
def JoinsSignalled (s : Pool) : Act → Prop
  | .monitor (.create id) => FreshId s id
  | .monitor .find => ∀ e ∈ s.monitor.iter.head?.bind s.findThread, (s.workers e.2).pc ≠ .subNotify
  | _ => True

instance (s : Pool) : (a : Act) → Decidable (JoinsSignalled s a)
  | .monitor (.create _) => inferInstanceAs (Decidable (FreshId ..))
  | .monitor .find => inferInstanceAs (Decidable (∀ e ∈ _, _))
  | .monitor .start | .monitor .check | .monitor .lock | .monitor .wake | .monitor .timeout | .monitor .recheck
  | .monitor .grow | .monitor .insert | .monitor .joinNew | .monitor .join | .monitor .clear | .monitor .finish
  | .worker _ _ | .caller _ _ | .closer _ => inferInstanceAs (Decidable True)

/-- The worker has locked the guard for the last time. -/
def Worker.Signalled (wk : Worker) : Prop := wk.pc = .notifyFinished ∨ wk.pc = .ended

theorem signalled_stays (hs : step cfg s a = some t) {v : ℕ} (hv : v < s.workerNum) (h : (s.workers v).Signalled) :
    (t.workers v).Signalled := by
  have hm := worker_move hs v
  generalize t.workers v = wk at hm ⊢
  cases hm with
  | same | close => exact h
  | @act _ b hen =>
    have hpc := hen.2.1
    rcases h with h | h
    · rw [h] at hpc
      cases b <;> cases hpc
      exact .inr rfl
    · rw [h] at hpc
      cases b <;> cases hpc
  | create => exact absurd hv (Nat.lt_irrefl _)

/-- A worker whose id is listed has signalled the monitor, or is about to. -/
theorem Worker.Listed.signalled {wk : Worker} (hok : wk.Ok) (h : wk.Listed) (hne : wk.pc ≠ .subNotify) :
    wk.Signalled := by
  obtain ⟨hr, hpush⟩ := h
  unfold Worker.Ok at hok
  unfold Worker.Signalled
  cases hpc : wk.pc <;> simp_all

/-- The books are kept, and the monitor joins no worker that has still to lock the guard. -/
structure Guarded (s : Pool) : Prop where
  books : Books s
  accepts : Accepts s
  joining : s.monitor.pc = .join → (s.workers s.monitor.victim.2).Signalled

theorem Guarded.init (ids : LiveIds cfg.corePoolSize) : Guarded (initPool cfg ids) :=
  ⟨.init ids, .init ids, nofun⟩

/-- The monitor comes to `join` by finding an entry. -/
theorem monitor_join {b : MonitorAct} (hpc : s.monitor.pc = b.at) (h : (monitorAct cfg s b).monitor.pc = .join) :
    b = .find ∧ s.monitor.iter.head?.bind s.findThread = some (monitorAct cfg s b).monitor.victim := by
  cases b with
  | find =>
    refine ⟨rfl, ?_⟩
    revert h
    simp only [monitorAct]
    split
    · rename_i hfind
      exact fun _ => hfind
    · rw [hpc]
      intro h
      cases h
  | start | check | recheck | grow | insert =>
    simp only [monitorAct] at h
    split at h <;> cases h
  | lock | wake =>
    simp only [monitorAct, Pool.timeWait] at h
    split at h <;> cases h
  | _ => cases h

theorem guarded_preserved : Preserved (step cfg) JoinsSignalled Guarded := by
  intro s a t h hP hs
  refine ⟨books_preserved s a t h.books trivial hs, accepts_step h.books h.accepts ?_ hs, fun hj => ?_⟩
  · rintro id rfl
    exact hP
  by_cases ha : ∃ b, a = .monitor b
  · obtain ⟨b, rfl⟩ := ha
    have hs' := hs
    obtain ⟨hen, rfl⟩ := step_eq_some.1 hs
    obtain ⟨rfl, hfind⟩ := monitor_join hen.1 hj
    obtain ⟨id, hid, hfound⟩ := Option.bind_eq_some_iff.1 hfind
    obtain ⟨he, rfl⟩ := findThread_some hfound
    have hlisted := h.books.pending.iter (by rw [hen.1]; rfl) _ (List.mem_of_mem_head? hid) _ he
    exact signalled_stays hs' (h.books.entries.entry _ he).2.1 (hlisted.signalled (h.books.ok _) (hP _ hfind))
  · obtain ⟨n, r, hm⟩ := monitor_other hs fun b hb => ha ⟨b, hb⟩
    rw [hm] at hj ⊢
    have hlt := (h.books.entries.entry _ (h.books.pending.joining hj).1).2.1
    exact signalled_stays hs hlt (h.joining hj)

/-! ## The monitor releases the guard -/

/-- The statements of the monitor until it releases the guard. -/
def Pool.holdRank (s : Pool) : ℕ :=
  match s.monitor.pc with
  | .recheck => 2 * s.subWorkerThreadId.length + 5
  | .grow => 2 * s.subWorkerThreadId.length + 4
  | .create => 2 * s.subWorkerThreadId.length + 3
  | .insert => 2 * s.subWorkerThreadId.length + 2
  | .sub => 2 * s.monitor.iter.length + 1
  | .join => 2 * s.monitor.iter.length
  | _ => 0

theorem monitor_release {b : MonitorAct} (h : Guarded s) (hg : s.guard = some .monitor)
    (hen : Enabled s (.monitor b)) : (monitorAct cfg s b).guard = none ∨
      (monitorAct cfg s b).guard = some .monitor ∧ (monitorAct cfg s b).holdRank < s.holdRank := by
  obtain ⟨hpc, hlocks, hr⟩ := hen
  have hholds := h.books.locks.monitor.1 hg
  rw [hpc] at hholds
  unfold Pool.holdRank
  rw [hpc]
  cases b with
  | start | check | finish => cases hholds
  | lock | wake | timeout => exact absurd (hg.symm.trans (hlocks rfl)) (Option.some_ne_none _)
  | recheck =>
    simp only [monitorAct]
    split
    · exact .inl rfl
    · exact .inr ⟨hg, Nat.lt_succ_self _⟩
  | grow =>
    simp only [monitorAct]
    split
    · exact .inr ⟨hg, Nat.lt_succ_self _⟩
    · exact .inr ⟨hg, by simp only [Pool.monitorSub, MonitorAct.at]; omega⟩
  | create id => exact .inr ⟨hg, Nat.lt_succ_self _⟩
  | insert =>
    simp only [monitorAct]
    split
    · rename_i hsome
      -- the id of the new worker is taken
      obtain ⟨e, he⟩ := Option.isSome_iff_exists.1 hsome
      obtain ⟨hmem, hid⟩ := findThread_some he
      exact absurd hid (h.accepts.fresh hpc e hmem)
    · exact .inr ⟨hg, Nat.lt_succ_self _⟩
  | joinNew => exact absurd hpc h.accepts.accepted
  | find =>
    simp only [monitorAct]
    split
    · exact .inr ⟨hg, Nat.lt_succ_self _⟩
    · refine .inr ⟨hg, ?_⟩
      have hlen := List.length_pos_of_ne_nil hr
      simp only [hpc, MonitorAct.at, List.length_tail]
      omega
  | join =>
    refine .inr ⟨hg, ?_⟩
    have hlen := List.length_pos_of_mem (h.books.pending.joining hpc).2
    simp only [monitorAct, MonitorAct.at, List.length_tail]
    omega
  | clear => exact .inl rfl

/-- While the monitor holds the guard, the other threads leave what it does. -/
theorem holds_other (hl : Locks s) (hg : s.guard = some .monitor) (hs : step cfg s a = some t)
    (ha : ∀ b, a ≠ .monitor b) : t.guard = some .monitor ∧ t.holdRank = s.holdRank := by
  have hm := monitor_other hs ha
  have hsame : t.guard = some .monitor ∧ t.subWorkerThreadId = s.subWorkerThreadId := by
    obtain ⟨hen, rfl⟩ := step_eq_some.1 hs
    cases a with
    | worker w b =>
      refine ⟨(workerNext_guard w b).trans hg, workerNext_sub w b ?_⟩
      rintro rfl
      rw [hen.2.2 rfl] at hg
      cases hg
    | caller c b => exact ⟨(callerNext_guard c b).trans hg, callerNext_sub c b⟩
    | monitor b => exact absurd rfl (ha b)
    | closer b =>
      obtain ⟨hpc, hlocks, -⟩ := hen
      have hnot : s.closer.pc.holds = false := by
        by_contra hh
        have hcl := hl.closer.2 (by simpa using hh)
        rw [hg] at hcl
        cases hcl
      rw [hpc] at hnot
      cases b with
      | setStop | closeMonitor => exact ⟨hg, rfl⟩
      | lock | subPush | notify => exact absurd (hg.symm.trans (hlocks rfl)) (Option.some_ne_none _)
      | asyncClose | threadNum | pushEnd | unlock => cases hnot
  obtain ⟨n, r, hm⟩ := hm
  exact ⟨hsame.1, by simp only [Pool.holdRank, hm, hsame.2]⟩

theorem exists_bound (f : ℕ → ℕ) (n : ℕ) : ∃ k, ∀ w < n, f w ≤ k := by
  induction n with
  | zero => exact ⟨0, fun w hw => absurd hw (Nat.not_lt_zero w)⟩
  | succ n ih =>
    obtain ⟨k, hk⟩ := ih
    refine ⟨max k (f n), fun w hw => ?_⟩
    rcases Nat.lt_succ_iff_lt_or_eq.1 hw with hw | rfl
    · exact Nat.le_trans (hk w hw) (Nat.le_max_left _ _)
    · exact Nat.le_max_right _ _

theorem can_step {own : Pool → Act → Prop} (hown : own s a) (hen : Enabled s a) : Can (step cfg) own s :=
  ⟨a, _, hown, step_eq_some.2 ⟨hen, rfl⟩⟩

/-- The monitor can go on, unless it waits for the end of the worker that it joins. -/
theorem can_monitor (h : Guarded s) (hg : s.guard = some .monitor) : Can (step cfg) MonitorActs s ∨
    s.monitor.pc = .join ∧ (s.workers s.monitor.victim.2).pc = .notifyFinished := by
  have hholds := h.books.locks.monitor.1 hg
  have hown : ∀ {b : MonitorAct}, b ≠ .wake → b.locks = false → s.monitor.pc = b.at → b.ready s →
      Can (step cfg) MonitorActs s := by
    intro b hb hlocks hpc hr
    refine can_step (a := .monitor b) hb ⟨hpc, fun hl => ?_, hr⟩
    rw [hlocks] at hl
    cases hl
  cases hpc : s.monitor.pc with
  | recheck => exact .inl (hown (b := .recheck) nofun rfl hpc trivial)
  | grow => exact .inl (hown (b := .grow) nofun rfl hpc trivial)
  | insert => exact .inl (hown (b := .insert) nofun rfl hpc trivial)
  | create =>
    obtain ⟨k, hk⟩ := exists_bound (fun w => (s.workers w).threadId) s.workerNum
    refine .inl (hown (b := .create (k + 1)) nofun rfl hpc ⟨Nat.succ_ne_zero k, fun w hw _ => ?_⟩)
    exact Nat.ne_of_lt (Nat.lt_succ_of_le (hk w hw))
  | joinNew => exact absurd hpc h.accepts.accepted
  | sub =>
    by_cases hiter : s.monitor.iter = []
    · exact .inl (hown (b := .clear) nofun rfl hpc hiter)
    · exact .inl (hown (b := .find) nofun rfl hpc hiter)
  | join =>
    rcases h.joining hpc with hv | hv
    · exact .inr ⟨rfl, hv⟩
    · exact .inl (hown (b := .join) nofun rfl hpc hv)
  | start | check | lock | wait | finish | ended => rw [hpc] at hholds; cases hholds

/-! ## The closing sequence releases the guard -/

/-- The statements of the closing pass until it releases the guard. -/
def Pool.closeRank (s : Pool) : ℕ :=
  match s.closer.pc with
  | .asyncClose => s.closer.rest.length + s.threads.length + 2
  | .pushEnd => s.closer.endTasks + 1
  | _ => 0

theorem closer_release {b : CloserAct} (hholds : s.closer.pc.holds = true) (hen : Enabled s (.closer b)) :
    ((closerAct cfg s b).closer.pc = .closeMonitor ∧ (closerAct cfg s b).guard = none) ∨
      (closerAct cfg s b).closer.pc.holds = true ∧ (closerAct cfg s b).closeRank < s.closeRank := by
  obtain ⟨hpc, -, hr⟩ := hen
  rw [hpc] at hholds
  unfold Pool.closeRank
  rw [hpc]
  cases b with
  | setStop | lock | closeMonitor | subPush | notify => cases hholds
  | asyncClose w spurious =>
    refine .inr ⟨by simp only [closerAct, hpc]; rfl, ?_⟩
    have hlen := List.length_pos_of_mem hr
    simp only [closerAct, hpc, CloserAct.at, List.length_erase_of_mem hr]
    omega
  | threadNum =>
    refine .inr ⟨rfl, ?_⟩
    simp only [closerAct, CloserAct.at]
    omega
  | pushEnd =>
    refine .inr ⟨by simp only [closerAct, hpc]; rfl, ?_⟩
    have hne : s.closer.endTasks ≠ 0 := hr
    simp only [closerAct, hpc, CloserAct.at]
    omega
  | unlock => exact .inl ⟨rfl, rfl⟩

/-- The other threads leave the closing sequence once it has begun. -/
theorem closer_other (hl : Locks s) (hidle : s.closer.pc ≠ .idle) (hs : step cfg s a = some t)
    (ha : ∀ b, a ≠ .closer b) : t.closer = s.closer := by
  obtain ⟨-, rfl⟩ := step_eq_some.1 hs
  cases a with
  | worker w b => exact workerNext_closer w b
  | monitor b => exact monitorAct_closer b
  | caller c b =>
    by_cases hw : b.Wins s
    · exact absurd (hl.flag.1 (@callerNext_wins cfg s c b hw).1) hidle
    · exact (callerNext_closing c b hw).2
  | closer b => exact absurd rfl (ha b)

/-- While the closing sequence holds the guard, no other thread changes `m_threads`. -/
theorem threads_other (hl : Locks s) (hholds : s.closer.pc.holds = true) (hs : step cfg s a = some t) :
    t.threads = s.threads := by
  obtain ⟨hen, rfl⟩ := step_eq_some.1 hs
  cases a with
  | worker w b => exact workerNext_threads w b
  | caller c b => exact callerNext_threads c b
  | closer b => exact closerAct_threads b
  | monitor b =>
    have hnot : b.at.holds = false := by
      by_contra hh
      have hm := hl.monitor.2 (by rw [hen.1]; simpa using hh)
      rw [hl.closer.2 hholds] at hm
      cases hm
    refine monitorAct_threads b ?_ ?_ <;> rintro rfl <;> cases hnot

theorem can_closer (hholds : s.closer.pc.holds = true) : Can (step cfg) CloserActs s := by
  have hown : ∀ {b : CloserAct}, b.locks = false → s.closer.pc = b.at → b.ready s →
      Can (step cfg) CloserActs s := by
    intro b hlocks hpc hr
    refine can_step (a := .closer b) trivial ⟨hpc, fun hl => ?_, hr⟩
    rw [hlocks] at hl
    cases hl
  cases hpc : s.closer.pc with
  | asyncClose =>
    cases hrest : s.closer.rest with
    | nil => exact hown (b := .threadNum) rfl hpc hrest
    | cons w l =>
      refine hown (b := .asyncClose w false) rfl hpc ?_
      show w ∈ s.closer.rest
      rw [hrest]
      exact List.mem_cons_self ..
  | pushEnd =>
    by_cases hend : s.closer.endTasks = 0
    · exact hown (b := .unlock) rfl hpc hend
    · exact hown (b := .pushEnd) rfl hpc hend
  | _ => rw [hpc] at hholds; cases hholds

/-! ## The guard gets free -/

section
variable {P : Pool → Act → Prop} {p : Path (step cfg) P} (hV : ∀ n, Guarded (p.state n))
include hV

/-- The worker that the monitor joins ends. -/
theorem leadsTo_join {w : ℕ} (hworker : p.StronglyFair (WorkerActs w)) : p.LeadsTo
    (fun s => s.monitor.pc = .join ∧ s.monitor.victim.2 = w ∧ (s.workers w).pc = .notifyFinished)
    (Can (step cfg) MonitorActs) := by
  refine hworker.fair.leadsTo hV (fun _ => 0) (fun s a t h hI _ hs => ?_) fun s h hI => .inr ?_
  · obtain ⟨hpc, rfl, hv⟩ := hI
    have hlt := (h.books.entries.entry _ (h.books.pending.joining hpc).1).2.1
    have hnot : ∀ b, a ≠ .monitor b := by
      rintro b rfl
      obtain ⟨hat, -, hr⟩ := (step_eq_some.1 hs).1
      rw [hpc] at hat
      cases b <;> cases hat
      exact absurd (hv.symm.trans hr) nofun
    obtain ⟨n, r, hm⟩ := monitor_other hs hnot
    have hjoin : t.monitor.pc = .join ∧ t.monitor.victim = s.monitor.victim := by
      rw [hm]
      exact ⟨hpc, rfl⟩
    by_cases ha : ∃ b, a = .worker s.monitor.victim.2 b
    · obtain ⟨b, rfl⟩ := ha
      obtain ⟨hen, rfl⟩ := step_eq_some.1 hs
      have hat := hen.2.1
      rw [hv] at hat
      cases b <;> cases hat
      left
      refine can_step (a := .monitor .join) nofun ⟨hjoin.1, nofun, ?_⟩
      show ((workerNext ..).workers _).pc = .ended
      rw [hjoin.2, workerNext_self]
      rfl
    · obtain ⟨r', hr'⟩ := worker_other hs hlt fun b hb => ha ⟨b, hb⟩
      refine .inr ⟨⟨hjoin.1, by rw [hjoin.2], by rw [hr']; exact hv⟩, Nat.le_refl 0, fun hown => ?_⟩
      cases a with
      | worker v b => exact absurd ⟨b, by rw [hown.1]⟩ ha
      | _ => cases hown
  · obtain ⟨hpc, rfl, hv⟩ := hI
    have hlt := (h.books.entries.entry _ (h.books.pending.joining hpc).1).2.1
    exact can_step (a := .worker _ .notifyFinished) ⟨rfl, nofun⟩ ⟨hlt, hv, nofun⟩

theorem leadsTo_monitor_releases (hworkers : ∀ w, p.StronglyFair (WorkerActs w))
    (hmonitor : p.StronglyFair MonitorActs) :
    p.LeadsTo (fun s => s.guard = some .monitor) fun s => s.guard = none := by
  refine hmonitor.leadsTo_rank hV Pool.holdRank (fun s a t h hg _ hs => ?_) fun n hn => ?_
  · by_cases ha : ∃ b, a = .monitor b
    · obtain ⟨b, rfl⟩ := ha
      obtain ⟨hen, rfl⟩ := step_eq_some.1 hs
      exact (monitor_release h hg hen).imp id fun ⟨hg', hlt⟩ => ⟨hg', Nat.le_of_lt hlt, fun _ => hlt⟩
    · obtain ⟨hg', hrank⟩ := holds_other h.books.locks hg hs fun b hb => ha ⟨b, hb⟩
      refine .inr ⟨hg', Nat.le_of_eq hrank, fun hown => ?_⟩
      cases a with
      | monitor b => exact absurd ⟨b, rfl⟩ ha
      | _ => cases hown
  · rcases @can_monitor cfg _ (hV n) hn with hcan | ⟨hpc, hv⟩
    · exact ⟨n, Nat.le_refl n, .inr hcan⟩
    · obtain ⟨m, hnm, hm⟩ := leadsTo_join hV (hworkers _) n ⟨hpc, rfl, hv⟩
      exact ⟨m, hnm, .inr hm⟩

theorem leadsTo_closer_releases (hcloser : p.StronglyFair CloserActs) :
    p.LeadsTo (fun s => s.closer.pc.holds = true) fun s => s.closer.pc = .closeMonitor ∧ s.guard = none := by
  refine hcloser.fair.leadsTo hV Pool.closeRank (fun s a t h hI _ hs => ?_) fun s _ hI => .inr (can_closer hI)
  by_cases ha : ∃ b, a = .closer b
  · obtain ⟨b, rfl⟩ := ha
    obtain ⟨hen, rfl⟩ := step_eq_some.1 hs
    exact (closer_release hI hen).imp id fun ⟨hh, hlt⟩ => ⟨hh, Nat.le_of_lt hlt, fun _ => hlt⟩
  · have hidle : s.closer.pc ≠ .idle := by
      intro hidle
      rw [hidle] at hI
      cases hI
    have hc := closer_other h.books.locks hidle hs fun b hb => ha ⟨b, hb⟩
    refine .inr ⟨by rw [hc]; exact hI, ?_, fun hown => ?_⟩
    · simp only [Pool.closeRank, hc, threads_other h.books.locks hI hs]
      exact Nat.le_refl _
    · cases a with
      | closer b => exact absurd ⟨b, rfl⟩ ha
      | _ => cases hown

/-- **The guard gets free** again and again. -/
theorem leadsTo_guard_free (hworkers : ∀ w, p.StronglyFair (WorkerActs w)) (hmonitor : p.StronglyFair MonitorActs)
    (hcloser : p.StronglyFair CloserActs) : p.LeadsTo (fun _ => True) fun s => s.guard = none := by
  intro n _
  cases hg : (p.state n).guard with
  | none => exact ⟨n, Nat.le_refl n, hg⟩
  | some o =>
    cases o with
    | monitor => exact leadsTo_monitor_releases hV hworkers hmonitor n hg
    | closer =>
      obtain ⟨m, hnm, -, hm⟩ := leadsTo_closer_releases hV hcloser n ((hV n).books.locks.closer.1 hg)
      exact ⟨m, hnm, hm⟩

end

end Empool
