/-
  How many workers live at the same time.

  A worker that has not ended has its entry in `m_threads`, or it is the one
  that the monitor is about to insert or to join (`Entries.booked`).  The
  monitor starts that one only while `m_threads` has room for it, and gives the
  guard back after it; so never more workers live than the two sizes of the pool
  allow (`live_le_size`), and no more tasks run at the same time.
-/
import Empool.Scaling.Backlog
import Empool.Lib.Count

namespace Empool

open Lts

variable {cfg : Config} {s t : Pool}

/-- The workers whose threads have not ended. -/
def Pool.alive (s : Pool) : List ℕ := (List.range s.workerNum).filter fun w => (s.workers w).pc ≠ .ended

/-- The workers that are inside `Run` of a task. -/
def Pool.busy (s : Pool) : List ℕ := (List.range s.workerNum).filter fun w => (s.workers w).pc = .running

/-- The larger of the two sizes: the constructor starts `m_corePoolSize` workers, whatever `m_maxThreadSize` is. -/
def Config.size (cfg : Config) : ℕ := max cfg.corePoolSize cfg.maxThreadSize

/-- The monitor has a worker in hand that is not in `m_threads`, or is about to start one. -/
def MonitorPc.extra : MonitorPc → Prop
  | .create | .insert | .joinNew => True
  | _ => False

structure Capped (cfg : Config) (s : Pool) : Prop where
  size : s.threads.length ≤ cfg.size
  room : s.monitor.pc.extra → s.threads.length < cfg.size

theorem Capped.init (ids : LiveIds cfg.corePoolSize) : Capped cfg (initPool cfg ids) where
  size := by simp [initPool, Config.size]
  room := False.elim

theorem Capped.frame (h : Capped cfg s) (hth : t.threads.length ≤ s.threads.length)
    (hpc : t.monitor.pc.extra → s.monitor.pc.extra) : Capped cfg t where
  size := Nat.le_trans hth h.size
  room ht := Nat.lt_of_le_of_lt hth (h.room (hpc ht))

theorem capped_monitor {b : MonitorAct} (hpc : s.monitor.pc = b.at) (h : Capped cfg s) :
    Capped cfg (monitorAct cfg s b) := by
  have hroom := h.room
  rw [hpc] at hroom
  cases b with
  | grow =>
    simp only [monitorAct]
    split
    next hlt => exact ⟨h.size, fun _ => Nat.lt_of_lt_of_le hlt.2 (Nat.le_max_right _ _)⟩
    next => exact h.frame (Nat.le_refl _) False.elim
  | create id => exact ⟨h.size, fun _ => hroom trivial⟩
  | insert =>
    simp only [monitorAct]
    split
    · exact ⟨h.size, fun _ => hroom trivial⟩
    · refine ⟨?_, False.elim⟩
      show (s.threads ++ [_]).length ≤ _
      rw [List.length_append, List.length_singleton]
      exact hroom trivial
  | join => exact h.frame List.length_erase_le False.elim
  | start | check | recheck =>
    simp only [monitorAct]
    split <;> exact h.frame (Nat.le_refl _) False.elim
  | lock | wake =>
    simp only [monitorAct, Pool.timeWait]
    split <;> exact h.frame (Nat.le_refl _) False.elim
  | find =>
    simp only [monitorAct]
    split
    · exact h.frame (Nat.le_refl _) False.elim
    · exact h.frame (Nat.le_refl _) id
  | timeout | joinNew | clear | finish => exact h.frame (Nat.le_refl _) False.elim

theorem capped_preserved : Preserved (step cfg) Free (Capped cfg) := by
  intro s a t h _ hs
  obtain ⟨hen, rfl⟩ := step_eq_some.1 hs
  cases a with
  | worker w b =>
    obtain ⟨n, hm⟩ := @workerNext_monitor cfg s w b
    refine h.frame (Nat.le_of_eq (by rw [next, workerNext_threads])) fun ht => ?_
    rwa [next, hm] at ht
  | caller c b =>
    obtain ⟨n, hm⟩ := @callerNext_monitor cfg s c b
    refine h.frame (Nat.le_of_eq (by rw [next, callerNext_threads])) fun ht => ?_
    rwa [next, hm] at ht
  | monitor b => exact capped_monitor hen.1 h
  | closer b =>
    refine h.frame (Nat.le_of_eq (by rw [next, closerAct_threads])) fun ht => ?_
    cases b <;> exact ht

theorem Pool.nodup_alive (s : Pool) : s.alive.Nodup := List.nodup_range.filter _

/-- A worker that has not ended has its entry, or the monitor has it in hand. -/
theorem mem_alive (h : Entries s) {w : ℕ} (hw : w ∈ s.alive) : w ∈ s.members ∨ Newcomer s w := by
  obtain ⟨hlt, hpc⟩ := List.mem_filter.1 hw
  rcases h.booked w (List.mem_range.1 hlt) with hend | hnew | hmem
  · simp [hend] at hpc
  · exact .inr hnew
  · exact .inl (List.mem_map.2 ⟨_, hmem, rfl⟩)

theorem alive_le (h : Entries s) (hc : Capped cfg s) : s.alive.length ≤ cfg.size := by
  have hlen : s.members.length = s.threads.length := List.length_map ..
  by_cases hex : s.monitor.pc.extra
  · -- one more than the entries
    have hsub : s.alive ⊆ s.monitor.newWorker :: s.members := by
      intro w hw
      rcases mem_alive h hw with hmem | ⟨-, rfl⟩
      · exact List.mem_cons_of_mem _ hmem
      · exact List.mem_cons_self ..
    calc s.alive.length ≤ (s.monitor.newWorker :: s.members).length := s.nodup_alive.length_le_of_subset hsub
      _ = s.threads.length + 1 := by rw [List.length_cons, hlen]
      _ ≤ cfg.size := hc.room hex
  · have hsub : s.alive ⊆ s.members := by
      intro w hw
      refine (mem_alive h hw).resolve_right ?_
      rintro ⟨hpc, -⟩
      rcases hpc with hpc | hpc <;> rw [hpc] at hex <;> exact hex trivial
    calc s.alive.length ≤ s.members.length := s.nodup_alive.length_le_of_subset hsub
      _ = s.threads.length := hlen
      _ ≤ cfg.size := hc.size

/-- **The size is kept**: in every state of every run the threads of no more workers live than the larger of the
    two sizes of the pool, and no more tasks run at the same time. -/
theorem live_le_size (ids : LiveIds cfg.corePoolSize) {as : List Act}
    (h : Run (step cfg) Free (initPool cfg ids) as s) :
    s.busy.length ≤ s.alive.length ∧ s.alive.length ≤ cfg.size ∧ s.threads.length ≤ cfg.size := by
  have hc := h.invariant capped_preserved (.init ids)
  refine ⟨?_, alive_le (run_books ids h).entries hc, hc.size⟩
  refine List.Sublist.length_le (List.monotone_filter_right _ fun w hw => ?_)
  simp only [decide_eq_true_eq] at hw ⊢
  rw [hw]
  exact nofun

/-- The pool has grown to its size, and the new worker runs a task. -/
theorem live_le_size_grown : ∃ s, Run (step ⟨2, 3⟩) Free (initPool ⟨2, 3⟩ (.first 2))
    (bothWait ++ addTaskCalls 0 1025 ++
      (grow ++ [.worker 2 .start, .worker 2 .check, .worker 2 .pop, .worker 2 .dispatch])) s ∧
    s.busy = [2] ∧ s.alive = [0, 1, 2] ∧ s.alive.length ≤ 3 := by
  refine exists_runWith (I := fun s => s.busy = [2] ∧ s.alive = [0, 1, 2]) (fun _ _ _ => trivial)
    (by decide +kernel) fun s hrun ⟨hbusy, halive⟩ => ⟨hbusy, halive, ?_⟩
  exact (@live_le_size ⟨2, 3⟩ s (.first 2) _ hrun).2.1

end Empool
