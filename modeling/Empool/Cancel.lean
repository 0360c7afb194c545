/-
  `Cancel` against the end of the pools.

  A caller of `Cancel` waits until a thread of the pool has run the task.  In a
  `TimerTaskHandler` and in a `ScalingThreadPool` the threads leave their loops
  by the close flag or by an end task, and the tasks that are still in the queue
  stay there: a caller may wait for one of them when all threads have ended
  (`waits_for_nobody`).  In the runs in which no accepted task is left behind so,
  and no task throws, it does not happen (`never_waits_for_nobody`).
-/
import Empool.Scaling.Cancel
import Empool.Timer.Wait

namespace Empool

open Lts

/-- When all threads of the pool have ended, the tasks accepted before shutdown have been stopped, and
    no caller is blocked in `Cancel` of one of them. -/
theorem never_waits_for_nobody (as : List ScheduledThreadPool.Act) (s : ScheduledThreadPool) (cfg : Config)
    (ids : LiveIds cfg.corePoolSize) (bs : List TaskPool.Act) (p : TaskPool) :
    (Run (ScheduledThreadPool.step 1) ScheduledThreadPool.Cleared .create as s → (s.handlers 0).Ended →
      ∀ id ∈ (s.handlers 0).acceptedBefore, (s.tasks id).base.state.stopped ∧ ∀ c, ¬ s.Blocked c id) ∧
    (Run (TaskPool.step cfg) TaskPool.Cleared (.create cfg ids) bs p → p.pool.AllEnded →
      ∀ id, p.accepted id → (p.tasks id).state.stopped ∧ ∀ c, ¬ p.Blocked c id) :=
  ⟨fun h hend _ hid => ScheduledThreadPool.cancel_served h hend hid,
    fun h hend _ hid => TaskPool.cancel_served ids h hend hid⟩

/-! ## Runs -/

/-- The task is added to the handler, with its deadline in the past. -/
def handlerAdds : List ScheduledThreadPool.Act :=
  [.addHandler 0 0 7 (.cron 0)] ++ List.replicate 5 (.caller 0 5 false)

/-- The handler is closed. -/
def handlerCloses : List ScheduledThreadPool.Act :=
  [.shutDownHandler 1 0 true, .caller 1 5 false, .handlerCloser 0 false, .handlerCloser 0 false]

/-- A caller calls `Cancel` of the task, and finds it not stopped. -/
def handlerCancels : List ScheduledThreadPool.Act := [.cancel 2 7, .caller 2 5 false, .caller 2 5 false]

/-- The task is added to the pool. -/
def poolAdds : List TaskPool.Act :=
  [.pool (.caller 0 (.addTask (some (.user 7)))), .pool (.caller 0 .load), .pool (.caller 0 .push),
    .pool (.caller 0 .notify)]

/-- The pool of one worker is closed. -/
def poolCloses : List TaskPool.Act :=
  [.pool (.caller 1 (.shutDown false)), .pool (.caller 1 (.cas false)), .pool (.closer .setStop),
    .pool (.closer .lock), .pool (.closer (.asyncClose 0 false)), .pool (.closer .threadNum),
    .pool (.closer .pushEnd), .pool (.closer .unlock), .pool (.closer (.closeMonitor false))]

def poolCancels : List TaskPool.Act := [.cancel 2 7, .canceller 2, .canceller 2]

/-- The worker and the monitor find that they have been closed. -/
def poolEnds : List TaskPool.Act :=
  [.pool (.worker 0 .finish), .pool (.worker 0 .count), .pool (.worker 0 .compare),
    .pool (.worker 0 .setShutDown), .pool (.worker 0 .notifyAll), .pool (.worker 0 .notifyFinished),
    .pool (.monitor .start), .pool (.monitor .finish)]

/-- The worker is inside `DoRun` of the task. -/
def poolRuns : List TaskPool.Act :=
  [.pool (.worker 0 .start), .pool (.worker 0 .check), .pool (.worker 0 .pop), .pool (.worker 0 .dispatch),
    .run 0 .returns, .run 0 .returns]

/-- The task is running when the caller cancels it and the pool is closed, and the thread ends. -/
theorem never_waits_for_nobody_running :
    (∃ s, Run (ScheduledThreadPool.step 1) ScheduledThreadPool.Cleared .create
      (handlerAdds ++ List.replicate 13 (.handler 0 5 .returns) ++ handlerCancels ++ handlerCloses ++
        List.replicate 7 (.handler 0 5 .returns)) s ∧
      (s.handlers 0).Ended ∧ 7 ∈ (s.handlers 0).acceptedBefore ∧ ∀ c, ¬ s.Blocked c 7) ∧
    ∃ s, Run (TaskPool.step ⟨1, 1⟩) TaskPool.Cleared (.create ⟨1, 1⟩ (.first 1))
      (poolAdds ++ poolRuns ++ poolCancels ++ poolCloses ++
        [.run 0 .returns, .run 0 .returns, .run 0 .returns, .pool (.worker 0 .check)] ++ poolEnds) s ∧
      s.pool.AllEnded ∧ s.accepted 7 ∧ ∀ c, ¬ s.Blocked c 7 := by
  constructor
  · refine exists_run (I := fun s => (s.handlers 0).Ended ∧ 7 ∈ (s.handlers 0).acceptedBefore) (by decide +kernel)
      fun s hrun ⟨hend, hacc⟩ => ⟨hend, hacc, ?_⟩
    exact ((never_waits_for_nobody _ s ⟨1, 1⟩ (.first 1) [] (.create ⟨1, 1⟩ (.first 1))).1 hrun hend 7 hacc).2
  · refine exists_run (I := fun s => s.pool.AllEnded ∧ s.accepted 7) (by decide +kernel)
      fun s hrun ⟨hend, hacc⟩ => ⟨hend, hacc, ?_⟩
    exact ((never_waits_for_nobody [] .create ⟨1, 1⟩ (.first 1) _ s).2 hrun hend 7 hacc).2

/-- The pool is closed before its thread has looked at the queue, and the caller waits for nobody. -/
theorem waits_for_nobody :
    (¬ ∀ as s, Run (ScheduledThreadPool.step 1) Free .create as s → (s.handlers 0).Ended →
      ∀ id ∈ (s.handlers 0).acceptedBefore, ∀ c, ¬ s.Blocked c id) ∧
    ¬ ∀ cfg ids as s, Run (TaskPool.step cfg) Free (.create cfg ids) as s → s.pool.AllEnded →
      ∀ id, s.accepted id → ∀ c, ¬ s.Blocked c id := by
  refine ⟨fun hall => ?_, fun hall => ?_⟩
  · obtain ⟨s, hrun, hend, hacc, hb⟩ : ∃ s, Run (ScheduledThreadPool.step 1) Free .create
        (handlerAdds ++ handlerCloses ++ List.replicate 3 (.handler 0 5 .returns) ++ handlerCancels) s ∧
        (s.handlers 0).Ended ∧ 7 ∈ (s.handlers 0).acceptedBefore ∧ s.Blocked 2 7 :=
      exists_run (by decide +kernel) fun _ _ h => h
    exact hall _ s hrun hend 7 hacc 2 hb
  · obtain ⟨s, hrun, hend, hacc, hb⟩ : ∃ s, Run (TaskPool.step ⟨1, 1⟩) Free (.create ⟨1, 1⟩ (.first 1))
        (poolAdds ++ poolCloses ++ [.pool (.worker 0 .start)] ++ poolEnds ++ poolCancels) s ∧
        s.pool.AllEnded ∧ s.accepted 7 ∧ s.Blocked 2 7 := exists_run (by decide +kernel) fun _ _ h => h
    exact hall ⟨1, 1⟩ (.first 1) _ s hrun hend 7 hacc 2 hb

end Empool
