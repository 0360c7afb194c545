/-
  `CyclicBarrier`: `Await()`, `Await(time_ms)` and `Reset()` by any number of
  threads.

  The barrier's mutex is held by a thread from its arrival until it waits, and
  from its wake-up until it returns or waits again; each of these is one step.
  A generation is named by the values of `m_reset_index` and `m_barrier_cond`
  at the arrival of its threads.  The two counters are `int`s: the model is
  that of fewer than 2^31 resets and trips, where they do not overflow
  (`Barrier.indices_count`).

  Fields called history variables are read by no step of the code.
-/
import Empool.Lib.Run
import Mathlib.Logic.Function.Basic
import Mathlib.Data.List.Basic

namespace Empool

/-- The results of `Await`: `BROKEN`, `TIMEOUT`, `SUCCESS`. -/
inductive AwaitResult where
  | broken | timeout | success
deriving DecidableEq, Repr

/-- A generation: the reset index and the barrier index. -/
@[ext]
structure Generation where
  resetIndex : ℕ
  barrierCond : ℕ
deriving DecidableEq, Repr

/-- `g` is not later than `g'`. -/
def Generation.Le (g g' : Generation) : Prop :=
  g.resetIndex ≤ g'.resetIndex ∧ g.barrierCond ≤ g'.barrierCond

variable {g g' : Generation}

/-- A trip begins a later generation. -/
theorem Generation.Le.trip (h : g.Le g') :
    g.Le ⟨g'.resetIndex, g'.barrierCond + 1⟩ ∧ g ≠ ⟨g'.resetIndex, g'.barrierCond + 1⟩ := by
  refine ⟨⟨h.1, Nat.le_succ_of_le h.2⟩, ?_⟩
  rintro rfl
  exact absurd h.2 (Nat.not_succ_le_self _)

/-- A reset begins a later generation. -/
theorem Generation.Le.reset (h : g.Le g') :
    g.Le ⟨g'.resetIndex + 1, g'.barrierCond⟩ ∧ g ≠ ⟨g'.resetIndex + 1, g'.barrierCond⟩ := by
  refine ⟨⟨Nat.le_succ_of_le h.1, h.2⟩, ?_⟩
  rintro rfl
  exact absurd h.1 (Nat.not_succ_le_self _)

/-- A thread that uses the barrier. -/
inductive Party where
  /-- not in `Await` -/
  | idle
  /-- in `pthread_cond_wait`, or in `pthread_cond_timedwait` if `timed`, with
      `current_reset_index` and `current_barrier_cond`; `notified`: it has been broadcast to -/
  | waiting (timed : Bool) (current : Generation) (notified : Bool)
deriving DecidableEq, Repr

/-- A thread that has been broadcast to, if it waits. -/
def Party.notify : Party → Party
  | .idle => .idle
  | .waiting timed current _ => .waiting timed current true

/-- The generation that a thread waits in. -/
def Party.generation : Party → Option Generation
  | .idle => none
  | .waiting _ current _ => some current

/-- A call of `Await` that has returned. -/
structure Returned where
  party : ℕ
  generation : Generation
  result : AwaitResult
deriving DecidableEq, Repr

/-- A `CyclicBarrier` with its threads. -/
structure Barrier where
  maxCount : ℕ
  count : ℕ
  /-- `m_reset_index` and `m_barrier_cond` -/
  current : Generation
  parties : ℕ → Party
  /-- history: the threads that have arrived in a generation -/
  arrived : Generation → List ℕ
  /-- history: the generations whose last thread has arrived -/
  tripped : List Generation
  /-- history: the calls of `Await` that have returned -/
  returned : List Returned
  /-- history: the number of calls of `Reset` -/
  resets : ℕ

namespace Barrier

/-- `CyclicBarrier(count)` -/
def create (count : ℕ) : Barrier where
  maxCount := count
  count := count
  current := ⟨0, 0⟩
  parties := fun _ => .idle
  arrived := fun _ => []
  tripped := []
  returned := []
  resets := 0

variable (s : Barrier)

/-- `m_condition_variable.NotifyAll()` -/
def notifyAll : Barrier :=
  { s with parties := fun p => (s.parties p).notify }

/-- The thread `p` returns from `Await`, having arrived in the generation `g`. -/
def finish (p : ℕ) (g : Generation) (result : AwaitResult) : Barrier :=
  { s with
    parties := Function.update s.parties p .idle
    returned := s.returned ++ [⟨p, g, result⟩] }

/-- The thread `p` waits in the generation `g`. -/
def wait (p : ℕ) (timed : Bool) (g : Generation) : Barrier :=
  { s with parties := Function.update s.parties p (.waiting timed g false) }

/-- `--m_count`, in the call of the thread `p`. -/
def arrive (p : ℕ) : Barrier :=
  { s with
    count := s.count - 1
    arrived := Function.update s.arrived s.current (p :: s.arrived s.current) }

/-- The last thread has arrived. -/
def trip : Barrier :=
  { s.notifyAll with
    count := s.maxCount
    current := { s.current with barrierCond := s.current.barrierCond + 1 }
    tripped := s.current :: s.tripped }

/-- `Await()`, or `Await(time_ms)` if `timed`, up to its first wait or its return. -/
def await (p : ℕ) (timed : Bool) : Barrier :=
  let s' := s.arrive p
  if s'.count = 0 then s'.trip.finish p s.current .success
  else s'.wait p timed s.current

/-- Woken from the wait: the test of the loop, and the return behind it. -/
def wake (p : ℕ) (timed : Bool) (g : Generation) : Barrier :=
  if g.barrierCond = s.current.barrierCond ∧ g.resetIndex = s.current.resetIndex then s.wait p timed g
  else if g.resetIndex ≠ s.current.resetIndex then s.finish p g .broken
  else s.finish p g .success

/-- `Reset()` -/
def reset : Barrier :=
  { s.notifyAll with
    count := s.maxCount
    current := { s.current with resetIndex := s.current.resetIndex + 1 }
    resets := s.resets + 1 }

end Barrier

inductive BarrierAct where
  /-- the thread `p` calls `Await()`, or `Await(time_ms)` if `timed` -/
  | await (p : ℕ) (timed : Bool)
  /-- the wait of `p` ends, after a broadcast or spuriously -/
  | wake (p : ℕ)
  /-- the timed wait of `p` ends with its timeout code -/
  | timeout (p : ℕ)
  /-- a thread that is not in `Await` calls `Reset()` -/
  | reset
deriving DecidableEq, Repr

namespace Barrier

/-- One step. -/
def step (s : Barrier) : BarrierAct → Option Barrier
  | .await p timed =>
    match s.parties p with
    | .idle => some (s.await p timed)
    | .waiting _ _ _ => none
  | .wake p =>
    match s.parties p with
    | .idle => none
    | .waiting timed g _ => some (s.wake p timed g)
  | .timeout p =>
    match s.parties p with
    | .waiting true g _ => some (s.finish p g .timeout)
    | _ => none
  | .reset => some s.reset

end Barrier

/-- No call of `Await(time_ms)`. -/
def Untimed (_ : Barrier) : BarrierAct → Prop
  | .await _ timed => timed = false
  | _ => True

instance (s : Barrier) : ∀ a, Decidable (Untimed s a)
  | .await _ timed => inferInstanceAs (Decidable (timed = false))
  | .wake _ | .timeout _ | .reset => isTrue trivial

/-- A wait ends with its timeout code only if its generation is over: it has tripped or was reset. -/
def Overdue (s : Barrier) : BarrierAct → Prop
  | .timeout p => (s.parties p).generation ≠ some s.current
  | _ => True

instance (s : Barrier) : ∀ a, Decidable (Overdue s a)
  | .timeout _ => inferInstanceAs (Decidable (_ ≠ _))
  | .await _ _ | .wake _ | .reset => isTrue trivial

end Empool
