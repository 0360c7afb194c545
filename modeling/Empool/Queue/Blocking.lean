/-
  `BlockingQueue`: `Push`, `Pop`, `PopTimeWait` and `Front` by any number of
  threads.

  A thread is a program counter that names its next statement.  The statements
  between the `Lock()` and the `Unlock()` of a locker are steps of their own, so
  the owner of the mutex is part of the state; to wait is to give the mutex
  back, and a wait ends when the thread has the mutex again.  The element type is
  a parameter, and `m_queue` is the default `std::queue`, first in first out.

  Fields called history variables are read by no step of the code.
-/
import Empool.Lib.Run
import Mathlib.Logic.Function.Basic
import Mathlib.Data.List.Basic

namespace Empool

namespace BlockingQueue

/-- The calls that wait until the queue is not empty. -/
inductive Op where
  /-- `Pop()` and `Pop(elem)` -/
  | pop
  /-- `PopTimeWait(elem, time_in_ms)` -/
  | popTimeWait
  /-- `Front()` and `Front(elem)` -/
  | front
deriving DecidableEq, Repr

/-- The next statement of a thread. -/
inductive Pc (α : Type) where
  /-- in no call -/
  | idle
  /-- `ConditionNotifyAllLocker` of `Push`: `Lock()` -/
  | lockPush (elem : α)
  /-- `NotifyAll()`, if the queue is empty -/
  | notifyAll (elem : α)
  /-- `m_queue.push(elem)` -/
  | push (elem : α)
  /-- `ConditionWaitLocker`: `Lock()` -/
  | lock (op : Op)
  /-- the test of its loop -/
  | test (op : Op)
  /-- in `pthread_cond_wait`, or `pthread_cond_timedwait`; `notified`: it has been broadcast to -/
  | wait (op : Op) (notified : Bool)
  /-- `elem = m_queue.front()` -/
  | front (op : Op)
  /-- `m_queue.pop()` -/
  | pop
  /-- `Unlock()`, and the return; `result`: what `PopTimeWait` returns, `true` for the other calls -/
  | unlock (result : Bool)
deriving DecidableEq, Repr

/-- A thread that has been broadcast to, if it waits. -/
def Pc.notify {α : Type} : Pc α → Pc α
  | .wait op _ => .wait op true
  | pc => pc

/-- A thread that uses the queue; it makes any number of calls, one after the other. -/
structure Thread (α : Type) where
  pc : Pc α
  /-- the variable `elem`, if it has been set -/
  elem : Option α
  /-- history: `elem` when the call began -/
  given : Option α
  /-- history: how many elements had been pushed when it last tested the queue -/
  pushedAt : ℕ
  /-- history: how many elements had been popped when it last tested the queue -/
  poppedAt : ℕ
deriving DecidableEq, Repr

end BlockingQueue

/-- A `BlockingQueue` with its threads. -/
structure BlockingQueue (α : Type) where
  /-- the owner of `m_mutex` -/
  mutex : Option ℕ
  queue : List α
  threads : ℕ → BlockingQueue.Thread α
  /-- history: the elements the queue was constructed with, and those pushed since -/
  pushed : List α
  /-- history: the elements popped, in order -/
  popped : List α

namespace BlockingQueue

variable {α : Type}

/-- `BlockingQueue(container)` -/
def create (container : List α) : BlockingQueue α where
  mutex := none
  queue := container
  threads := fun _ => ⟨.idle, none, none, 0, 0⟩
  pushed := container
  popped := []

variable (s : BlockingQueue α)

/-- The thread `c` becomes `th`. -/
def set (c : ℕ) (th : Thread α) : BlockingQueue α :=
  { s with threads := Function.update s.threads c th }

/-- The thread `c` goes to `pc`. -/
def goto (c : ℕ) (pc : Pc α) : BlockingQueue α := s.set c { s.threads c with pc := pc }

/-- `NotifyAll()` -/
def notifyAll : BlockingQueue α :=
  { s with threads := fun c => { s.threads c with pc := (s.threads c).pc.notify } }

/-- The thread `c` gets the mutex and goes to `pc`, if the mutex is free. -/
def lock (c : ℕ) (pc : Pc α) : Option (BlockingQueue α) :=
  if s.mutex = none then some { s.goto c pc with mutex := some c } else none

/-- The thread `c` tests the queue and goes to `pc`. -/
def tested (c : ℕ) (pc : Pc α) : BlockingQueue α :=
  s.set c { s.threads c with pc := pc, pushedAt := s.pushed.length, poppedAt := s.popped.length }

/-- The next statement of the thread `c`. -/
def next (c : ℕ) : Option (BlockingQueue α) :=
  match (s.threads c).pc with
  | .idle => none
  | .lockPush elem => s.lock c (.notifyAll elem)
  | .notifyAll elem => some ((if s.queue.isEmpty then s.notifyAll else s).goto c (.push elem))
  | .push elem =>
    some { s.goto c (.unlock true) with queue := s.queue ++ [elem], pushed := s.pushed ++ [elem] }
  | .lock op => s.lock c (.test op)
  | .test op =>
    -- `pthread_cond_wait` gives the mutex back
    if s.queue.isEmpty then some { s.tested c (.wait op false) with mutex := none }
    else some (s.tested c (.front op))
  | .wait _ _ => none
  | .front op =>
    some (s.set c { s.threads c with
      pc := if op = .front then .unlock true else .pop
      elem := s.queue.head? })
  | .pop =>
    some { s.goto c (.unlock true) with
      queue := s.queue.tail, popped := s.popped ++ s.queue.head?.toList }
  | .unlock _ => some { s.goto c .idle with mutex := none }

inductive Act (α : Type) where
  /-- the thread `c` calls `Push(elem)` -/
  | push (c : ℕ) (elem : α)
  /-- the thread `c` makes the call `op`, with the variable `elem` -/
  | take (c : ℕ) (op : Op) (elem : Option α)
  /-- the thread `c` executes its next statement -/
  | next (c : ℕ)
  /-- the wait of `c` ends, after a broadcast or spuriously -/
  | wake (c : ℕ)
  /-- the timed wait of `c` ends with its timeout code -/
  | expire (c : ℕ)
deriving DecidableEq, Repr

/-- The thread that acts. -/
def Act.thread : Act α → ℕ
  | .push c _ | .take c _ _ | .next c | .wake c | .expire c => c

/-- One step. -/
def step (s : BlockingQueue α) : Act α → Option (BlockingQueue α)
  | .push c elem =>
    match (s.threads c).pc with
    | .idle => some (s.goto c (.lockPush elem))
    | _ => none
  | .take c op elem =>
    match (s.threads c).pc with
    | .idle => some (s.set c { s.threads c with pc := .lock op, elem := elem, given := elem })
    | _ => none
  | .next c => s.next c
  | .wake c =>
    match (s.threads c).pc with
    | .wait op _ => s.lock c (.test op)
    | _ => none
  | .expire c =>
    match (s.threads c).pc with
    -- `TimeWait` returns false without another look at the queue
    | .wait .popTimeWait _ => s.lock c (.unlock false)
    | _ => none

end BlockingQueue

end Empool
