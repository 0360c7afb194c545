/-
  How the add calls of a pool spread over its handlers.

  `m_index` is an `atomic_long`, its remainder is taken by the `size_t` that
  `GetThreadNum` returns, and is stored in an `int`; `currentIndex` makes these
  conversions, and the step of an add call directs it to the handler it says.

  `directed` is the history of a run: the handlers its add calls were directed
  to.  While the counter does not wrap to 0 it goes up by one with each of them,
  so that the handlers take turns.
-/
import Empool.Timer.Trans
import Empool.Lib.History
import Empool.Lib.RoundRobin

namespace Empool

open Lts RoundRobin

/-- `int current_index = m_index.fetch_add(1) % GetThreadNum()`, for the value `index` of the counter: the
    signed number is converted to an unsigned one of 64 bits, and the remainder to one of 32 bits. -/
def currentIndex (index : Int64) (threadNum : UInt64) : Int32 :=
  .ofNat (index.toUInt64 % threadNum).toNat

variable {n : ℕ}

/-- For a number of handlers that an `int` can hold, the second conversion changes nothing. -/
theorem toInt_currentIndex {index : Int64} (hn : 1 ≤ n) (hlt : n < 2 ^ 31) :
    (currentIndex index (.ofNat n)).toInt = (index.toUInt64.toNat % n : ℕ) := by
  have hnum : (UInt64.ofNat n).toNat = n := UInt64.toNat_ofNat_of_lt' (hlt.trans (by decide))
  have hmod : index.toUInt64.toNat % n < n := Nat.mod_lt _ hn
  rw [currentIndex, UInt64.toNat_mod, hnum]
  exact Int32.toInt_ofNat_of_lt (hmod.trans hlt)

theorem currentIndex_mem {index : Int64} (hn : 1 ≤ n) (hlt : n < 2 ^ 31) :
    0 ≤ (currentIndex index (.ofNat n)).toInt ∧ (currentIndex index (.ofNat n)).toInt < n := by
  rw [toInt_currentIndex hn hlt]
  exact ⟨Int.natCast_nonneg _, Int.ofNat_lt.2 (Nat.mod_lt _ hn)⟩

namespace ScheduledThreadPool

variable {s s' t : ScheduledThreadPool} {a : Act} {as : List Act} {d d' : List ℕ} {i j : ℕ}

/-- The caller executes `m_index.fetch_add(1)`. -/
def CallerPc.fetches : CallerPc → Bool
  | .addIndex _ _ => true
  | _ => false

/-- The step is that of a caller who executes it. -/
def fetches (s : ScheduledThreadPool) : Act → Bool
  | .caller c _ _ => (s.callers c).fetches
  | _ => false

/-- The handlers the add calls of the run were directed to, the last one first. -/
def directed (n : ℕ) (d : List ℕ) (s : ScheduledThreadPool) (a : Act) : List ℕ :=
  if s.fetches a then s.index.toNat % n :: d else d

/-- The counter, read as an unsigned number, does not wrap to 0. -/
def NoWrap (p : List ℕ × ScheduledThreadPool) (a : Act) : Prop := p.2.fetches a = true → p.2.index + 1 ≠ 0

instance (p : List ℕ × ScheduledThreadPool) (a : Act) : Decidable (NoWrap p a) :=
  inferInstanceAs (Decidable (_ → _))

theorem CallerPc.fetches_iff {pc : CallerPc} : pc.fetches = true ↔ ∃ id kind, pc = .addIndex id kind := by
  cases pc <;> simp [fetches]

/-- What an add call does with the counter, and where it goes. -/
theorem step_addIndex {c id : ℕ} {kind : AddKind} {now : TimeValue} {spurious : Bool}
    (hc : s.callers c = .addIndex id kind) (hs : step n s (.caller c now spurious) = some t) :
    t.index = s.index + 1 ∧ t.callers c = .addNow (s.index.toNat % n) id kind := by
  simp only [step, callerNext, hc, Option.some.injEq] at hs
  subst hs
  exact ⟨rfl, Function.update_self ..⟩

/-- It is the handler of the index that the call computes. -/
theorem addNow_currentIndex {c id : ℕ} {kind : AddKind} {now : TimeValue} {spurious : Bool} (hn : 1 ≤ n)
    (hlt : n < 2 ^ 31) (hc : s.callers c = .addIndex id kind)
    (hs : step n s (.caller c now spurious) = some t) :
    ∃ i, t.callers c = .addNow i id kind ∧ (currentIndex s.index.toInt64 (.ofNat n)).toInt = i := by
  refine ⟨s.index.toNat % n, (step_addIndex hc hs).2, ?_⟩
  rw [toInt_currentIndex hn hlt, UInt64.toUInt64_toInt64]

theorem index_of_fetches (hf : s.fetches a = true) (hs : step n s a = some t) : t.index = s.index + 1 := by
  cases a with
  | caller c now spurious =>
    obtain ⟨id, kind, hc⟩ := CallerPc.fetches_iff.1 hf
    exact (step_addIndex hc hs).1
  | _ => cases hf

/-- Nobody else moves the counter. -/
theorem index_of_not_fetches (hf : s.fetches a = false) (hs : step n s a = some t) : t.index = s.index := by
  have ht := trans_of_step hs
  cases ht with
  | addIndex hc => cases (CallerPc.fetches_iff.2 ⟨_, _, hc⟩).symm.trans hf
  | _ => rfl

/-! ## Turns -/

/-- The calls `d` were directed by a counter that has gone up from `m`, by one with each of them. -/
structure Turns (n m : ℕ) (d : List ℕ) (s : ScheduledThreadPool) : Prop where
  index : s.index.toNat = m + d.length
  count : ∀ i, d.count i = share n i m d.length

theorem Turns.nil (s : ScheduledThreadPool) : Turns n s.index.toNat [] s := ⟨rfl, fun _ => share_zero.symm⟩

theorem toNat_succ {x : UInt64} (hx : x + 1 ≠ 0) : (x + 1).toNat = x.toNat + 1 := by
  have hsum : (x + 1).toNat = (x.toNat + 1) % 2 ^ 64 := UInt64.toNat_add x 1
  have hlt : x.toNat < 2 ^ 64 := x.toNat_lt
  have hne : (x + 1).toNat ≠ 0 := fun h => hx (UInt64.toNat_inj.1 h)
  omega

theorem turns_step (m : ℕ) : Preserved (record (step n) (directed n)) NoWrap fun p => Turns n m p.1 p.2 := by
  rintro ⟨d, s⟩ a ⟨d', t⟩ ht hwrap hs
  obtain ⟨hst, rfl⟩ := record_eq_some.1 hs
  cases hf : s.fetches a with
  | false =>
    rw [directed, hf]
    exact ⟨(congrArg UInt64.toNat (index_of_not_fetches hf hst)).trans ht.index, ht.count⟩
  | true =>
    rw [directed, if_pos hf]
    refine ⟨?_, fun i => ?_⟩
    · calc t.index.toNat = s.index.toNat + 1 := by rw [index_of_fetches hf hst, toNat_succ (hwrap hf)]
        _ = m + (d.length + 1) := by rw [ht.index, Nat.add_assoc]
    · rw [List.count_cons, ht.count i, List.length_cons, share_succ, ht.index]
      simp only [beq_iff_eq]

/-- The index an add call computes is one of the handlers', and is where the call goes; and the numbers of
    calls that the handlers have got in a run, from any state on, differ by at most one while the counter does not
    wrap to 0. -/
theorem spread_evenly (hn : 1 ≤ n) (hlt : n < 2 ^ 31) :
    (∀ index : Int64, 0 ≤ (currentIndex index (.ofNat n)).toInt ∧ (currentIndex index (.ofNat n)).toInt < n) ∧
    (∀ s c id kind now spurious t, s.callers c = .addIndex id kind →
      step n s (.caller c now spurious) = some t →
      ∃ i, t.callers c = .addNow i id kind ∧ (currentIndex s.index.toInt64 (.ofNat n)).toInt = i) ∧
    ∀ s as d t, Run (record (step n) (directed n)) NoWrap ([], s) as (d, t) →
      ∀ i < n, ∀ j < n, d.count i ≤ d.count j + 1 := by
  refine ⟨fun _ => currentIndex_mem hn hlt, fun _ _ _ _ _ _ _ => addNow_currentIndex hn hlt, ?_⟩
  intro s as d t hrun i hi j hj
  have hturns : Turns n s.index.toNat d t := hrun.invariant (turns_step _) (.nil s)
  rw [hturns.count i, hturns.count j]
  exact share_le hi hj

/-- Three add calls at three handlers, from a counter that is -4 as a signed number. -/
theorem spread_evenly_three :
    ∃ p, Run (record (step 3) (directed 3)) NoWrap ([], { create with index := -4 })
        [.add 0 (some 0) (.cron 5), .add 1 (some 1) (.cron 5), .add 2 (some 2) (.cycle 5 true), .caller 1 0 false,
          .caller 0 0 false, .caller 0 0 false, .caller 2 0 false, .caller 1 0 false, .caller 2 0 false] p ∧
      p.1 = [2, 1, 0] ∧ ∀ i < 3, ∀ j < 3, p.1.count i ≤ p.1.count j + 1 :=
  exists_run (I := fun p => p.1 = [2, 1, 0]) (by decide) fun p hrun hp =>
    ⟨hp, (spread_evenly (n := 3) (by decide) (by decide)).2.2 _ _ p.1 p.2 hrun⟩

end ScheduledThreadPool

end Empool
