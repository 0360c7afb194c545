/-
  `CyclicBarrier` counts its parties correctly, if no call is timed.

  The threads that have arrived in the current generation are the ones that
  wait in it; the rest of the count is still to come.  A generation that has
  tripped keeps its threads, and each thread of an older generation is
  notified.
-/
import Empool.Barrier.Await
import Mathlib.Data.Set.Card

namespace Empool

open Lts

namespace Barrier

variable {s t : Barrier} {p q : ℕ} {timed notified : Bool} {g : Generation} {a : BarrierAct}

/-! ## What a step changes -/

theorem waiting_notifyAll : s.notifyAll.parties p = .waiting timed g notified ↔
    notified = true ∧ ∃ n, s.parties p = .waiting timed g n := by
  show (s.parties p).notify = _ ↔ _
  cases h : s.parties p with
  | idle => simp [Party.notify]
  | waiting timed' g' n =>
    simp only [Party.notify, Party.waiting.injEq]
    constructor
    · rintro ⟨rfl, rfl, rfl⟩; exact ⟨rfl, n, rfl, rfl, rfl⟩
    · rintro ⟨rfl, m, rfl, rfl, -⟩; exact ⟨rfl, rfl, rfl⟩

/-- A thread other than `p` waits as before. -/
theorem waiting_finish {r : AwaitResult} {g' : Generation} :
    (s.finish p g' r).parties q = .waiting timed g notified ↔
      q ≠ p ∧ s.parties q = .waiting timed g notified := by
  by_cases hqp : q = p
  · subst hqp; simp [finish]
  · simp [finish, hqp]

theorem waiting_wait {timed' : Bool} {g' : Generation} :
    (s.wait p timed' g').parties q = .waiting timed g notified ↔
      (q = p ∧ timed = timed' ∧ g = g' ∧ notified = false) ∨
        (q ≠ p ∧ s.parties q = .waiting timed g notified) := by
  by_cases hqp : q = p
  · subst hqp
    simp only [wait, Function.update_self, Party.waiting.injEq, true_and, ne_eq, not_true_eq_false,
      false_and, or_false]
    constructor
    · rintro ⟨rfl, rfl, rfl⟩; exact ⟨rfl, rfl, rfl⟩
    · rintro ⟨rfl, rfl, rfl⟩; exact ⟨rfl, rfl, rfl⟩
  · simp [wait, hqp]

theorem arrived_arrive_self : (s.arrive p).arrived s.current = p :: s.arrived s.current :=
  Function.update_self ..

theorem arrived_arrive_of_ne (h : g ≠ s.current) : (s.arrive p).arrived g = s.arrived g :=
  Function.update_of_ne h ..

theorem mem_arrived_arrive (h : q ∈ s.arrived g) : q ∈ (s.arrive p).arrived g := by
  by_cases hg : g = s.current
  · subst hg; rw [arrived_arrive_self]; exact List.mem_cons_of_mem p h
  · rwa [arrived_arrive_of_ne hg]

/-- `Trans s a t`: the cases of the step `a`. -/
inductive Trans (s : Barrier) : BarrierAct → Barrier → Prop
  | wait {p : ℕ} {timed : Bool} (hp : s.parties p = .idle) (hne : s.count - 1 ≠ 0) :
      Trans s (.await p timed) ((s.arrive p).wait p timed s.current)
  | trip {p : ℕ} {timed : Bool} (hp : s.parties p = .idle) (hz : s.count - 1 = 0) :
      Trans s (.await p timed) ((s.arrive p).trip.finish p s.current .success)
  | again {p : ℕ} {timed n : Bool} (hp : s.parties p = .waiting timed s.current n) :
      Trans s (.wake p) (s.wait p timed s.current)
  | broken {p : ℕ} {timed n : Bool} {g : Generation} (hp : s.parties p = .waiting timed g n)
      (hr : g.resetIndex ≠ s.current.resetIndex) : Trans s (.wake p) (s.finish p g .broken)
  | success {p : ℕ} {timed n : Bool} {g : Generation} (hp : s.parties p = .waiting timed g n)
      (hg : g ≠ s.current) (hr : g.resetIndex = s.current.resetIndex) :
      Trans s (.wake p) (s.finish p g .success)
  | timeout {p : ℕ} {n : Bool} {g : Generation} (hp : s.parties p = .waiting true g n) :
      Trans s (.timeout p) (s.finish p g .timeout)
  | reset : Trans s .reset s.reset

theorem Trans.of_step (hs : step s a = some t) : Trans s a t := by
  cases a with
  | await p timed =>
    cases hp : s.parties p with
    | waiting timed' g n => simp [step, hp] at hs
    | idle =>
      simp only [step, hp, Option.some.injEq] at hs
      subst hs
      unfold Barrier.await
      by_cases hz : s.count - 1 = 0
      · rw [if_pos (show (s.arrive p).count = 0 from hz)]
        exact .trip hp hz
      · rw [if_neg (show ¬ (s.arrive p).count = 0 from hz)]
        exact .wait hp hz
  | wake p =>
    cases hp : s.parties p with
    | idle => simp [step, hp] at hs
    | waiting timed g n =>
      simp only [step, hp, Option.some.injEq] at hs
      subst hs
      unfold Barrier.wake
      split
      next heq =>
        obtain rfl : g = s.current := Generation.ext heq.2 heq.1
        exact .again hp
      next hne =>
        split
        next hr => exact .broken hp hr
        next hr => exact .success hp (fun hg => hne (by rw [hg]; exact ⟨rfl, rfl⟩)) (not_not.1 hr)
  | timeout p =>
    cases hp : s.parties p with
    | idle => simp [step, hp] at hs
    | waiting timed g n =>
      cases timed with
      | false => simp [step, hp] at hs
      | true =>
        simp only [step, hp, Option.some.injEq] at hs
        subst hs
        exact .timeout hp
  | reset =>
    obtain rfl := Option.some.inj hs
    exact .reset

/-! ## The invariant -/

/-- The threads of the generations: those of the current one wait in it, those of the older ones
    are notified, and a generation that has tripped is complete. -/
structure Counted (s : Barrier) : Prop where
  pos : 0 < s.count
  count : s.count + (s.arrived s.current).length = s.maxCount
  members : ∀ p, p ∈ s.arrived s.current ↔ ∃ timed n, s.parties p = .waiting timed s.current n
  nodup : ∀ g, (s.arrived g).Nodup
  past : ∀ g p, p ∈ s.arrived g → g.Le s.current
  complete : ∀ g ∈ s.tripped, (s.arrived g).length = s.maxCount ∧ g.Le s.current ∧ g ≠ s.current
  waiting : ∀ p timed g n, s.parties p = .waiting timed g n → p ∈ s.arrived g ∧
    (g ≠ s.current → n = true) ∧
    (g ≠ s.current → g.resetIndex = s.current.resetIndex → g ∈ s.tripped)
  succeeded : ∀ r ∈ s.returned, r.result = .success → r.generation ∈ s.tripped ∧
    r.party ∈ s.arrived r.generation

theorem Counted.create {count : ℕ} (h : 0 < count) : (create count).Counted where
  pos := h
  count := rfl
  members p := by simp [Barrier.create]
  nodup g := List.nodup_nil
  past g p hp := by cases hp
  complete g hg := by cases hg
  waiting p timed g n hp := by cases hp
  succeeded r hr := by cases hr

/-- A generation other than the current one is complete or was reset: nobody arrives in it. -/
theorem Counted.arrived_next (h : s.Counted) (hg : ¬ g.Le s.current) : s.arrived g = [] := by
  cases harr : s.arrived g with
  | nil => rfl
  | cons q l => exact absurd (h.past g q (harr ▸ List.mem_cons_self)) hg

/-- A thread arrives, and is not the last. -/
theorem Counted.wait (h : s.Counted) (hp : s.parties p = .idle) (hne : s.count - 1 ≠ 0) :
    ((s.arrive p).wait p timed s.current).Counted := by
  have hnew : p ∉ s.arrived s.current := fun hm => by
    obtain ⟨timed', n, hw⟩ := (h.members p).1 hm
    rw [hp] at hw
    cases hw
  refine ⟨?_, ?_, ?_, ?_, ?_, ?_, ?_, ?_⟩
  · show 0 < s.count - 1
    omega
  · show s.count - 1 + ((s.arrive p).arrived s.current).length = s.maxCount
    have hc := h.count
    have hpos := h.pos
    rw [arrived_arrive_self, List.length_cons]
    omega
  · intro q
    show q ∈ (s.arrive p).arrived s.current ↔ _
    rw [arrived_arrive_self, List.mem_cons, h.members q]
    simp only [waiting_wait]
    show _ ↔ ∃ timed' n, (q = p ∧ timed' = timed ∧ s.current = s.current ∧ n = false) ∨
      (q ≠ p ∧ s.parties q = .waiting timed' s.current n)
    constructor
    · rintro (rfl | ⟨timed', n, hw⟩)
      · exact ⟨timed, false, .inl ⟨rfl, rfl, rfl, rfl⟩⟩
      · exact ⟨timed', n, .inr ⟨fun heq => by (rw [heq, hp] at hw; cases hw), hw⟩⟩
    · rintro ⟨timed', n, ⟨hq, -⟩ | ⟨-, hw⟩⟩
      · exact .inl hq
      · exact .inr ⟨timed', n, hw⟩
  · intro g
    show ((s.arrive p).arrived g).Nodup
    by_cases hg : g = s.current
    · subst hg; rw [arrived_arrive_self]; exact List.nodup_cons.2 ⟨hnew, h.nodup _⟩
    · rw [arrived_arrive_of_ne hg]; exact h.nodup g
  · intro g q hq
    show g.Le s.current
    by_cases hg : g = s.current
    · subst hg; exact ⟨Nat.le_refl _, Nat.le_refl _⟩
    · exact h.past g q (by rwa [← arrived_arrive_of_ne hg])
  · intro g hg
    obtain ⟨hlen, hle, hcur⟩ := h.complete g hg
    exact ⟨(arrived_arrive_of_ne hcur).symm ▸ hlen, hle, hcur⟩
  · intro q timed' g n hq
    rcases waiting_wait.1 hq with ⟨rfl, rfl, rfl, rfl⟩ | ⟨-, hw⟩
    · exact ⟨arrived_arrive_self ▸ List.mem_cons_self, fun hg => absurd rfl hg, fun hg => absurd rfl hg⟩
    · obtain ⟨hm, hn, ht⟩ := h.waiting q timed' g n hw
      exact ⟨mem_arrived_arrive hm, hn, ht⟩
  · intro r hr hres
    obtain ⟨ht, hm⟩ := h.succeeded r hr hres
    exact ⟨ht, mem_arrived_arrive hm⟩

/-- The last thread arrives: its generation is complete, and a new one begins. -/
theorem Counted.trip (h : s.Counted) (hp : s.parties p = .idle) (hz : s.count - 1 = 0) :
    ((s.arrive p).trip.finish p s.current .success).Counted := by
  have hone : s.count = 1 := by have := h.pos; omega
  have hcount := h.count
  have hnew : p ∉ s.arrived s.current := fun hm => by
    obtain ⟨timed', n, hw⟩ := (h.members p).1 hm
    rw [hp] at hw
    cases hw
  have hself : s.current.Le s.current := ⟨Nat.le_refl _, Nat.le_refl _⟩
  have hempty : (s.arrive p).arrived ⟨s.current.resetIndex, s.current.barrierCond + 1⟩ = [] := by
    rw [arrived_arrive_of_ne hself.trip.2.symm]
    exact h.arrived_next fun hle => absurd hle.2 (Nat.not_succ_le_self _)
  have hwait : ∀ {q timed g n}, ((s.arrive p).trip.finish p s.current .success).parties q =
      .waiting timed g n → n = true ∧ ∃ m, s.parties q = .waiting timed g m := by
    intro q timed g n hq
    exact waiting_notifyAll.1 (waiting_finish.1 hq).2
  refine ⟨?_, ?_, ?_, ?_, ?_, ?_, ?_, ?_⟩
  · show 0 < s.maxCount
    omega
  · show s.maxCount + ((s.arrive p).arrived ⟨s.current.resetIndex, s.current.barrierCond + 1⟩).length = s.maxCount
    rw [hempty]
    rfl
  · intro q
    show q ∈ (s.arrive p).arrived ⟨s.current.resetIndex, s.current.barrierCond + 1⟩ ↔ _
    rw [hempty]
    constructor
    · intro hq; cases hq
    · rintro ⟨timed, n, hq⟩
      obtain ⟨-, m, hm⟩ := hwait hq
      exact absurd rfl (h.past _ _ (h.waiting q timed _ m hm).1).trip.2
  · intro g
    show ((s.arrive p).arrived g).Nodup
    by_cases hg : g = s.current
    · subst hg; rw [arrived_arrive_self]; exact List.nodup_cons.2 ⟨hnew, h.nodup _⟩
    · rw [arrived_arrive_of_ne hg]; exact h.nodup g
  · intro g q hq
    by_cases hg : g = s.current
    · subst hg; exact hself.trip.1
    · exact (h.past g q (by rwa [← arrived_arrive_of_ne hg])).trip.1
  · intro g hg
    rcases List.mem_cons.1 hg with hg | hg
    · rw [hg]
      refine ⟨?_, hself.trip.1, hself.trip.2⟩
      show ((s.arrive p).arrived s.current).length = s.maxCount
      rw [arrived_arrive_self, List.length_cons]
      omega
    · obtain ⟨hlen, hle, hcur⟩ := h.complete g hg
      refine ⟨?_, hle.trip.1, hle.trip.2⟩
      show ((s.arrive p).arrived g).length = s.maxCount
      rwa [arrived_arrive_of_ne hcur]
  · intro q timed g n hq
    obtain ⟨hn, m, hm⟩ := hwait hq
    obtain ⟨hmem, -, ht⟩ := h.waiting q timed g m hm
    refine ⟨mem_arrived_arrive hmem, fun _ => hn, fun _ hres => ?_⟩
    by_cases hg : g = s.current
    · rw [hg]; exact List.mem_cons_self
    · exact List.mem_cons_of_mem _ (ht hg hres)
  · intro r hr hres
    rcases List.mem_append.1 hr with hr | hr
    · obtain ⟨ht, hm⟩ := h.succeeded r hr hres
      exact ⟨List.mem_cons_of_mem _ ht, mem_arrived_arrive hm⟩
    · rw [List.mem_singleton.1 hr]
      exact ⟨List.mem_cons_self, arrived_arrive_self ▸ List.mem_cons_self⟩

/-- A thread of the current generation is woken, and waits again. -/
theorem Counted.again {n : Bool} (h : s.Counted) (hp : s.parties p = .waiting timed s.current n) :
    (s.wait p timed s.current).Counted := by
  have hmem : p ∈ s.arrived s.current := (h.members p).2 ⟨timed, n, hp⟩
  refine ⟨h.pos, h.count, ?_, h.nodup, h.past, h.complete, ?_, h.succeeded⟩
  · intro q
    show q ∈ s.arrived s.current ↔ _
    by_cases hqp : q = p
    · subst hqp
      exact ⟨fun _ => ⟨timed, false, waiting_wait.2 (.inl ⟨rfl, rfl, rfl, rfl⟩)⟩, fun _ => hmem⟩
    · rw [h.members q]
      constructor
      · rintro ⟨timed', m, hw⟩; exact ⟨timed', m, waiting_wait.2 (.inr ⟨hqp, hw⟩)⟩
      · rintro ⟨timed', m, hw⟩
        rcases waiting_wait.1 hw with ⟨heq, -⟩ | ⟨-, hw⟩
        · exact absurd heq hqp
        · exact ⟨timed', m, hw⟩
  · intro q timed' g m hq
    rcases waiting_wait.1 hq with ⟨rfl, rfl, rfl, rfl⟩ | ⟨-, hw⟩
    · exact ⟨hmem, fun hg => absurd rfl hg, fun hg => absurd rfl hg⟩
    · exact h.waiting q timed' g m hw

/-- A thread of an older generation returns. -/
theorem Counted.finish {n : Bool} {r : AwaitResult} (h : s.Counted) (hp : s.parties p = .waiting timed g n)
    (hg : g ≠ s.current) (hr : r = .success → g.resetIndex = s.current.resetIndex) :
    (s.finish p g r).Counted := by
  obtain ⟨hmem, -, htrip⟩ := h.waiting p timed g n hp
  refine ⟨h.pos, h.count, ?_, h.nodup, h.past, h.complete, ?_, ?_⟩
  · intro q
    show q ∈ s.arrived s.current ↔ ∃ timed n, (s.finish p g r).parties q = .waiting timed s.current n
    simp only [waiting_finish]
    rw [h.members q]
    constructor
    · rintro ⟨timed', m, hw⟩
      refine ⟨timed', m, fun heq => ?_, hw⟩
      rw [heq, hp] at hw
      cases hw
      exact hg rfl
    · rintro ⟨timed', m, -, hw⟩; exact ⟨timed', m, hw⟩
  · intro q timed' g' m hq
    exact h.waiting q timed' g' m (waiting_finish.1 hq).2
  · intro r' hr' hres
    rcases List.mem_append.1 hr' with hr' | hr'
    · exact h.succeeded r' hr' hres
    · rw [List.mem_singleton.1 hr'] at hres ⊢
      exact ⟨htrip hg (hr hres), hmem⟩

/-- `Reset()`: the waiting threads are notified, and a new generation begins. -/
theorem Counted.reset (h : s.Counted) : s.reset.Counted := by
  have hempty : s.arrived ⟨s.current.resetIndex + 1, s.current.barrierCond⟩ = [] :=
    h.arrived_next fun hle => absurd hle.1 (Nat.not_succ_le_self _)
  have hcount := h.count
  have hpos := h.pos
  have hle : ∀ {q timed g n}, s.parties q = .waiting timed g n → g.Le s.current :=
    fun hq => h.past _ _ (h.waiting _ _ _ _ hq).1
  refine ⟨?_, ?_, ?_, h.nodup, ?_, ?_, ?_, h.succeeded⟩
  · show 0 < s.maxCount
    omega
  · show s.maxCount + (s.arrived ⟨s.current.resetIndex + 1, s.current.barrierCond⟩).length = s.maxCount
    rw [hempty]
    rfl
  · intro q
    show q ∈ s.arrived ⟨s.current.resetIndex + 1, s.current.barrierCond⟩ ↔ _
    rw [hempty]
    constructor
    · intro hq; cases hq
    · rintro ⟨timed, n, hq⟩
      obtain ⟨-, m, hm⟩ := waiting_notifyAll.1 hq
      exact absurd rfl (hle hm).reset.2
  · intro g q hq
    exact (h.past g q hq).reset.1
  · intro g hg
    obtain ⟨hlen, hg', -⟩ := h.complete g hg
    exact ⟨hlen, hg'.reset.1, hg'.reset.2⟩
  · intro q timed g n hq
    obtain ⟨hn, m, hm⟩ := waiting_notifyAll.1 hq
    refine ⟨(h.waiting q timed g m hm).1, fun _ => hn, fun _ hres => ?_⟩
    exact absurd hres (Nat.ne_of_lt (Nat.lt_succ_of_le (hle hm).1))

/-- No thread is in a timed wait. -/
def NoneTimed (s : Barrier) : Prop := ∀ p g n, s.parties p ≠ .waiting true g n

theorem NoneTimed.notifyAll (h : s.NoneTimed) : s.notifyAll.NoneTimed := by
  intro p g n hp
  obtain ⟨-, m, hm⟩ := waiting_notifyAll.1 hp
  exact h p g m hm

theorem NoneTimed.finish {r : AwaitResult} (h : s.NoneTimed) : (s.finish p g r).NoneTimed :=
  fun q g' n hq => h q g' n (waiting_finish.1 hq).2

theorem NoneTimed.wait (h : s.NoneTimed) : (s.wait p false g).NoneTimed := by
  intro q g' n hq
  rcases waiting_wait.1 hq with ⟨-, ht, -⟩ | ⟨-, hw⟩
  · cases ht
  · exact h q g' n hw

/-! ## Each step keeps it -/

theorem counted_step : Preserved step Overdue Counted := by
  intro s a t h ha hs
  cases Trans.of_step hs with
  | wait hp hne => exact h.wait hp hne
  | trip hp hz => exact h.trip hp hz
  | again hp => exact h.again hp
  | broken hp hr => exact h.finish hp (fun hg => hr (by rw [hg])) fun hres => by cases hres
  | success hp hg hr => exact h.finish hp hg fun _ => hr
  | timeout hp =>
    refine h.finish hp (fun hg => ha ?_) fun hres => by cases hres
    rw [hp, hg]
    rfl
  | reset => exact h.reset

theorem noneTimed_step : Preserved step Untimed NoneTimed := by
  intro s a t h ha hs
  cases Trans.of_step hs with
  | @wait p timed hp hne =>
    obtain rfl : timed = false := ha
    exact NoneTimed.wait (s := s.arrive p) h
  | trip hp hz => exact NoneTimed.finish (NoneTimed.notifyAll (s := s) h)
  | @again p timed n hp =>
    cases timed with
    | true => exact absurd hp (h p _ n)
    | false => exact h.wait
  | broken hp hr => exact h.finish
  | success hp hg hr => exact h.finish
  | timeout hp => exact absurd hp (h _ _ _)
  | reset => exact NoneTimed.notifyAll (s := s) h

/-- Without timed waits no wait ends with a timeout code. -/
theorem NoneTimed.overdue (h : s.NoneTimed) (hs : step s a = some t) : Overdue s a := by
  cases Trans.of_step hs with
  | timeout hp => exact absurd hp (h _ _ _)
  | _ => trivial

/-- `m_reset_index` counts the resets, `m_barrier_cond` the generations that have tripped; `m_max_count`
    is a constant. -/
def Indexed (count : ℕ) (s : Barrier) : Prop :=
  s.maxCount = count ∧ s.current = ⟨s.resets, s.tripped.length⟩

theorem indexed_step {count : ℕ} : Preserved step Free (Indexed count) := by
  intro s a t h _ hs
  obtain ⟨hmax, hcur⟩ := h
  cases Trans.of_step hs with
  | trip =>
    refine ⟨hmax, ?_⟩
    show Generation.mk s.current.resetIndex (s.current.barrierCond + 1) = _
    rw [hcur]
    rfl
  | reset =>
    refine ⟨hmax, ?_⟩
    show Generation.mk (s.current.resetIndex + 1) s.current.barrierCond = _
    rw [hcur]
    rfl
  | _ => exact ⟨hmax, hcur⟩

theorem indices_count {count : ℕ} {as : List BarrierAct} (h : Run step Free (create count) as s) :
    s.current.resetIndex = s.resets ∧ s.current.barrierCond = s.tripped.length := by
  have hi := h.invariant indexed_step (I := Indexed count) ⟨rfl, rfl⟩
  rw [hi.2]
  exact ⟨rfl, rfl⟩

/-! ## The count of the parties -/

/-- The threads inside `Await` whose two indices are the current ones. -/
def inCurrent (s : Barrier) : Set ℕ := {p | ∃ timed n, s.parties p = .waiting timed s.current n}

theorem Counted.inCurrent (h : s.Counted) :
    s.inCurrent.Finite ∧ s.count + s.inCurrent.ncard = s.maxCount := by
  have heq : s.inCurrent = ↑(s.arrived s.current).toFinset := by
    ext p
    rw [Finset.mem_coe, List.mem_toFinset, h.members p]
    rfl
  rw [heq]
  refine ⟨Finset.finite_toSet _, ?_⟩
  rw [Set.ncard_coe_finset, List.toFinset_card_of_nodup (h.nodup _)]
  exact h.count

theorem counts_parties {count : ℕ} (hpos : 0 < count) {as : List BarrierAct}
    (h : Run step Untimed (create count) as s) :
    (1 ≤ s.count ∧ s.count ≤ count ∧ s.inCurrent.Finite ∧ s.count + s.inCurrent.ncard = count) ∧
      (∀ r ∈ s.returned, r.result = .success → r.party ∈ s.arrived r.generation ∧
        (s.arrived r.generation).Nodup ∧ (s.arrived r.generation).length = count) ∧
      ∀ p timed g n, s.parties p = .waiting timed g n → g ≠ s.current → n = true := by
  have hmax : s.maxCount = count :=
    (h.free.invariant indexed_step (I := Indexed count) ⟨rfl, rfl⟩).1
  have hover : Run step Overdue (create count) as s :=
    h.strengthen noneTimed_step (fun _ _ _ hn _ hs => hn.overdue hs) fun p g n hp => by cases hp
  have hc : s.Counted := hover.invariant counted_step (.create hpos)
  obtain ⟨hfin, hcount⟩ := hc.inCurrent
  refine ⟨⟨hc.pos, by omega, hfin, by omega⟩, ?_, ?_⟩
  · intro r hr hres
    obtain ⟨htrip, hmem⟩ := hc.succeeded r hr hres
    exact ⟨hmem, hc.nodup _, (hc.complete _ htrip).1.trans hmax⟩
  · intro p timed g n hp hg
    exact (hc.waiting p timed g n hp).2.1 hg

/-- Two threads, a spurious wake-up, and the first thread of a generation waiting while a thread of the
    last one is still to return. -/
theorem counts_parties_two : ∃ s : Barrier, Run step Untimed (create 2)
    [.await 0 false, .wake 0, .await 1 false, .await 1 false] s ∧ s.inCurrent.ncard = 1 := by
  refine exists_run (I := fun s => s.count = 1 ∧ s.maxCount = 2) (by decide) fun s hrun ⟨hone, htwo⟩ => ?_
  obtain ⟨⟨-, -, -, hsum⟩, -⟩ := counts_parties Nat.two_pos hrun
  omega

end Barrier

end Empool
