/-
  The threads of a generation when it trips: who they are, and what they return.

  `timed_out_leaves_no_trace`: as long as no wait ends with its timeout code
  before its generation is over, the count is that of the threads still to
  arrive, and a generation trips with all its threads inside `Await`.  A wait
  that times out earlier leaves the count one too low.

  `tripped_returns`: a thread that waits in a generation when it trips returns
  `SUCCESS` if and only if it is woken rather than timed out, and `Reset()` has not
  been called in between.
-/
import Empool.Barrier.Count

namespace Empool

open Lts

namespace Barrier

variable {s t u : Barrier} {p : ℕ} {timed n : Bool} {g : Generation} {a : BarrierAct} {as bs : List BarrierAct}

/-! ## Who trips a generation -/

/-- The calls that have returned arrived in generations that are over. -/
def Past (s : Barrier) : Prop := ∀ r ∈ s.returned, r.generation.Le s.current ∧ r.generation ≠ s.current

theorem Past.finish {r : AwaitResult} (h : s.Past) (hle : g.Le s.current) (hg : g ≠ s.current) :
    (s.finish p g r).Past := by
  intro r' hr'
  rcases List.mem_append.1 hr' with hr' | hr'
  · exact h r' hr'
  · rw [List.mem_singleton.1 hr']
    exact ⟨hle, hg⟩

theorem past_step : PreservedUnder step Overdue Counted Past := by
  intro s a t hc h ha hs
  have hle : ∀ {p timed g n}, s.parties p = .waiting timed g n → g.Le s.current :=
    fun hp => hc.past _ _ (hc.waiting _ _ _ _ hp).1
  cases Trans.of_step hs with
  | wait | again => exact h
  | @trip p =>
    have hself : s.current.Le s.current := ⟨Nat.le_refl _, Nat.le_refl _⟩
    refine Past.finish (s := (s.arrive p).trip) (fun r hr => ?_) hself.trip.1 hself.trip.2
    exact (h r hr).1.trip
  | broken hp hr => exact h.finish (hle hp) fun hg => hr (by rw [hg])
  | success hp hg hr => exact h.finish (hle hp) hg
  | timeout hp =>
    refine h.finish (hle hp) fun hg => ha ?_
    rw [hp, hg]
    rfl
  | reset => exact fun r hr => (h r hr).1.reset

/-- A wait of the current generation that ends with its timeout code leaves the generation, and not the
    count. -/
theorem Counted.timeout (h : s.Counted) (hp : s.parties p = .waiting true s.current n) :
    (s.finish p s.current .timeout).count + (s.finish p s.current .timeout).inCurrent.ncard + 1 =
      s.maxCount := by
  obtain ⟨hfin, hcount⟩ := h.inCurrent
  have hmem : p ∈ s.inCurrent := ⟨true, n, hp⟩
  have heq : (s.finish p s.current .timeout).inCurrent = s.inCurrent \ {p} := by
    ext q
    constructor
    · rintro ⟨timed, m, hq⟩
      obtain ⟨hqp, hw⟩ := waiting_finish.1 hq
      exact ⟨⟨timed, m, hw⟩, hqp⟩
    · rintro ⟨⟨timed, m, hw⟩, hqp⟩
      exact ⟨timed, m, waiting_finish.2 ⟨hqp, hw⟩⟩
  have hcard := Set.ncard_sdiff_singleton_add_one hmem hfin
  rw [heq]
  show s.count + (s.inCurrent \ {p}).ncard + 1 = s.maxCount
  omega

theorem Counted.overdue_iff (h : s.Counted) (hs : step s a = some t) :
    Overdue s a ↔ t.count + t.inCurrent.ncard = t.maxCount := by
  constructor
  · intro ha
    exact (counted_step s a t h ha hs).inCurrent.2
  · intro hcount
    cases Trans.of_step hs with
    | @timeout p n g hp =>
      intro hg
      rw [hp] at hg
      obtain rfl : g = s.current := Option.some.inj hg
      have hlow := h.timeout hp
      have hmax : (s.finish p s.current .timeout).maxCount = s.maxCount := rfl
      omega
    | _ => trivial

/-- A step that trips a generation is the arrival of its last thread. -/
theorem Counted.tripped (h : s.Counted) (hs : step s a = some t) (ht : t.tripped ≠ s.tripped) :
    ∃ p timed, a = .await p timed ∧ p ∉ s.inCurrent ∧ (insert p s.inCurrent).ncard = s.maxCount ∧
      t.tripped = s.current :: s.tripped := by
  cases Trans.of_step hs with
  | @trip p timed hp hz =>
    have hnot : p ∉ s.inCurrent := by
      rintro ⟨timed', m, hw⟩
      rw [hp] at hw
      cases hw
    obtain ⟨hfin, hcount⟩ := h.inCurrent
    have hpos := h.pos
    refine ⟨p, timed, rfl, hnot, ?_, rfl⟩
    rw [Set.ncard_insert_of_notMem hnot hfin]
    omega
  | _ => exact absurd rfl ht

theorem timed_out_leaves_no_trace {count : ℕ} (hpos : 0 < count) (h : Run step Overdue (create count) as s) :
    (s.inCurrent.Finite ∧ s.count + s.inCurrent.ncard = count) ∧
      (∀ r ∈ s.returned, r.generation ≠ s.current) ∧
      (∀ a t, step s a = some t → t.tripped ≠ s.tripped → ∃ p timed, a = .await p timed ∧
        p ∉ s.inCurrent ∧ (insert p s.inCurrent).ncard = count ∧ t.tripped = s.current :: s.tripped) ∧
      ∀ a t, step s a = some t → (Overdue s a ↔ t.count + t.inCurrent.ncard = count) := by
  have hindexed : s.Indexed count := h.free.invariant indexed_step (I := Indexed count) ⟨rfl, rfl⟩
  obtain ⟨hc, hpast⟩ := h.invariant (past_step.and counted_step) ⟨.create hpos, fun r hr => by cases hr⟩
  obtain ⟨hfin, hcount⟩ := hc.inCurrent
  rw [hindexed.1] at hcount
  refine ⟨⟨hfin, hcount⟩, fun r hr => (hpast r hr).2, ?_, ?_⟩
  · intro a t hs ht
    have htrip := hc.tripped hs ht
    rwa [hindexed.1] at htrip
  · intro a t hs
    have hiff := hc.overdue_iff hs
    rwa [(indexed_step s a t hindexed trivial hs).1] at hiff

/-- A wait ends with its timeout code after its generation has tripped. -/
theorem timed_out_leaves_no_trace_two : ∃ s : Barrier, Run step Overdue (create 2)
    [.await 0 true, .await 1 false, .timeout 0, .await 2 true] s ∧ s.inCurrent.ncard = 1 := by
  refine exists_run (I := fun s => s.count = 1) (by decide) fun s hrun hone => ?_
  obtain ⟨⟨-, hcount⟩, -⟩ := timed_out_leaves_no_trace Nat.two_pos hrun
  omega

/-- Of two parties the first times out, and the second trips the barrier on its own. -/
theorem timed_out_counts : ¬ ∀ (count : ℕ) (as : List BarrierAct) (s t : Barrier) (a : BarrierAct), 0 < count →
    Run step Free (create count) as s → step s a = some t → t.tripped ≠ s.tripped →
      ∃ p timed, a = .await p timed ∧ p ∉ s.inCurrent ∧ (insert p s.inCurrent).ncard = count := by
  intro h
  let s₁ := ((create 2).arrive 0).wait 0 true ⟨0, 0⟩
  let s₂ := s₁.finish 0 ⟨0, 0⟩ .timeout
  have hrun : Run step Free (create 2) [.await 0 true, .timeout 0] s₂ :=
    .cons trivial rfl (.cons trivial rfl (.nil s₂))
  have hnone : s₂.inCurrent = ∅ := by
    refine Set.eq_empty_of_forall_notMem ?_
    rintro q ⟨timed, m, hq⟩
    obtain ⟨hq0, hw⟩ := waiting_finish.1 hq
    rcases waiting_wait.1 hw with ⟨hq0', -⟩ | ⟨-, hw⟩
    · exact hq0 hq0'
    · cases hw
  obtain ⟨p, timed, -, -, hcard⟩ := h 2 _ s₂ _ (.await 1 false) Nat.two_pos hrun rfl (by decide)
  rw [hnone, insert_empty_eq, Set.ncard_singleton] at hcard
  cases hcard

/-! ## What its threads return -/

/-- A thread that has been broadcast to waits until its own wait ends. -/
theorem Trans.waiting (h : Trans s a t) (hp : s.parties p = .waiting timed g true) (hwake : a ≠ .wake p)
    (htimeout : a ≠ .timeout p) : t.parties p = .waiting timed g true := by
  cases h with
  | @wait q _ hq =>
    refine waiting_wait.2 (.inr ⟨?_, hp⟩)
    rintro rfl
    rw [hp] at hq
    cases hq
  | @trip q _ hq =>
    refine waiting_finish.2 ⟨?_, waiting_notifyAll.2 ⟨rfl, true, hp⟩⟩
    rintro rfl
    rw [hp] at hq
    cases hq
  | again => exact waiting_wait.2 (.inr ⟨fun hq => hwake (by rw [hq]), hp⟩)
  | broken | success => exact waiting_finish.2 ⟨fun hq => hwake (by rw [hq]), hp⟩
  | timeout => exact waiting_finish.2 ⟨fun hq => htimeout (by rw [hq]), hp⟩
  | reset => exact waiting_notifyAll.2 ⟨rfl, true, hp⟩

/-- The barrier index never falls, and the reset index counts the resets. -/
theorem Trans.indices (h : Trans s a t) : s.current.barrierCond ≤ t.current.barrierCond ∧
    t.current.resetIndex = s.current.resetIndex + [a].count .reset := by
  cases h with
  | trip => exact ⟨Nat.le_succ _, rfl⟩
  | _ => exact ⟨Nat.le_refl _, rfl⟩

theorem indices_run (h : Run step Free s as t) : s.current.barrierCond ≤ t.current.barrierCond ∧
    t.current.resetIndex = s.current.resetIndex + as.count .reset := by
  induction h with
  | nil s => exact ⟨Nat.le_refl _, rfl⟩
  | @cons s t u a as _ hs _ ih =>
    obtain ⟨hle, hreset⟩ := (Trans.of_step hs).indices
    refine ⟨hle.trans ih.1, ?_⟩
    rw [ih.2, hreset, Nat.add_assoc, ← List.count_append, List.singleton_append]

theorem waiting_run (h : Run step Free s as t) (hp : s.parties p = .waiting timed g true)
    (hwake : .wake p ∉ as) (htimeout : .timeout p ∉ as) : t.parties p = .waiting timed g true := by
  induction h with
  | nil s => exact hp
  | cons _ hs _ ih =>
    refine ih ((Trans.of_step hs).waiting hp ?_ ?_) ?_ ?_
    · exact fun heq => hwake (heq ▸ List.mem_cons_self)
    · exact fun heq => htimeout (heq ▸ List.mem_cons_self)
    · exact fun hm => hwake (List.mem_cons_of_mem _ hm)
    · exact fun hm => htimeout (List.mem_cons_of_mem _ hm)

/-- A thread whose generation has tripped returns when its wait ends, and succeeds if it is woken and the
    reset index is still its own. -/
theorem Trans.return (h : Trans s a t) (ha : a = .wake p ∨ a = .timeout p) (hp : s.parties p = .waiting timed g n)
    (hg : g.barrierCond < s.current.barrierCond) : ∃ result, t.returned = s.returned ++ [⟨p, g, result⟩] ∧
      (result = .success ↔ a = .wake p ∧ g.resetIndex = s.current.resetIndex) := by
  have hself : ∀ {q : ℕ} {timed' m : Bool} {g' : Generation}, s.parties q = .waiting timed' g' m → q = p →
      g' = g := by
    rintro q timed' m g' hq rfl
    rw [hp] at hq
    cases hq
    rfl
  cases h with
  | wait | trip | reset => rcases ha with ha | ha <;> cases ha
  | @again q _ _ hq =>
    obtain rfl : q = p := by rcases ha with ha | ha <;> cases ha; rfl
    rw [hself hq rfl] at hg
    exact absurd hg (Nat.lt_irrefl _)
  | @broken q _ _ g' hq hr =>
    obtain rfl : q = p := by rcases ha with ha | ha <;> cases ha; rfl
    obtain rfl := hself hq rfl
    exact ⟨.broken, rfl, nofun, fun hres => absurd hres.2 hr⟩
  | @success q _ _ g' hq hne hr =>
    obtain rfl : q = p := by rcases ha with ha | ha <;> cases ha; rfl
    obtain rfl := hself hq rfl
    exact ⟨.success, rfl, fun _ => ⟨rfl, hr⟩, fun _ => rfl⟩
  | @timeout q _ g' hq =>
    obtain rfl : q = p := by rcases ha with ha | ha <;> cases ha; rfl
    obtain rfl := hself hq rfl
    exact ⟨.timeout, rfl, nofun, fun hres => by cases hres.1⟩

/-- From the trip to the end of its wait a thread waits, notified; what it returns depends on the resets in
    between and on how the wait ends. -/
theorem tripped_returns (hs : step s a = some t) (htrip : t.tripped ≠ s.tripped)
    (hp : s.parties p = .waiting timed s.current n) (hrun : Run step Free t bs u) (hwake : .wake p ∉ bs)
    (htimeout : .timeout p ∉ bs) : u.parties p = .waiting timed s.current true ∧
      ∀ b v, b = .wake p ∨ b = .timeout p → step u b = some v → ∃ result,
        v.returned = u.returned ++ [⟨p, s.current, result⟩] ∧
          (result = .success ↔ b = .wake p ∧ .reset ∉ bs) := by
  cases Trans.of_step hs with
  | @trip q timed' hq =>
    have hpt : ((s.arrive q).trip.finish q s.current .success).parties p = .waiting timed s.current true := by
      refine waiting_finish.2 ⟨?_, waiting_notifyAll.2 ⟨rfl, n, hp⟩⟩
      rintro rfl
      rw [hp] at hq
      cases hq
    have hpu := waiting_run hrun hpt hwake htimeout
    obtain ⟨hbarrier, hreset⟩ := indices_run hrun
    refine ⟨hpu, fun b v hb hv => ?_⟩
    obtain ⟨result, hret, hres⟩ := (Trans.of_step hv).return hb hpu hbarrier
    refine ⟨result, hret, hres.trans (and_congr_right fun _ => ?_)⟩
    rw [← List.count_eq_zero, hreset]
    show s.current.resetIndex = s.current.resetIndex + _ ↔ _
    omega
  | _ => exact absurd rfl htrip

/-- A thread that is woken after its generation has tripped. -/
theorem tripped_returns_two : ∃ s t u v : Barrier, step s (.await 1 false) = some t ∧
    Run step Free t [.await 1 true] u ∧ step u (.wake 0) = some v ∧
      ∃ result, v.returned = u.returned ++ [⟨0, ⟨0, 0⟩, result⟩] ∧ result = .success := by
  let s := ((create 2).arrive 0).wait 0 true ⟨0, 0⟩
  let t := (s.arrive 1).trip.finish 1 ⟨0, 0⟩ .success
  let u := (t.arrive 1).wait 1 true ⟨0, 1⟩
  have hrun : Run step Free t [.await 1 true] u := .single trivial rfl
  have ht : step s (.await 1 false) = some t := rfl
  have hwait : s.parties 0 = .waiting true s.current false := rfl
  obtain ⟨-, hret⟩ := tripped_returns ht (by decide) hwait hrun (by decide) (by decide)
  obtain ⟨result, hv, hres⟩ := hret (.wake 0) _ (.inl rfl) rfl
  exact ⟨s, t, u, _, rfl, hrun, rfl, result, hv, hres.2 ⟨rfl, by decide⟩⟩

/-- A call of `Reset()` before the thread has re-acquired the mutex. -/
theorem tripped_broken : ¬ ∀ (count : ℕ) (as bs : List BarrierAct) (s t u v : Barrier) (a b : BarrierAct)
    (p : ℕ) (timed n : Bool), 0 < count → Run step Free (create count) as s → step s a = some t →
      t.tripped ≠ s.tripped → s.parties p = .waiting timed s.current n → Run step Free t bs u →
        .wake p ∉ bs → .timeout p ∉ bs → b = .wake p ∨ b = .timeout p → step u b = some v →
          v.returned = u.returned ++ [⟨p, s.current, .success⟩] := by
  intro h
  let s := ((create 2).arrive 0).wait 0 false ⟨0, 0⟩
  let t := (s.arrive 1).trip.finish 1 ⟨0, 0⟩ .success
  have hs : Run step Free (create 2) [.await 0 false] s := .single trivial rfl
  have hu : Run step Free t [.reset] t.reset := .single trivial rfl
  have hret := h 2 _ _ s t t.reset (t.reset.finish 0 ⟨0, 0⟩ .broken) (.await 1 false) (.wake 0) 0 false false
    Nat.two_pos hs rfl (by decide) rfl hu (by decide) (by decide) (.inl rfl) rfl
  have hne := List.append_cancel_left hret
  cases hne

end Barrier

end Empool
