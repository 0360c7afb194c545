/-
  No thread is left behind at a `CyclicBarrier`.

  A thread that waits in a generation that is over has been notified, whatever
  the other threads do (`Alert`); so it returns as soon as it runs
  (`leadsTo_idle`).  A generation is over when as many threads have arrived as
  `m_count` says, or at the next `Reset()` (`released`): an arrival lowers the
  count, and only the steps that end the generation raise it.

  A wait that ends with its timeout code leaves the count too low
  (`timed_out_counts`), so that a generation may trip with too few threads.
  That lets the threads that wait go too early, but never too late:
  `await_returns` asks nothing of the timed waits.
-/
import Empool.Barrier.Trip
import Empool.Lib.Fair

namespace Empool

open Lts

namespace Barrier

variable {s t : Barrier} {q : ℕ} {g : Generation} {a : BarrierAct} {timed n : Bool}

/-! ## A generation that is over -/

/-- A thread waits in the current generation, or in an older one and has been notified. -/
structure Alert (s : Barrier) : Prop where
  pos : 0 < s.count
  max : 0 < s.maxCount
  le : ∀ q timed g n, s.parties q = .waiting timed g n → g.Le s.current
  notified : ∀ q timed g n, s.parties q = .waiting timed g n → g ≠ s.current → n = true

theorem Alert.create {count : ℕ} (hpos : 0 < count) : (create count).Alert :=
  ⟨hpos, hpos, fun _ _ _ _ hq => (by cases hq), fun _ _ _ _ hq => (by cases hq)⟩

theorem Alert.finish {r : AwaitResult} {p : ℕ} (h : s.Alert) : (s.finish p g r).Alert :=
  ⟨h.pos, h.max, fun q timed g n hq => h.le q timed g n (waiting_finish.1 hq).2,
    fun q timed g n hq => h.notified q timed g n (waiting_finish.1 hq).2⟩

theorem Alert.wait {p : ℕ} (h : s.Alert) : (s.wait p timed s.current).Alert := by
  refine ⟨h.pos, h.max, fun q timed' g n hq => ?_, fun q timed' g n hq hne => ?_⟩
  · rcases waiting_wait.1 hq with ⟨-, -, rfl, -⟩ | ⟨-, hq⟩
    · exact ⟨Nat.le_refl _, Nat.le_refl _⟩
    · exact h.le q timed' g n hq
  · rcases waiting_wait.1 hq with ⟨-, -, rfl, -⟩ | ⟨-, hq⟩
    · exact absurd rfl hne
    · exact h.notified q timed' g n hq hne

/-- A broadcast with a later generation. -/
theorem Alert.next (h : s.Alert) {c : Generation} (hle : ∀ {g : Generation}, g.Le s.current → g.Le c)
    (hpos : 0 < t.count) (hmax : 0 < t.maxCount) (hc : t.current = c) (hp : t.parties = s.notifyAll.parties) : t.Alert := by
  refine ⟨hpos, hmax, fun q timed g n hq => ?_, fun q timed g n hq _ => ?_⟩ <;> rw [hp] at hq <;>
    obtain ⟨hn, m, hq⟩ := waiting_notifyAll.1 hq
  · exact hc ▸ hle (h.le q timed g m hq)
  · exact hn

theorem alert_step : Preserved step Free Alert := by
  intro s a t h _ hs
  cases Trans.of_step hs with
  | @wait p timed hp hne => exact Alert.wait (s := s.arrive p) ⟨Nat.pos_of_ne_zero hne, h.max, h.le, h.notified⟩
  | @trip p timed hp hz =>
    exact Alert.finish (h.next (t := (s.arrive p).trip) (fun hg => hg.trip.1) h.max h.max rfl rfl)
  | again hp => exact h.wait
  | broken | success | timeout => exact h.finish
  | reset => exact h.next (t := s.reset) (fun hg => hg.reset.1) h.max h.max rfl rfl

/-- The thread waits in an older generation. -/
def Released (q : ℕ) (s : Barrier) : Prop := ∃ timed g n, s.parties q = .waiting timed g n ∧ g ≠ s.current

/-- An older generation stays one. -/
theorem Trans.older (h : Trans s a t) (hle : g.Le s.current) (hne : g ≠ s.current) : g ≠ t.current := by
  cases h with
  | trip => exact hle.trip.2
  | reset => exact hle.reset.2
  | _ => exact hne

/-- The end of its wait is the end of the call. -/
theorem Trans.woken (h : Trans s a t) (ha : a = .wake q ∨ a = .timeout q) (hq : s.parties q = .waiting timed g n)
    (hne : g ≠ s.current) : t.parties q = .idle := by
  cases h with
  | wait | trip | reset => rcases ha with ha | ha <;> cases ha
  | @again p timed' n' hp =>
    obtain rfl : p = q := by rcases ha with ha | ha <;> cases ha; rfl
    rw [hq] at hp
    cases hp
    exact absurd rfl hne
  | @broken p _ _ g' hp | @success p _ _ g' hp | @timeout p _ g' hp =>
    obtain rfl : p = q := by rcases ha with ha | ha <;> cases ha; rfl
    exact Function.update_self ..

/-- A thread that has been let go is so until it returns. -/
theorem Released.trans (hr : Released q s) (h : s.Alert) (ht : Trans s a t) :
    t.parties q = .idle ∨ Released q t ∧ a ≠ .wake q := by
  obtain ⟨timed, g, n, hq, hne⟩ := hr
  by_cases ha : a = .wake q ∨ a = .timeout q
  · exact .inl (ht.woken ha hq hne)
  · obtain rfl := h.notified q timed g n hq hne
    have hkeep := ht.waiting hq (fun hw => ha (.inl hw)) fun hw => ha (.inr hw)
    exact .inr ⟨⟨timed, g, true, hkeep, ht.older (h.le q timed g true hq) hne⟩, fun hw => ha (.inl hw)⟩

/-! ## Runs -/

/-- The end of the thread's wait, once it has been notified. -/
def WakeActs (q : ℕ) : Barrier → BarrierAct → Prop
  | s, .wake p => p = q ∧ ∃ timed g, s.parties q = .waiting timed g true
  | _, _ => False

theorem leadsTo_idle {p : Path step Free} (hV : ∀ k, (p.state k).Alert) (hfair : p.Fair (WakeActs q)) :
    p.LeadsTo (Released q) fun s => s.parties q = .idle := by
  refine hfair.leadsTo hV (fun _ => 0) (fun s a t h hr _ hs => ?_) fun s h hr => .inr ?_
  · refine (hr.trans h (Trans.of_step hs)).imp_right fun ⟨hr', hne⟩ => ⟨hr', Nat.le_refl 0, fun hown => ?_⟩
    cases a with
    | wake p => exact absurd (congrArg BarrierAct.wake hown.1) hne
    | _ => exact hown.elim
  · obtain ⟨timed, g, n, hq, hne⟩ := hr
    obtain rfl := h.notified q timed g n hq hne
    exact ⟨.wake q, s.wake q timed g, ⟨rfl, timed, g, hq⟩, by simp [step, hq]⟩

/-- A call of `Await` begins. -/
def isAwait : Option BarrierAct → Bool
  | some (.await _ _) => true
  | _ => false

/-- The calls of `Await` that begin in the `d` steps from the time `k` on. -/
def arrivals (p : Path step Free) (k : ℕ) : ℕ → ℕ
  | 0 => 0
  | d + 1 => arrivals p k d + if isAwait (p.act (k + d)) then 1 else 0

/-- The thread is not in `Await`, or waits in an older generation. -/
def Loose (q : ℕ) (s : Barrier) : Prop := s.parties q = .idle ∨ Released q s

/-- A thread waits in the current generation, and an arrival lowers the count; or the generation is over. -/
theorem Trans.held (h : Trans s a t) (hpos : 0 < s.count) (hq : ∃ timed n, s.parties q = .waiting timed s.current n) :
    Loose q t ∨ (∃ timed n, t.parties q = .waiting timed t.current n) ∧ a ≠ .reset ∧
      t.count + (if isAwait (some a) then 1 else 0) ≤ s.count := by
  obtain ⟨timed, n, hq⟩ := hq
  have hbusy : ∀ {p}, s.parties p = .idle → q ≠ p := by
    rintro p hp rfl
    rw [hq] at hp
    cases hp
  have hself : s.current.Le s.current := ⟨Nat.le_refl _, Nat.le_refl _⟩
  cases h with
  | @wait p _ hp hne =>
    refine .inr ⟨⟨timed, n, waiting_wait.2 (.inr ⟨hbusy hp, hq⟩)⟩, nofun, ?_⟩
    show s.count - 1 + 1 ≤ s.count
    omega
  | @trip p _ hp hz =>
    refine .inl (.inr ⟨timed, s.current, true, ?_, hself.trip.2⟩)
    exact waiting_finish.2 ⟨hbusy hp, waiting_notifyAll.2 ⟨rfl, n, hq⟩⟩
  | @again p timed' _ hp =>
    refine .inr ⟨?_, nofun, Nat.le_refl _⟩
    by_cases hqp : q = p
    · exact ⟨timed', false, waiting_wait.2 (.inl ⟨hqp, rfl, rfl, rfl⟩)⟩
    · exact ⟨timed, n, waiting_wait.2 (.inr ⟨hqp, hq⟩)⟩
  | @broken p _ _ g' hp | @success p _ _ g' hp | @timeout p _ g' hp =>
    by_cases hqp : q = p
    · subst hqp
      exact .inl (.inl (Function.update_self ..))
    · exact .inr ⟨⟨timed, n, waiting_finish.2 ⟨hqp, hq⟩⟩, nofun, Nat.le_refl _⟩
  | reset =>
    exact .inl (.inr ⟨timed, s.current, true, waiting_notifyAll.2 ⟨rfl, n, hq⟩, hself.reset.2⟩)

/-- After enough arrivals, or a reset, the generation is over. -/
theorem released {p : Path step Free} (hV : ∀ k, (p.state k).Alert) {k d : ℕ}
    (hq : ∃ timed n, (p.state k).parties q = .waiting timed (p.state k).current n) :
    (∃ m, k ≤ m ∧ Loose q (p.state m)) ∨
      (∃ timed n, (p.state (k + d)).parties q = .waiting timed (p.state (k + d)).current n) ∧
        (∀ j < d, p.act (k + j) ≠ some .reset) ∧ (p.state (k + d)).count + arrivals p k d ≤ (p.state k).count := by
  induction d with
  | zero => exact .inr ⟨hq, fun j hj => absurd hj (Nat.not_lt_zero j), Nat.le_refl _⟩
  | succ d ih =>
    rcases ih with hloose | ⟨hheld, hno, hle⟩
    · exact .inl hloose
    have hreset : p.act (k + d) ≠ some .reset → ∀ j < d + 1, p.act (k + j) ≠ some .reset := by
      intro hd j hj
      rcases Nat.lt_succ_iff_lt_or_eq.1 hj with hj | rfl
      · exact hno j hj
      · exact hd
    rcases p.next (k + d) with ⟨hnone, heq⟩ | ⟨a, hact, -, hs⟩
    · refine .inr ⟨by rw [← Nat.add_assoc, heq]; exact hheld, hreset (by rw [hnone]; exact nofun), ?_⟩
      rw [← Nat.add_assoc, heq, arrivals, hnone]
      exact hle
    · rcases (Trans.of_step hs).held (hV _).pos hheld with hloose | ⟨hheld', hne, hlow⟩
      · exact .inl ⟨k + d + 1, Nat.le_add_right k (d + 1), hloose⟩
      · refine .inr ⟨hheld', hreset (by rw [hact]; exact fun h => hne (Option.some.inj h)), ?_⟩
        rw [arrivals, hact]
        show (p.state (k + d + 1)).count + _ ≤ _
        omega

/-- **No thread is left behind**: a thread that waits in an older generation returns; and if, after a time, as many
    threads arrive as the count says then, or `Reset()` is called, then each thread that waits at that time returns,
    whichever generation it waits in. -/
theorem await_returns {count : ℕ} (hpos : 0 < count) {p : Path step Free} (h₀ : p.state 0 = create count)
    (hfair : p.Fair (WakeActs q)) (k : ℕ) :
    (∀ timed g n, (p.state k).parties q = .waiting timed g n → g ≠ (p.state k).current →
      ∃ m, k ≤ m ∧ (p.state m).parties q = .idle) ∧
    ∀ d, ((p.state k).count ≤ arrivals p k d ∨ ∃ j < d, p.act (k + j) = some .reset) →
      ∃ m, k ≤ m ∧ (p.state m).parties q = .idle := by
  have hV : ∀ k, (p.state k).Alert := Path.invariant alert_step (h₀ ▸ .create hpos)
  have holder : ∀ timed g n, (p.state k).parties q = .waiting timed g n → g ≠ (p.state k).current →
      ∃ m, k ≤ m ∧ (p.state m).parties q = .idle :=
    fun timed g n hq hg => leadsTo_idle hV hfair k ⟨timed, g, n, hq, hg⟩
  have hloose : p.LeadsTo (Loose q) fun s => s.parties q = .idle :=
    (Path.leadsTo_of_imp fun _ h => h).or (leadsTo_idle hV hfair)
  refine ⟨holder, fun d hopen => ?_⟩
  cases hq : (p.state k).parties q with
  | idle => exact ⟨k, Nat.le_refl k, hq⟩
  | waiting timed g n =>
    by_cases hg : g = (p.state k).current
    · subst hg
      rcases released (d := d) hV ⟨timed, n, hq⟩ with ⟨m, hkm, hm⟩ | ⟨-, hno, hle⟩
      · obtain ⟨m', hmm', hidle⟩ := hloose m hm
        exact ⟨m', Nat.le_trans hkm hmm', hidle⟩
      · have hlow := (hV (k + d)).pos
        rcases hopen with hmany | ⟨j, hj, hreset⟩
        · omega
        · exact absurd hreset (hno j hj)
    · exact holder timed g n hq hg

/-- The first of two parties, before and after the second has come. -/
theorem await_returns_two : ∃ p : Path step Free, p.state 0 = create 2 ∧
    (p.state 1).parties 0 = .waiting false ⟨0, 0⟩ false ∧ (∃ m, 1 ≤ m ∧ (p.state m).parties 0 = .idle) ∧
    (p.state 2).parties 0 = .waiting false ⟨0, 0⟩ true ∧ ∃ m, 2 ≤ m ∧ (p.state m).parties 0 = .idle := by
  let s := ((create 2).arrive 0).wait 0 false ⟨0, 0⟩
  let t := (s.arrive 1).trip.finish 1 ⟨0, 0⟩ .success
  let u := t.finish 0 ⟨0, 0⟩ .success
  let p : Path step Free := (((Path.rest step Free u).cons (s := t) (a := .wake 0) trivial rfl).cons (s := s)
    (a := .await 1 false) trivial rfl).cons (s := create 2) (a := .await 0 false) trivial rfl
  have hend : p.Rests 3 u := by
    intro m hm
    obtain ⟨d, rfl⟩ := Nat.exists_eq_add_of_le' hm
    exact ⟨rfl, rfl⟩
  have hfair : p.Fair (WakeActs 0) := by
    refine Path.fair_of_rest hend ?_
    rintro ⟨a, v, hown, -⟩
    cases a with
    | wake q =>
      obtain ⟨rfl, timed, g, hq⟩ := hown
      cases hq
    | _ => exact hown
  refine ⟨p, rfl, rfl, (await_returns Nat.two_pos rfl hfair 1).2 1 (.inl ?_), rfl,
    (await_returns Nat.two_pos rfl hfair 2).1 false ⟨0, 0⟩ true rfl ?_⟩
  · show 1 ≤ 0 + 1
    exact Nat.le_refl 1
  · show (⟨0, 0⟩ : Generation) ≠ t.current
    decide

end Barrier

end Empool
