/-
  What happens eventually.

  A `Path` is an infinite run; it may also stand still, so that a run which ends
  is a path too (`Run.exists_path`).  The actions `own` of a thread are treated
  fairly if they do not stay possible for ever without being taken (`Path.Fair`),
  and strongly fairly if they are taken again and again when they are possible
  again and again.

  * `Path.Fair.leadsTo`: while `I` holds some own action is possible, no step
    raises the rank and each own action lowers it, so `I` ends, and it ends in `J`
    (`V` is what holds at all times);
  * `Path.StronglyFair.leadsTo_rank`: the same for an action that others can make
    impossible for a while, as when it waits for a mutex; `leadsTo` and
    `leadsTo_again` are its cases without a rank, and with a time at which the
    action is possible;
  * `Path.LeadsTo.all`: what comes about for each of finitely many and is kept,
    holds for all of them at one time;
  * `Path.map`: the image of a path under a simulation, whose steps are one step
    or none; it is fair if a thread that can go on there can go on here, and does
    not go on for ever without a step there (`Path.StronglyFair.map`);
  * `Path.Rests`: the path stands still from some time on.
-/
import Empool.Lib.Run
import Mathlib.Order.Monotone.Basic

namespace Lts

variable {S A : Type*} {step : S → A → Option S} {P : S → A → Prop} {own : S → A → Prop} {V I J K L : S → Prop}
  {s t u : S} {as bs : List A} {n m : ℕ}

/-- An infinite run; where `act n` is `none` nothing happens. -/
structure Path (step : S → A → Option S) (P : S → A → Prop) where
  state : ℕ → S
  act : ℕ → Option A
  next : ∀ n, (act n = none ∧ state (n + 1) = state n) ∨
    ∃ a, act n = some a ∧ P (state n) a ∧ step (state n) a = some (state (n + 1))

/-- Some own action is possible. -/
def Can (step : S → A → Option S) (own : S → A → Prop) (s : S) : Prop := ∃ a t, own s a ∧ step s a = some t

namespace Path

variable (p : Path step P)

/-- The step taken at the time `n` is an own action. -/
def Takes (own : S → A → Prop) (n : ℕ) : Prop := ∃ a, p.act n = some a ∧ own (p.state n) a

/-- Again and again an own action is taken, or none is possible. -/
def Fair (own : S → A → Prop) : Prop := ∀ n, ∃ m, n ≤ m ∧ (p.Takes own m ∨ ¬ Can step own (p.state m))

/-- If own actions are possible again and again, they are taken again and again. -/
def StronglyFair (own : S → A → Prop) : Prop :=
  (∀ n, ∃ m, n ≤ m ∧ Can step own (p.state m)) → ∀ n, ∃ m, n ≤ m ∧ p.Takes own m

/-- Whenever `I` holds, `J` holds then or later. -/
def LeadsTo (I J : S → Prop) : Prop := ∀ n, I (p.state n) → ∃ m, n ≤ m ∧ J (p.state m)

variable {p}

theorem LeadsTo.trans (h : p.LeadsTo I J) (h' : p.LeadsTo J K) : p.LeadsTo I K := by
  intro n hn
  obtain ⟨m, hnm, hm⟩ := h n hn
  obtain ⟨k, hmk, hk⟩ := h' m hm
  exact ⟨k, Nat.le_trans hnm hmk, hk⟩

theorem LeadsTo.or (h : p.LeadsTo I K) (h' : p.LeadsTo J K) : p.LeadsTo (fun s => I s ∨ J s) K :=
  fun n hn => hn.elim (h n) (h' n)

theorem leadsTo_of_imp (h : ∀ s, I s → J s) : p.LeadsTo I J := fun n hn => ⟨n, Nat.le_refl n, h _ hn⟩

/-! ## What the steps preserve -/

theorem invariant_from (hI : Preserved step P I) (hn : I (p.state n)) (hnm : n ≤ m) : I (p.state m) := by
  induction m, hnm using Nat.le_induction with
  | base => exact hn
  | succ m _ ih =>
    rcases p.next m with ⟨-, heq⟩ | ⟨a, -, hP, hs⟩
    · rwa [heq]
    · exact hI _ _ _ ih hP hs

theorem invariant (hI : Preserved step P I) (h₀ : I (p.state 0)) (n : ℕ) : I (p.state n) :=
  invariant_from hI h₀ (Nat.zero_le n)

/-- Up to `m`, `J` has held, or `I` has been kept and the rank has not been raised. -/
theorem kept {f : S → ℕ} (hV : ∀ n, V (p.state n))
    (hstep : ∀ s a t, V s → I s → P s a → step s a = some t → J t ∨ (I t ∧ f t ≤ f s))
    (hn : I (p.state n)) (hnm : n ≤ m) :
    (∃ k, n ≤ k ∧ J (p.state k)) ∨ (I (p.state m) ∧ f (p.state m) ≤ f (p.state n)) := by
  induction m, hnm using Nat.le_induction with
  | base => exact .inr ⟨hn, Nat.le_refl _⟩
  | succ m hnm ih =>
    rcases ih with hJ | ⟨hI, hle⟩
    · exact .inl hJ
    rcases p.next m with ⟨-, heq⟩ | ⟨a, -, hP, hs⟩
    · exact .inr (heq ▸ ⟨hI, hle⟩)
    · rcases hstep _ _ _ (hV m) hI hP hs with hJ | ⟨hI', hle'⟩
      · exact .inl ⟨m + 1, Nat.le_succ_of_le hnm, hJ⟩
      · exact .inr ⟨hI', Nat.le_trans hle' hle⟩

/-- While `J` is waited for, `K` is kept, or it ends in `L`. -/
theorem LeadsTo.keeping (h : p.LeadsTo I J) (hV : ∀ n, V (p.state n))
    (hK : ∀ s a t, V s → K s → P s a → step s a = some t → L t ∨ K t) :
    p.LeadsTo (fun s => I s ∧ K s) fun s => L s ∨ J s ∧ K s := by
  rintro n ⟨hn, hk⟩
  obtain ⟨m, hnm, hm⟩ := h n hn
  have hkept := kept (f := fun _ => 0) hV
    (fun s a t hv hs ha hst => (hK s a t hv hs ha hst).imp id fun h => ⟨h, Nat.le_refl 0⟩) hk hnm
  rcases hkept with ⟨k, hnk, hL⟩ | ⟨hk', -⟩
  · exact ⟨k, hnk, .inl hL⟩
  · exact ⟨m, hnm, .inr ⟨hm, hk'⟩⟩

/-- What is kept by the steps holds from then on. -/
theorem stays (hV : ∀ n, V (p.state n)) (hI : ∀ s a t, V s → I s → P s a → step s a = some t → I t)
    (hn : I (p.state n)) (hnm : n ≤ m) : I (p.state m) := by
  have hkept := kept (J := fun _ => False) (f := fun _ => 0) hV
    (fun s a t hv hs ha hst => .inr ⟨hI s a t hv hs ha hst, Nat.le_refl 0⟩) hn hnm
  rcases hkept with ⟨_, _, hfalse⟩ | ⟨hI, -⟩
  · exact hfalse.elim
  · exact hI

/-- What comes about for each of finitely many and is kept, holds for all of them at one time. -/
theorem LeadsTo.all {Q : ℕ → S → Prop} {N : ℕ} (hV : ∀ n, V (p.state n))
    (hQ : ∀ k s a t, V s → Q k s → P s a → step s a = some t → Q k t) (h : ∀ k < N, p.LeadsTo I (Q k)) :
    p.LeadsTo I fun s => ∀ k < N, Q k s := by
  intro n hn
  induction N with
  | zero => exact ⟨n, Nat.le_refl n, fun k hk => absurd hk (Nat.not_lt_zero k)⟩
  | succ N ih =>
    obtain ⟨m, hnm, hm⟩ := ih fun k hk => h k (Nat.lt_succ_of_lt hk)
    obtain ⟨m', hnm', hm'⟩ := h N (Nat.lt_succ_self N) n hn
    refine ⟨max m m', Nat.le_trans hnm (Nat.le_max_left m m'), fun k hk => ?_⟩
    rcases Nat.lt_succ_iff_lt_or_eq.1 hk with hk | rfl
    · exact stays hV (hQ k) (hm k hk) (Nat.le_max_left m m')
    · exact stays hV (hQ k) hm' (Nat.le_max_right m m')

/-! ## Progress -/

/-- The own actions lower the rank, and one of them is possible until `J` holds. -/
theorem Fair.leadsTo (hfair : p.Fair own) (hV : ∀ n, V (p.state n)) (f : S → ℕ)
    (hstep : ∀ s a t, V s → I s → P s a → step s a = some t → J t ∨ (I t ∧ f t ≤ f s ∧ (own s a → f t < f s)))
    (hcan : ∀ s, V s → I s → J s ∨ Can step own s) : p.LeadsTo I J := by
  intro n hn
  -- by induction on the rank
  induction hr : f (p.state n) using Nat.strong_induction_on generalizing n with
  | _ r ih =>
    obtain ⟨m, hnm, hm⟩ := hfair n
    have hkept := kept hV (fun s a t hv hs ha hst => (hstep s a t hv hs ha hst).imp id fun h => ⟨h.1, h.2.1⟩) hn hnm
    rcases hkept with hJ | ⟨hI, hle⟩
    · exact hJ
    rcases hm with ⟨a, hact, hown⟩ | hno
    · rcases p.next m with ⟨hnone, -⟩ | ⟨b, hact', hP, hs⟩
      · rw [hact] at hnone; cases hnone
      · cases hact.symm.trans hact'
        rcases hstep _ _ _ (hV m) hI hP hs with hJ | ⟨hI', -, hlt⟩
        · exact ⟨m + 1, Nat.le_succ_of_le hnm, hJ⟩
        · obtain ⟨k, hmk, hk⟩ := ih _ (by have := hlt hown; omega) (m + 1) hI' rfl
          exact ⟨k, by omega, hk⟩
    · exact ⟨m, hnm, (hcan _ (hV m) hI).resolve_right hno⟩

/-- The own actions lower the rank, and one of them becomes possible again and again until `J` holds. -/
theorem StronglyFair.leadsTo_rank (hfair : p.StronglyFair own) (hV : ∀ n, V (p.state n)) (f : S → ℕ)
    (hstep : ∀ s a t, V s → I s → P s a → step s a = some t → J t ∨ (I t ∧ f t ≤ f s ∧ (own s a → f t < f s)))
    (hcan : p.LeadsTo I fun s => J s ∨ Can step own s) : p.LeadsTo I J := by
  intro n hn
  -- by induction on the rank
  induction hr : f (p.state n) using Nat.strong_induction_on generalizing n with
  | _ r ih =>
    by_contra hno
    have hI : ∀ m, n ≤ m → I (p.state m) ∧ f (p.state m) ≤ f (p.state n) := fun m hnm =>
      (kept hV (fun s a t hv hs ha hst => (hstep s a t hv hs ha hst).imp id fun h => ⟨h.1, h.2.1⟩) hn
        hnm).resolve_left hno
    obtain ⟨m, hnm, a, hact, hown⟩ := hfair (fun k => by
      obtain ⟨m, hm, hJ | hcan⟩ := hcan (max n k) (hI _ (Nat.le_max_left n k)).1
      · exact absurd ⟨m, by omega, hJ⟩ hno
      · exact ⟨m, by omega, hcan⟩) n
    rcases p.next m with ⟨hnone, -⟩ | ⟨b, hact', hP, hs⟩
    · rw [hact] at hnone; cases hnone
    · cases hact.symm.trans hact'
      obtain ⟨hIm, hle⟩ := hI m hnm
      rcases hstep _ _ _ (hV m) hIm hP hs with hJ | ⟨hI', -, hlt⟩
      · exact hno ⟨m + 1, Nat.le_succ_of_le hnm, hJ⟩
      · obtain ⟨k, hmk, hk⟩ := ih _ (by have := hlt hown; omega) (m + 1) hI' rfl
        exact hno ⟨k, by omega, hk⟩

/-- An own action ends `I`, and becomes possible again and again. -/
theorem StronglyFair.leadsTo (hfair : p.StronglyFair own) (hV : ∀ n, V (p.state n))
    (hstep : ∀ s a t, V s → I s → P s a → step s a = some t → J t ∨ (I t ∧ ¬ own s a))
    (hcan : p.LeadsTo I fun s => J s ∨ Can step own s) : p.LeadsTo I J := by
  refine hfair.leadsTo_rank hV (fun _ => 0) (fun s a t hv hs ha hst => ?_) hcan
  exact (hstep s a t hv hs ha hst).imp id fun h => ⟨h.1, Nat.le_refl 0, fun hown => absurd hown h.2⟩

/-- Where `K` holds an own action is possible, and `K` holds again and again. -/
theorem StronglyFair.leadsTo_again (hfair : p.StronglyFair own) (hV : ∀ n, V (p.state n)) (f : S → ℕ)
    (hstep : ∀ s a t, V s → I s → P s a → step s a = some t → J t ∨ (I t ∧ f t ≤ f s ∧ (own s a → f t < f s)))
    (hK : p.LeadsTo (fun _ => True) K) (hcan : ∀ s, V s → I s → K s → J s ∨ Can step own s) : p.LeadsTo I J := by
  refine hfair.leadsTo_rank hV f hstep fun n hn => ?_
  obtain ⟨m, hnm, hm⟩ := hK n trivial
  have hkept := kept hV (fun s a t hv hs ha hst => (hstep s a t hv hs ha hst).imp id fun h => ⟨h.1, h.2.1⟩) hn hnm
  rcases hkept with ⟨k, hnk, hJ⟩ | ⟨hI, -⟩
  · exact ⟨k, hnk, .inl hJ⟩
  · exact ⟨m, hnm, hcan _ (hV m) hI hm⟩

theorem StronglyFair.fair (hfair : p.StronglyFair own) : p.Fair own := by
  intro n
  by_cases hno : ∃ m, n ≤ m ∧ ¬ Can step own (p.state m)
  · obtain ⟨m, hnm, hm⟩ := hno
    exact ⟨m, hnm, .inr hm⟩
  · simp only [not_exists, not_and, not_not] at hno
    obtain ⟨m, hnm, hm⟩ := hfair (fun k => ⟨max n k, Nat.le_max_right n k, hno _ (Nat.le_max_left n k)⟩) n
    exact ⟨m, hnm, .inl hm⟩

/-- The steps of the path may meet another condition as well. -/
def strengthen {Q : S → A → Prop} (p : Path step P)
    (h : ∀ n a, p.act n = some a → P (p.state n) a → step (p.state n) a = some (p.state (n + 1)) → Q (p.state n) a) :
    Path step Q where
  state := p.state
  act := p.act
  next n := (p.next n).imp id fun ⟨a, hact, hP, hs⟩ => ⟨a, hact, h n a hact hP hs, hs⟩

/-- The path from the time `k` on. -/
def drop (p : Path step P) (k : ℕ) : Path step P where
  state n := p.state (k + n)
  act n := p.act (k + n)
  next n := p.next (k + n)

theorem Fair.drop (hfair : p.Fair own) (k : ℕ) : (p.drop k).Fair own := by
  intro n
  obtain ⟨m, hnm, hm⟩ := hfair (k + n)
  obtain ⟨d, rfl⟩ := Nat.exists_eq_add_of_le hnm
  exact ⟨n + d, Nat.le_add_right n d, by rw [Nat.add_assoc] at hm; exact hm⟩

theorem StronglyFair.drop (hfair : p.StronglyFair own) (k : ℕ) : (p.drop k).StronglyFair own := by
  intro hcan n
  have hcan' : ∀ n, ∃ m, n ≤ m ∧ Can step own (p.state m) := by
    intro n
    obtain ⟨m, hnm, hm⟩ := hcan n
    exact ⟨k + m, Nat.le_trans hnm (Nat.le_add_left m k), hm⟩
  obtain ⟨m, hnm, hm⟩ := hfair hcan' (k + n)
  obtain ⟨d, rfl⟩ := Nat.exists_eq_add_of_le hnm
  exact ⟨n + d, Nat.le_add_right n d, by rw [Nat.add_assoc] at hm; exact hm⟩

/-! ## Simulations -/

section
variable {T B : Type*} {step' : T → B → Option T} {Q : T → B → Prop} {own' : T → B → Prop} {f : S → T}
  {g : S → A → Option B}

/-- Each step is one step `g s a` between the images, or none. -/
def Maps (step : S → A → Option S) (P : S → A → Prop) (step' : T → B → Option T) (Q : T → B → Prop) (f : S → T)
    (g : S → A → Option B) : Prop :=
  ∀ s a t, P s a → step s a = some t →
    (g s a = none ∧ f t = f s) ∨ ∃ b, g s a = some b ∧ Q (f s) b ∧ step' (f s) b = some (f t)

/-- The image of the path. -/
def map (p : Path step P) (h : Maps step P step' Q f g) : Path step' Q where
  state n := f (p.state n)
  act n := (p.act n).bind (g (p.state n))
  next n := by
    rcases p.next n with ⟨hnone, heq⟩ | ⟨a, hact, hP, hs⟩
    · exact .inl ⟨by rw [hnone]; rfl, by rw [heq]⟩
    · rw [hact]
      exact h _ _ _ hP hs

/-- The own actions of the image are possible only with own actions, and these lower the rank until one of them
    is an action of the image. -/
theorem StronglyFair.map (hfair : p.StronglyFair own) (hV : ∀ n, V (p.state n)) {r : S → ℕ} {h : Maps step P step' Q f g}
    (hcan : ∀ s, V s → Can step' own' (f s) → Can step own s)
    (hstep : ∀ s a t, V s → P s a → step s a = some t →
      (∃ b, g s a = some b ∧ own' (f s) b) ∨ (r t ≤ r s ∧ (own s a → r t < r s))) :
    (p.map h).StronglyFair own' := by
  intro hcan' n
  by_contra hno
  -- from the time `n` on there is no own action of the image
  let q := (p.drop n).strengthen (Q := fun s a => P s a ∧ ¬ ∃ b, g s a = some b ∧ own' (f s) b)
    fun m a hact hP _ => ⟨hP, fun ⟨b, hb, hown⟩ => hno ⟨n + m, Nat.le_add_right n m, b,
      Option.bind_eq_some_iff.2 ⟨a, hact, hb⟩, hown⟩⟩
  have hfalse : q.LeadsTo (fun _ => True) fun _ => False := by
    refine StronglyFair.leadsTo_rank (p := q) (hfair.drop n) (fun m => hV (n + m)) r
      (fun s a t hv _ ⟨hP, hout⟩ hs => .inr ⟨trivial, (hstep s a t hv hP hs).resolve_left hout⟩) fun m _ => ?_
    obtain ⟨k, hk, hc⟩ := hcan' (n + m)
    obtain ⟨d, rfl⟩ := Nat.exists_eq_add_of_le hk
    rw [Nat.add_assoc] at hc
    exact ⟨m + d, Nat.le_add_right m d, .inr (hcan _ (hV _) hc)⟩
  exact (hfalse 0 trivial).elim fun _ h => h.2

end

/-! ## Runs that end -/

/-- The path begins with `a`. -/
def cons (p : Path step P) (hP : P s a) (hs : step s a = some (p.state 0)) : Path step P where
  state n := n.casesOn s p.state
  act n := n.casesOn (some a) p.act
  next n := by
    cases n with
    | zero => exact .inr ⟨a, rfl, hP, hs⟩
    | succ n => exact p.next n

/-- Nothing happens in `s`. -/
def rest (step : S → A → Option S) (P : S → A → Prop) (s : S) : Path step P where
  state _ := s
  act _ := none
  next _ := .inl ⟨rfl, rfl⟩

/-- From the time `n` on the path stands still in `t`. -/
def Rests (p : Path step P) (n : ℕ) (t : S) : Prop := ∀ m, n ≤ m → p.state m = t ∧ p.act m = none

/-- Where nothing is possible in the end, everything is fair. -/
theorem fair_of_rest (h : p.Rests n t) (hno : ¬ Can step own t) : p.Fair own :=
  fun k => ⟨max n k, Nat.le_max_right n k, .inr ((h _ (Nat.le_max_left n k)).1 ▸ hno)⟩

theorem stronglyFair_of_rest (h : p.Rests n t) (hno : ¬ Can step own t) : p.StronglyFair own := by
  intro hcan
  obtain ⟨m, hnm, hm⟩ := hcan n
  exact absurd ((h m hnm).1 ▸ hm) hno

end Path

/-- A run through `t` to `u` is a path that rests in `u`. -/
theorem Run.exists_path (h : Run step P s as t) (h' : Run step P t bs u) : ∃ p : Path step P,
    p.state 0 = s ∧ p.state as.length = t ∧ p.Rests (as ++ bs).length u := by
  have hcons : ∀ {p : Path step P} {s v : S} {a : A} {cs : List A} (hP : P s a) (hs : step s a = some (p.state 0)),
      p.Rests cs.length v → (p.cons hP hs).Rests (a :: cs).length v := by
    intro p s v a cs hP hs hp n hn
    cases n with
    | zero => cases hn
    | succ n => exact hp n (Nat.le_of_succ_le_succ hn)
  induction h with
  | nil s =>
    have hrest : ∃ p : Path step P, p.state 0 = s ∧ p.Rests bs.length u := by
      induction h' with
      | nil s => exact ⟨.rest step P s, rfl, fun _ _ => ⟨rfl, rfl⟩⟩
      | cons hP hs _ ih =>
        obtain ⟨p, rfl, hp⟩ := ih
        exact ⟨p.cons hP hs, rfl, hcons hP hs hp⟩
    obtain ⟨p, h₀, hp⟩ := hrest
    exact ⟨p, h₀, h₀, hp⟩
  | cons hP hs _ ih =>
    obtain ⟨p, rfl, hmid, hp⟩ := ih h'
    exact ⟨p.cons hP hs, rfl, hmid, hcons hP hs hp⟩

end Lts
