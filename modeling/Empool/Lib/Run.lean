/-
  Runs of a system given by a partial step function `step : S → A → Option S`
  (`step s a = some t`: the action `a` is enabled in `s` and leads to `t`).

  `Run step P s as t` says that the actions `as` lead from `s` to `t`, and that
  each of them is taken in a state that meets `P` with it.  With `P` constantly
  true these are all runs; a condition on the steps restricts the runs, and the
  rules below (`Run.invariant`, `Run.invariant_under`, `Run.le_of_steps`) carry what
  one step preserves to what a whole run preserves.
-/
import Mathlib.Logic.Relation
import Mathlib.Order.Basic
import Mathlib.Tactic.SplitIfs

namespace Lts

variable {S A : Type*} {step : S → A → Option S} {P Q : S → A → Prop}

/-- The actions `as` lead from `s` to `t`, every step meeting `P`. -/
inductive Run (step : S → A → Option S) (P : S → A → Prop) : S → List A → S → Prop
  | nil (s : S) : Run step P s [] s
  | cons {s t u : S} {a : A} {as : List A} :
      P s a → step s a = some t → Run step P t as u → Run step P s (a :: as) u

/-- All runs: no condition on the steps. -/
def Free : S → A → Prop := fun _ _ => True

/-- `I` is preserved by every step that meets `P`. -/
def Preserved (step : S → A → Option S) (P : S → A → Prop) (I : S → Prop) : Prop :=
  ∀ s a t, I s → P s a → step s a = some t → I t

/-- `I` is preserved by every step that meets `P` and starts in a state meeting `J`. -/
def PreservedUnder (step : S → A → Option S) (P : S → A → Prop) (J I : S → Prop) : Prop :=
  ∀ s a t, J s → I s → P s a → step s a = some t → I t

theorem Run.append {s t u : S} {as bs : List A} (h : Run step P s as t) (h' : Run step P t bs u) :
    Run step P s (as ++ bs) u := by
  induction h with
  | nil => exact h'
  | cons hP hs _ ih => exact .cons hP hs (ih h')

theorem Run.single {s t : S} {a : A} (hP : P s a) (hs : step s a = some t) :
    Run step P s [a] t := .cons hP hs (.nil t)

theorem Run.imp {s t : S} {as : List A} (hPQ : ∀ s a, P s a → Q s a) (h : Run step P s as t) :
    Run step Q s as t := by
  induction h with
  | nil s => exact .nil s
  | cons hP hs _ ih => exact .cons (hPQ _ _ hP) hs ih

theorem Run.free {s t : S} {as : List A} (h : Run step P s as t) : Run step Free s as t :=
  h.imp fun _ _ _ => trivial

/-- A condition may be changed on the actions that occur. -/
theorem Run.imp_of_mem {s t : S} {as : List A} (h : Run step P s as t)
    (hPQ : ∀ s a, a ∈ as → P s a → Q s a) : Run step Q s as t := by
  induction h with
  | nil s => exact .nil s
  | cons hP hs _ ih =>
    exact .cons (hPQ _ _ (List.mem_cons_self ..) hP) hs
      (ih fun s a ha => hPQ s a (List.mem_cons_of_mem _ ha))

/-- A run of `as ++ bs` passes through a state after `as`. -/
theorem Run.of_append : ∀ {as bs : List A} {s u : S}, Run step P s (as ++ bs) u →
    ∃ t, Run step P s as t ∧ Run step P t bs u
  | [], _, s, _, h => ⟨s, .nil s, h⟩
  | _ :: _, _, _, _, .cons hP hs h => by
    obtain ⟨t, h1, h2⟩ := of_append h
    exact ⟨t, .cons hP hs h1, h2⟩

theorem Run.head {s u : S} {a : A} {as : List A} : Run step P s (a :: as) u →
    ∃ t, step s a = some t
  | .cons _ hs _ => ⟨_, hs⟩

/-! ## Invariants of runs -/

/-- What holds at the start and is preserved by each step holds at the end. -/
theorem Run.invariant {I : S → Prop} (hI : Preserved step P I) {s t : S} {as : List A}
    (h : Run step P s as t) (h₀ : I s) : I t := by
  induction h with
  | nil => exact h₀
  | cons hP hs _ ih => exact ih (hI _ _ _ h₀ hP hs)

theorem PreservedUnder.and {J I : S → Prop} (hI : PreservedUnder step P J I)
    (hJ : Preserved step P J) : Preserved step P fun s => J s ∧ I s :=
  fun s a t h hP hs => ⟨hJ s a t h.1 hP hs, hI s a t h.1 h.2 hP hs⟩

/-- An invariant may use another one at the start of each step. -/
theorem Run.invariant_under {J I : S → Prop} (hJ : Preserved step P J)
    (hI : PreservedUnder step P J I) {s t : S} {as : List A} (h : Run step P s as t) (hj : J s)
    (hi : I s) : I t := (h.invariant (hI.and hJ) ⟨hj, hi⟩).2

theorem Preserved.imp {I : S → Prop} (hQP : ∀ s a, Q s a → P s a) (h : Preserved step P I) :
    Preserved step Q I := fun s a t hi hQ hs => h s a t hi (hQP s a hQ) hs

theorem Preserved.and {J I : S → Prop} (hJ : Preserved step P J) (hI : Preserved step P I) :
    Preserved step P fun s => J s ∧ I s :=
  fun s a t h hP hs => ⟨hJ s a t h.1 hP hs, hI s a t h.2 hP hs⟩

/-- If the states of a run meet `J`, its steps meet what `J` says of them. -/
theorem Run.strengthen {J : S → Prop} (hJ : Preserved step P J)
    (hQ : ∀ s a t, J s → P s a → step s a = some t → Q s a) {s t : S} {as : List A}
    (h : Run step P s as t) (h₀ : J s) : Run step Q s as t := by
  induction h with
  | nil s => exact .nil s
  | cons hP hs _ ih => exact .cons (hQ _ _ _ h₀ hP hs) hs (ih (hJ _ _ _ h₀ hP hs))

/-- A quantity that no step raises is not raised by a run. -/
theorem Run.le_of_steps {J : S → Prop} (hJ : Preserved step P J) {f : S → ℕ}
    (hf : ∀ s a t, J s → P s a → step s a = some t → f t ≤ f s) {s t : S} {as : List A}
    (h : Run step P s as t) (h₀ : J s) : f t ≤ f s := by
  induction h with
  | nil s => exact Nat.le_refl (f s)
  | cons hP hs _ ih => exact Nat.le_trans (ih (hJ _ _ _ h₀ hP hs)) (hf _ _ _ h₀ hP hs)

/-- If each step is a step of another system or leaves its state, a run is a run of that system. -/
theorem Run.refine {T : Type*} {R : T → T → Prop} {J : S → Prop} {f : S → T} (hJ : Preserved step P J)
    (hf : ∀ s a t, J s → P s a → step s a = some t → f t = f s ∨ R (f s) (f t)) {s t : S} {as : List A}
    (h : Run step P s as t) (h₀ : J s) : Relation.ReflTransGen R (f s) (f t) := by
  induction h with
  | nil s => exact .refl
  | cons hP hs _ ih =>
    have hrest := ih (hJ _ _ _ h₀ hP hs)
    rcases hf _ _ _ h₀ hP hs with heq | hstep
    · rwa [heq] at hrest
    · exact .head hstep hrest

/-- If `I` begins only with the actions `p`, a run that ends in `I` has been in `I` since the last of them, or
    all along. -/
theorem Run.since {p : A → Prop} {I J : S → Prop} (hkeep : ∀ s a t, ¬ p a → step s a = some t → I t → I s)
    (hbegin : ∀ s a t, p a → step s a = some t → I t → J t) {s t : S} {as : List A} (h : Run step P s as t)
    (ht : I t) : (I s ∧ ∀ a ∈ as, ¬ p a) ∨
      ∃ as₁ a as₂ u, as = as₁ ++ a :: as₂ ∧ p a ∧ Run step P s (as₁ ++ [a]) u ∧ J u ∧ Run step P u as₂ t ∧
        ∀ a ∈ as₂, ¬ p a := by
  induction h with
  | nil s => exact .inl ⟨ht, fun a ha => by cases ha⟩
  | @cons s u t a as hP hs hrun ih =>
    rcases ih ht with ⟨hu, hno⟩ | ⟨as₁, b, as₂, v, rfl, hb, h₁, hv, h₂, hno⟩
    · by_cases ha : p a
      · exact .inr ⟨[], a, as, u, rfl, ha, .single hP hs, hbegin s a u ha hs hu, hrun, hno⟩
      · exact .inl ⟨hkeep s a u ha hs hu, List.forall_mem_cons.2 ⟨ha, hno⟩⟩
    · exact .inr ⟨a :: as₁, b, as₂, v, rfl, hb, .cons hP hs h₁, hv, h₂, hno⟩

instance (s : S) (a : A) : Decidable (Free s a) := isTrue trivial

/-! ## Executing a list of actions -/

/-- Run the actions one by one, if each is enabled and meets `P`. -/
def exec (step : S → A → Option S) (P : S → A → Prop) [∀ s a, Decidable (P s a)] :
    S → List A → Option S
  | s, [] => some s
  | s, a :: as => if P s a then (step s a).bind fun t => exec step P t as else none

theorem run_of_exec [∀ s a, Decidable (P s a)] {t : S} :
    ∀ {as : List A} {s : S}, exec step P s as = some t → Run step P s as t
  | [], s, h => by
    simp only [exec, Option.some.injEq] at h
    subst h; exact .nil s
  | a :: as, s, h => by
    unfold exec at h
    split_ifs at h with hP
    obtain ⟨u, hs, hu⟩ := Option.bind_eq_some_iff.1 h
    exact .cons hP hs (run_of_exec hu)

/-- An execution that gets through to a state meeting `I` is a run, to a state for which what follows
    from the run and from `I` holds. -/
theorem exists_run [∀ s a, Decidable (P s a)] {I J : S → Prop} {as : List A} {s : S}
    (h : ∃ t ∈ exec step P s as, I t) (hJ : ∀ t, Run step P s as t → I t → J t) :
    ∃ t, Run step P s as t ∧ J t := by
  obtain ⟨t, ht, hI⟩ := h
  have hrun := run_of_exec ht
  exact ⟨t, hrun, hJ t hrun hI⟩

end Lts
