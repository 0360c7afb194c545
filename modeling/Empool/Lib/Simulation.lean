/-
  Systems that show events, and simulations between them.

  A step of `R : T → List E → T → Prop` shows the events of its label, and
  `Shows R u es v` says that some steps lead from `u` to `v` and show `es`.

  * `Run.shows`: forward, from a system that keeps its events in its state: if a
    step of it is some steps of `R` between the images, a run of it is too.
  * `Shows.backward`: what a step shows may be explained by looking at where it
    leads, so that a choice can be made as late as one likes.
-/
import Empool.Lib.Run

namespace Lts

variable {S A T U E : Type*}

/-- Steps of `R` that show the events `es`, one after the other. -/
inductive Shows (R : T → List E → T → Prop) : T → List E → T → Prop
  | refl (u : T) : Shows R u [] u
  | tail {u v w : T} {es fs : List E} : Shows R u es v → R v fs w → Shows R u (es ++ fs) w

variable {R : T → List E → T → Prop} {Q : U → List E → U → Prop} {u v w : T} {es fs : List E}

theorem Shows.single (hs : R u es v) : Shows R u es v := .tail (.refl u) hs

theorem Shows.trans (h₁ : Shows R u es v) (h₂ : Shows R v fs w) : Shows R u (es ++ fs) w := by
  induction h₂ with
  | refl => rwa [List.append_nil]
  | tail _ hs ih =>
    rw [← List.append_assoc]
    exact ih.tail hs

/-- Forward simulation by a function: `ev s` are the events up to the state `s`. -/
theorem Run.shows {step : S → A → Option S} {P : S → A → Prop} {J : S → Prop} {f : S → T} {ev : S → List E}
    (hJ : Preserved step P J)
    (hf : ∀ s a t, J s → P s a → step s a = some t → ∃ e, ev t = ev s ++ e ∧ Shows R (f s) e (f t))
    {s t : S} {as : List A} (h : Run step P s as t) (h₀ : J s) :
    ∃ es, ev t = ev s ++ es ∧ Shows R (f s) es (f t) := by
  induction h with
  | nil s => exact ⟨[], (List.append_nil _).symm, .refl _⟩
  | cons hP hstep _ ih =>
    obtain ⟨e, hev, hsim⟩ := hf _ _ _ h₀ hP hstep
    obtain ⟨es, hev', hrest⟩ := ih (hJ _ _ _ h₀ hP hstep)
    exact ⟨e ++ es, by rw [hev', hev, List.append_assoc], hsim.trans hrest⟩

/-- Backward simulation: each step is explained from the end on. -/
theorem Shows.backward {B : T → U → Prop}
    (hB : ∀ u e v v', R u e v → B v v' → ∃ u', B u u' ∧ Shows Q u' e v')
    (h : Shows R u es v) {v' : U} (hv : B v v') : ∃ u', B u u' ∧ Shows Q u' es v' := by
  induction h generalizing v' with
  | refl => exact ⟨v', hv, .refl v'⟩
  | tail _ hs ih =>
    obtain ⟨w', hw, hlast⟩ := hB _ _ _ _ hs hv
    obtain ⟨u', hu, hfirst⟩ := ih hw
    exact ⟨u', hu, hfirst.trans hlast⟩

end Lts
