/-
  Families of components, when one member changes.

  A system keeps its threads, tasks and queues as families `g : ι → β`, and a
  step replaces `g i` by `x` for a single `i`.  The laws say what follows for an
  arbitrary member `j` from what the step does to the member `i`.
-/
import Mathlib.Logic.Function.Basic

namespace Lts

variable {ι β γ : Type*} [DecidableEq ι] {g : ι → β} {i j : ι} {x : β} {P : β → Prop}

/-- A quantity that the change leaves at the member is left at all members. -/
theorem apply_update_of_eq {f : β → γ} (h : f x = f (g i)) (j : ι) : f (Function.update g i x j) = f (g j) := by
  rw [Function.apply_update (fun _ => f), h]
  exact congrFun (Function.update_eq_self i fun k => f (g k)) j

/-- After the change a member is the new one, or it is as before. -/
theorem cases_update (hj : P (Function.update g i x j)) : j = i ∧ P x ∨ j ≠ i ∧ P (g j) := by
  by_cases hji : j = i
  · subst hji
    rw [Function.update_self] at hj
    exact .inl ⟨rfl, hj⟩
  · rw [Function.update_of_ne hji] at hj
    exact .inr ⟨hji, hj⟩

/-- What a member has after the change it had before, if that is so of the new member. -/
theorem of_update (h : P x → P (g i)) (hj : P (Function.update g i x j)) : P (g j) := by
  rcases cases_update hj with ⟨rfl, hx⟩ | ⟨-, hj⟩
  · exact h hx
  · exact hj

/-- What no member had only the new one can have. -/
theorem eq_of_update (h : ∀ j, ¬ P (g j)) (hj : P (Function.update g i x j)) : j = i :=
  ((cases_update hj).resolve_right fun hold => h j hold.2).1

/-- What a member has it has after the change, or it is the one that changes. -/
theorem update_or (i : ι) (x : β) (hj : P (g j)) : j = i ∨ P (Function.update g i x j) := by
  by_cases hji : j = i
  · exact .inl hji
  · rw [Function.update_of_ne hji]
    exact .inr hj

/-- A member has after the change what the new member has, if it had it before or is the new one. -/
theorem update_of (hx : j = i → P x) (h : j ≠ i → P (g j)) : P (Function.update g i x j) := by
  by_cases hji : j = i
  · subst hji
    rw [Function.update_self]
    exact hx rfl
  · rw [Function.update_of_ne hji]
    exact h hji

end Lts
