/-
  Threads that share a mutex.

  The threads of a system are a family `g : ι → β`, and `holds x` says that a
  thread in the state `x` is between the `Lock()` and the `Unlock()` of its code.
  `Locked` ties these places to the owner that the mutex records; the laws are
  those of the four ways in which a step can touch either.
-/
import Empool.Lib.Update

namespace Lts

variable {ι β : Type*} {holds : β → Prop} {g : ι → β} {owner : Option ι} {i j : ι} {x : β}

/-- A thread between its `Lock()` and its `Unlock()` is the owner. -/
def Locked (holds : β → Prop) (g : ι → β) (owner : Option ι) : Prop :=
  ∀ i, holds (g i) → owner = some i

theorem Locked.unique (h : Locked holds g owner) (hi : holds (g i)) (hj : holds (g j)) : i = j :=
  Option.some.inj ((h i hi).symm.trans (h j hj))

/-- While the mutex is free, nobody is inside. -/
theorem Locked.not_of_free (h : Locked holds g none) : ¬ holds (g i) := by
  intro hi
  cases h i hi

theorem Locked.map {f : β → β} (h : Locked holds g owner) (hf : ∀ x, holds (f x) → holds x) :
    Locked holds (fun i => f (g i)) owner :=
  fun i hi => h i (hf (g i) hi)

variable [DecidableEq ι]

/-- `Lock()` -/
theorem Locked.lock (h : Locked holds g none) : Locked holds (Function.update g i x) (some i) := by
  intro j hj
  rcases cases_update hj with ⟨rfl, -⟩ | ⟨-, hj⟩
  · rfl
  · exact absurd hj h.not_of_free

/-- `Unlock()` -/
theorem Locked.unlock (h : Locked holds g owner) (hi : holds (g i)) (hx : ¬ holds x) :
    Locked holds (Function.update g i x) none := by
  intro j hj
  rcases cases_update hj with ⟨-, hj⟩ | ⟨hji, hj⟩
  · exact absurd hj hx
  · exact absurd (h.unique hj hi) hji

/-- A statement inside, or one outside. -/
theorem Locked.keep (h : Locked holds g owner) (hx : holds x → holds (g i)) :
    Locked holds (Function.update g i x) owner :=
  fun j hj => h j (of_update hx hj)

end Lts
