/-
  Gates: a flag that is tested on the way to an action, in a step of its own.

  `inside s c`: in the state `s` the client `c` has passed the test and has not
  acted yet; `acts s a c`: the action `a` is that of `c`.  Setting the flag
  closes the gate, but those inside still act, each of them once
  (`Gate.closed`).
-/
import Empool.Lib.Run

namespace Lts

variable {S A C : Type*} {step : S → A → Option S} {flag : S → Prop} {inside : S → C → Prop}
  {acts : S → A → C → Prop}

/-- The flag is never cleared, nobody gets inside while it is set, and only clients inside act, each of which
    is outside then. -/
structure Gate (step : S → A → Option S) (flag : S → Prop) (inside : S → C → Prop)
    (acts : S → A → C → Prop) : Prop where
  stays : ∀ s a t, step s a = some t → flag s → flag t
  enters : ∀ s a t c, step s a = some t → flag s → inside t c → inside s c
  within : ∀ s a t c, step s a = some t → acts s a c → inside s c
  leaves : ∀ s a t c, step s a = some t → acts s a c → ¬ inside t c

/-- From a state with the flag set on, only the clients inside then act, and each of them once at most. -/
def Closed (step : S → A → Option S) (flag : S → Prop) (inside : S → C → Prop) (acts : S → A → C → Prop) :
    Prop :=
  ∀ s, flag s → ∀ as t, Run step Free s as t → ∀ a u c, step t a = some u → acts t a c →
    inside s c ∧ ∀ bs v b w, Run step Free u bs v → step v b = some w → ¬ acts v b c

/-- No client acts while the flag is set, in any run from a state that meets `init`. -/
def Sealed (step : S → A → Option S) (flag : S → Prop) (acts : S → A → C → Prop) (init : S → Prop) : Prop :=
  ∀ s, init s → ∀ as t, Run step Free s as t → flag t → ∀ a u c, step t a = some u → ¬ acts t a c

theorem Gate.run (h : Gate step flag inside acts) {s t : S} {as : List A} (hrun : Run step Free s as t)
    (hflag : flag s) : flag t ∧ ∀ c, inside t c → inside s c := by
  refine hrun.invariant (I := fun t => flag t ∧ ∀ c, inside t c → inside s c) (fun u a v hu _ hs => ?_)
    ⟨hflag, fun _ hc => hc⟩
  exact ⟨h.stays u a v hs hu.1, fun c hc => hu.2 c (h.enters u a v c hs hu.1 hc)⟩

theorem Gate.closed (h : Gate step flag inside acts) : Closed step flag inside acts := by
  intro s hflag as t hrun a u c hs hact
  obtain ⟨ht, hback⟩ := h.run hrun hflag
  refine ⟨hback c (h.within t a u c hs hact), fun bs v b w hrun' hs' hact' => ?_⟩
  have hu : ¬ inside u c := h.leaves t a u c hs hact
  exact hu ((h.run hrun' (h.stays t a u hs ht)).2 c (h.within v b w c hs' hact'))

end Lts
