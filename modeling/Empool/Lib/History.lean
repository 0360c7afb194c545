/-
  Histories of runs.

  `record step f` is the system `step` with a history beside its state: each
  step appends to it what `f` says of the step, and no step reads it.  Its runs
  are the runs of `step` (`Run.record`, `Run.forget`), so that what is proved
  about a history holds of every run; an invariant of `step` is one of the
  recorded system (`Preserved.record`).
-/
import Empool.Lib.Run

namespace Lts

variable {S A H : Type*} {step : S → A → Option S} {f : H → S → A → H} {P : S → A → Prop} {s t : S}
  {g h : H} {a : A} {as : List A}

def record (step : S → A → Option S) (f : H → S → A → H) (p : H × S) (a : A) : Option (H × S) :=
  (step p.2 a).map fun t => (f p.1 p.2 a, t)

theorem record_eq_some : record step f (g, s) a = some (h, t) ↔ step s a = some t ∧ h = f g s a := by
  simp only [record, Option.map_eq_some_iff, Prod.mk.injEq]
  constructor
  · rintro ⟨u, hs, rfl, rfl⟩
    exact ⟨hs, rfl⟩
  · rintro ⟨hs, rfl⟩
    exact ⟨t, hs, rfl, rfl⟩

/-- The run without its history. -/
theorem Run.forget {Q : H × S → A → Prop} (hQ : ∀ g s a, Q (g, s) a → P s a) :
    ∀ {as : List A} {p q : H × S}, Run (record step f) Q p as q → Run step P p.2 as q.2
  | [], _, _, .nil p => .nil p.2
  | _ :: _, (_, _), _, .cons (t := (_, _)) hq hs hrun =>
    .cons (hQ _ _ _ hq) (record_eq_some.1 hs).1 (hrun.forget hQ)

/-- Every run has a history. -/
theorem Run.record (h : Run step P s as t) (g : H) :
    ∃ g', Run (record step f) (fun p a => P p.2 a) (g, s) as (g', t) := by
  induction h generalizing g with
  | nil s => exact ⟨g, .nil (g, s)⟩
  | @cons s t u a as hP hs _ ih =>
    obtain ⟨g', hrun⟩ := ih (f g s a)
    exact ⟨g', .cons hP (record_eq_some.2 ⟨hs, rfl⟩) hrun⟩

theorem Preserved.record {I : S → Prop} {Q : H × S → A → Prop} (hI : Preserved step P I)
    (hQ : ∀ g s a, Q (g, s) a → P s a) : Preserved (Lts.record step f) Q fun p => I p.2 := by
  rintro ⟨g, s⟩ a ⟨h, t⟩ hi hq hs
  exact hI s a t hi (hQ g s a hq) (record_eq_some.1 hs).1

end Lts
