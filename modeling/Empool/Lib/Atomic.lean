/-
  Linearizable objects.

  A sequential object is given by `spec v o r w`: in the state `v` the operation
  `o` may return `r` and leave `w`.  `Object` is the same object used by several
  callers at once: a call is shown when it begins (`call`) and when it returns
  (`ret`), and it takes effect at one instant between (`Step.act`).  A history of
  an implementation is linearizable if this object can show it.

  An implementation may learn only later at which instant a call has taken
  effect: a timed wait has looked at the object, and whether that look is the one
  that counts is decided when the wait ends.  In `LateStep` a call can be offered
  an answer and settle for it at any time after, provided the answer was right
  when it was offered and has no effect.  `linearizable_of_late`: this shows
  nothing more.
-/
import Empool.Lib.Simulation
import Empool.Lib.Update

namespace Lts

/-- What is seen of the calls: `i` calls `o`, or its call returns `r`. -/
inductive Event (ι O R : Type*) where
  | call (i : ι) (o : O)
  | ret (i : ι) (r : R)
deriving DecidableEq, Repr

/-- Where a caller is. -/
inductive Phase (O R : Type*) where
  | idle
  /-- its call has not taken effect -/
  | called (o : O)
  /-- not either, but at some instant since it began the answer would have been `r` -/
  | offered (o : O) (r : R)
  /-- its call has taken effect, and will return `r` -/
  | done (r : R)
deriving DecidableEq, Repr

/-- In a call of `o` that has not taken effect. -/
def Phase.Pending {O R : Type*} (o : O) : Phase O R → Prop
  | .called o' | .offered o' _ => o' = o
  | .idle | .done _ => False

/-- An object with its callers. -/
structure Object (ι V O R : Type*) where
  val : V
  phase : ι → Phase O R

namespace Object

variable {ι V O R : Type*} [DecidableEq ι]

/-- No call has begun. -/
def init (v : V) : Object ι V O R := ⟨v, fun _ => .idle⟩

/-- The caller `i` goes to `p`. -/
def set (x : Object ι V O R) (i : ι) (p : Phase O R) : Object ι V O R :=
  { x with phase := Function.update x.phase i p }

variable {x : Object ι V O R} {i : ι} {p : Phase O R}

theorem set_of_eq (h : x.phase i = p) : x.set i p = x := by
  subst h
  exact congrArg (Object.mk x.val) (Function.update_eq_self i x.phase)

/-- Each call takes effect at one instant between its beginning and its return. -/
inductive Step (spec : V → O → R → V → Prop) :
    Object ι V O R → List (Event ι O R) → Object ι V O R → Prop
  | call {x : Object ι V O R} {i : ι} {o : O} (hp : x.phase i = .idle) :
      Step spec x [.call i o] (x.set i (.called o))
  | act {x : Object ι V O R} {i : ι} {o : O} {r : R} {w : V} (hp : x.phase i = .called o)
      (hspec : spec x.val o r w) : Step spec x [] { x.set i (.done r) with val := w }
  | ret {x : Object ι V O R} {i : ι} {r : R} (hp : x.phase i = .done r) :
      Step spec x [.ret i r] (x.set i .idle)

/-- The instant may be chosen later, among those at which the call was offered its answer. -/
inductive LateStep (spec : V → O → R → V → Prop) :
    Object ι V O R → List (Event ι O R) → Object ι V O R → Prop
  | call {x : Object ι V O R} {i : ι} {o : O} (hp : x.phase i = .idle) :
      LateStep spec x [.call i o] (x.set i (.called o))
  | act {x : Object ι V O R} {i : ι} {o : O} {r : R} {w : V} (hp : (x.phase i).Pending o)
      (hspec : spec x.val o r w) : LateStep spec x [] { x.set i (.done r) with val := w }
  | offer {x : Object ι V O R} {i : ι} {o : O} {r : R} (hp : (x.phase i).Pending o)
      (hspec : spec x.val o r x.val) : LateStep spec x [] (x.set i (.offered o r))
  | withdraw {x : Object ι V O R} {i : ι} {o : O} {r : R} (hp : x.phase i = .offered o r) :
      LateStep spec x [] (x.set i (.called o))
  | settle {x : Object ι V O R} {i : ι} {o : O} {r : R} (hp : x.phase i = .offered o r) :
      LateStep spec x [] (x.set i (.done r))
  | ret {x : Object ι V O R} {i : ι} {r : R} (hp : x.phase i = .done r) :
      LateStep spec x [.ret i r] (x.set i .idle)

end Object

/-- The object started with `v` can show `h`, and is left with `w`. -/
def Linearizable {ι V O R : Type*} [DecidableEq ι] (spec : V → O → R → V → Prop) (v : V)
    (h : List (Event ι O R)) (w : V) : Prop :=
  ∃ p : ι → Phase O R, Shows (Object.Step spec) (.init v) h ⟨w, p⟩

/-! ## Late instants -/

/-- What a caller is when it is known how its offer ends: it is declined, or the call has taken effect. -/
inductive Phase.Settles {O R : Type*} : Phase O R → Phase O R → Prop
  | idle : Settles .idle .idle
  | called {o : O} : Settles (.called o) (.called o)
  | declined {o : O} {r : R} : Settles (.offered o r) (.called o)
  | accepted {o : O} {r : R} : Settles (.offered o r) (.done r)
  | done {r : R} : Settles (.done r) (.done r)

theorem Phase.Pending.settles {O R : Type*} {o : O} {p : Phase O R} (h : p.Pending o) :
    p.Settles (.called o) := by
  cases p with
  | called o' => cases h; exact .called
  | offered o' r => cases h; exact .declined
  | idle | done => cases h

theorem Phase.Settles.of_idle {O R : Type*} {q : Phase O R} (h : Settles .idle q) : q = .idle := by
  cases h
  rfl

theorem Phase.exists_settles {O R : Type*} (p : Phase O R) : ∃ q, p.Settles q := by
  cases p with
  | idle => exact ⟨_, .idle⟩
  | called o => exact ⟨_, .called⟩
  | offered o r => exact ⟨_, .declined⟩
  | done r => exact ⟨_, .done⟩

namespace Object

variable {ι V O R : Type*} {spec : V → O → R → V → Prop} {x x' y : Object ι V O R} {i : ι} {p : Phase O R} {v w : V}
  {es : List (Event ι O R)}

/-- The same object, when it is known how every offer ends. -/
def Settled (x y : Object ι V O R) : Prop := y.val = x.val ∧ ∀ i, (x.phase i).Settles (y.phase i)

theorem exists_settled (x : Object ι V O R) : ∃ y, x.Settled y :=
  ⟨⟨x.val, fun i => (x.phase i).exists_settles.choose⟩, rfl, fun i => (x.phase i).exists_settles.choose_spec⟩

theorem Settled.eq_init (h : (init v : Object ι V O R).Settled y) : y = init v := by
  obtain ⟨val, phase⟩ := y
  obtain ⟨hval, hphase⟩ := h
  cases (show val = v from hval)
  refine congrArg (Object.mk v) (funext fun i => ?_)
  exact (hphase i).of_idle

variable [DecidableEq ι]

/-- The caller `i` has moved to `p`: how it stands in the end, and what the object was before. -/
theorem Settled.before (h : Settled { x.set i p with val := w } y) : ∃ p', p.Settles p' ∧
    ∀ q, (x.phase i).Settles q → ∃ z, x.Settled z ∧ z.phase i = q ∧ y = { z.set i p' with val := w } := by
  obtain ⟨val, phase⟩ := y
  obtain ⟨hval, hphase⟩ := h
  cases (show val = w from hval)
  refine ⟨phase i, ?_, fun q hq => ⟨⟨x.val, Function.update phase i q⟩, ⟨rfl, fun j => ?_⟩, ?_, ?_⟩⟩
  · have hi := hphase i
    rwa [show (x.set i p).phase i = p from Function.update_self ..] at hi
  · refine update_of (P := fun p' => (x.phase j).Settles p') (fun hj => hj ▸ hq) fun hj => ?_
    have hother := hphase j
    rwa [show (x.set i p).phase j = x.phase j from Function.update_of_ne hj ..] at hother
  · exact Function.update_self ..
  · show Object.mk w phase = ⟨w, Function.update (Function.update phase i q) i (phase i)⟩
    rw [Function.update_idem, Function.update_eq_self]

/-- One step back: the object takes the step now, or it has taken it when the offer was made. -/
theorem settled_back (hs : LateStep spec x es x') (hy : x'.Settled y) :
    ∃ z, x.Settled z ∧ Shows (Step spec) z es y := by
  cases hs with
  | call hp =>
    obtain ⟨_, ⟨⟩, hbefore⟩ := Settled.before hy
    obtain ⟨z, hz, hzp, rfl⟩ := hbefore .idle (hp ▸ .idle)
    exact ⟨z, hz, .single (hz.1 ▸ .call hzp)⟩
  | act hp hspec =>
    obtain ⟨_, ⟨⟩, hbefore⟩ := hy.before
    obtain ⟨z, hz, hzp, rfl⟩ := hbefore _ hp.settles
    exact ⟨z, hz, .single (.act hzp (hz.1 ▸ hspec))⟩
  | offer hp hspec =>
    obtain ⟨_, hend, hbefore⟩ := Settled.before hy
    obtain ⟨z, hz, hzp, rfl⟩ := hbefore _ hp.settles
    cases hend with
    | declined => exact ⟨z, hz, by rw [← hz.1, set_of_eq hzp]; exact .refl z⟩
    | accepted => exact ⟨z, hz, .single (.act hzp (hz.1.symm ▸ hspec))⟩
  | @withdraw i o r hp =>
    obtain ⟨_, ⟨⟩, hbefore⟩ := Settled.before hy
    obtain ⟨z, hz, hzp, rfl⟩ := hbefore (.called o) (hp ▸ .declined)
    exact ⟨z, hz, by rw [← hz.1, set_of_eq hzp]; exact .refl z⟩
  | @settle i o r hp =>
    obtain ⟨_, ⟨⟩, hbefore⟩ := Settled.before hy
    obtain ⟨z, hz, hzp, rfl⟩ := hbefore (.done r) (hp ▸ .accepted)
    exact ⟨z, hz, by rw [← hz.1, set_of_eq hzp]; exact .refl z⟩
  | @ret i r hp =>
    obtain ⟨_, ⟨⟩, hbefore⟩ := Settled.before hy
    obtain ⟨z, hz, hzp, rfl⟩ := hbefore (.done r) (hp ▸ .done)
    exact ⟨z, hz, .single (hz.1 ▸ .ret hzp)⟩

end Object

/-- Instants chosen late are instants. -/
theorem linearizable_of_late {ι V O R : Type*} [DecidableEq ι] {spec : V → O → R → V → Prop} {v : V}
    {es : List (Event ι O R)} {x : Object ι V O R} (h : Shows (Object.LateStep spec) (.init v) es x) :
    Linearizable spec v es x.val := by
  obtain ⟨⟨w, p⟩, hend⟩ := x.exists_settled
  obtain ⟨y, hy, hshows⟩ := h.backward (fun _ _ _ _ => Object.settled_back) hend
  rw [hy.eq_init] at hshows
  exact ⟨p, hend.1 ▸ hshows⟩

end Lts
