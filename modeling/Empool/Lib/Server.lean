/-
  A server with an order of service.

  Elements enter and are served one by one; `first x y` says that `x` may be
  served while `y` waits.  The server keeps no order of arrival: it may serve any
  element that is first among those that wait (`Step`).

  * `balance`: what has entered has been served or waits, as often as it entered;
  * `sorted`: as long as nothing enters, the elements are served in order.
-/
import Empool.Lib.Simulation
import Mathlib.Data.Multiset.AddSub

namespace Server

open Lts

variable {α : Type*} {first : α → α → Prop} {m n : Multiset α}

inductive Event (α : Type*) where
  | enter (x : α)
  | serve (x : α)
deriving DecidableEq, Repr

/-- The element that the event says has entered. -/
def Event.entered : Event α → Option α
  | .enter x => some x
  | .serve _ => none

/-- The element that the event says has been served. -/
def Event.served : Event α → Option α
  | .enter _ => none
  | .serve x => some x

/-- What has entered, in order. -/
def entered (es : List (Event α)) : List α := es.filterMap Event.entered

/-- What has been served, in order. -/
def served (es : List (Event α)) : List α := es.filterMap Event.served

variable {es fs : List (Event α)} {x : α}

@[simp] theorem entered_append : entered (es ++ fs) = entered es ++ entered fs := List.filterMap_append

@[simp] theorem served_append : served (es ++ fs) = served es ++ served fs := List.filterMap_append

/-- The elements that wait, before and after an event. -/
inductive Step (first : α → α → Prop) : Multiset α → List (Event α) → Multiset α → Prop
  | enter (m : Multiset α) (x : α) : Step first m [.enter x] (x ::ₘ m)
  | serve {m : Multiset α} {x : α} (hx : ∀ y ∈ m, first x y) : Step first (x ::ₘ m) [.serve x] m

theorem balance (h : Shows (Step first) m es n) : (served es : Multiset α) + n = m + (entered es : Multiset α) := by
  induction h with
  | refl => exact Multiset.add_comm 0 m
  | tail _ hs ih =>
    rw [served_append, entered_append, ← Multiset.coe_add, ← Multiset.coe_add]
    cases hs with
    | enter _ x =>
      rw [show served [Event.enter x] = [] from rfl, show entered [Event.enter x] = [x] from rfl, Multiset.coe_nil,
        Multiset.add_zero, Multiset.add_cons, ih, Multiset.coe_singleton, ← Multiset.singleton_add,
        Multiset.add_comm {x}, Multiset.add_assoc]
    | @serve _ x hx =>
      rw [show served [Event.serve x] = [x] from rfl, show entered [Event.serve x] = [] from rfl, Multiset.coe_nil,
        Multiset.add_zero, Multiset.coe_singleton, Multiset.add_assoc, Multiset.singleton_add, ih]

/-- While nothing enters, each element that is served comes before those served later, and those left. -/
theorem sorted_before (h : Shows (Step first) m es n) (hno : entered es = []) :
    (served es).Pairwise first ∧ ∀ x ∈ served es, ∀ y ∈ n, first x y := by
  induction h with
  | refl => exact ⟨.nil, nofun⟩
  | tail _ hs ih =>
    rw [entered_append, List.append_eq_nil_iff] at hno
    obtain ⟨hsorted, hbefore⟩ := ih hno.1
    cases hs with
    | enter _ x => cases hno.2
    | @serve _ x hx =>
      rw [served_append]
      refine ⟨List.pairwise_append.2 ⟨hsorted, List.pairwise_singleton .., fun y hy z hz => ?_⟩, fun y hy z hz => ?_⟩
      · cases List.mem_singleton.1 hz
        exact hbefore y hy x (Multiset.mem_cons_self ..)
      · rcases List.mem_append.1 hy with hy | hy
        · exact hbefore y hy z (Multiset.mem_cons_of_mem hz)
        · cases List.mem_singleton.1 hy
          exact hx z hz

theorem sorted (h : Shows (Step first) m es n) (hno : entered es = []) : (served es).Pairwise first :=
  (sorted_before h hno).1

end Server
