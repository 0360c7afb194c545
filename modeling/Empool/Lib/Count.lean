/-
  Counting the indices of a family that have a property, when one member of the
  family changes.

  `l.countP (p ∘ f)` counts the indices `i` in `l` with `p (f i)`.  The family
  `f : ℕ → α` is a map of threads, messages or cells, and a step of a system
  replaces `f i` by `x` for a single `i`: the count then changes by what `p`
  says of the old and the new value.
-/
import Empool.Lib.Update
import Mathlib.Data.List.Count
import Mathlib.Data.List.Perm.Subperm
import Mathlib.Data.List.Nodup
import Mathlib.Algebra.Order.BigOperators.Group.Finset
import Mathlib.Algebra.BigOperators.Group.Finset.Piecewise

namespace Lts

variable {α : Type*} {p : α → Bool} {f : ℕ → α} {i : ℕ} {x : α}

/-- Indices that do not occur in the list do not matter. -/
theorem countP_update_of_notMem {l : List ℕ} (hi : i ∉ l) :
    l.countP (p ∘ Function.update f i x) = l.countP (p ∘ f) := by
  refine List.countP_congr fun j hj => ?_
  have hji : j ≠ i := fun h => hi (h ▸ hj)
  simp [Function.update_of_ne hji]

/-- A change that `p` does not see does not change the count. -/
theorem countP_update_of_eq (l : List ℕ) (h : p x = p (f i)) :
    l.countP (p ∘ Function.update f i x) = l.countP (p ∘ f) := by
  refine List.countP_congr fun j _ => ?_
  rw [Function.comp_apply, Function.comp_apply, apply_update_of_eq h]

/-- The member that changes is counted apart from the others. -/
theorem countP_update {l : List ℕ} (hl : l.Nodup) (hi : i ∈ l) :
    l.countP (p ∘ Function.update f i x) + (p (f i)).toNat = l.countP (p ∘ f) + (p x).toNat := by
  induction l with
  | nil => cases hi
  | cons j l ih =>
    obtain ⟨hj, hl⟩ := List.nodup_cons.1 hl
    by_cases hji : j = i
    · subst hji
      rw [List.countP_cons, List.countP_cons, countP_update_of_notMem hj]
      cases hx : p x <;> cases hf : p (f j) <;> simp [hx, hf]
    · have hi' : i ∈ l := (List.mem_cons.1 hi).resolve_left fun h => hji h.symm
      have := ih hl hi'
      rw [List.countP_cons, List.countP_cons, Function.comp_apply, Function.comp_apply,
        Function.update_of_ne hji]
      omega

/-- One change costs the count at most one. -/
theorem countP_le_update {l : List ℕ} (hl : l.Nodup) :
    l.countP (p ∘ f) ≤ l.countP (p ∘ Function.update f i x) + 1 := by
  by_cases hi : i ∈ l
  · have := countP_update (p := p) (f := f) (x := x) hl hi
    have : (p (f i)).toNat ≤ 1 := Bool.toNat_le _
    omega
  · rw [countP_update_of_notMem hi]; exact Nat.le_succ _

/-- A change from a value that is not counted costs nothing. -/
theorem countP_le_update_of_imp {l : List ℕ} (h : p (f i) → p x) :
    l.countP (p ∘ f) ≤ l.countP (p ∘ Function.update f i x) := by
  refine List.countP_mono_left fun j _ hj => ?_
  by_cases hji : j = i
  · subst hji; simpa using h hj
  · simpa [Function.update_of_ne hji] using hj

/-- A list without repetitions counts no more than one that has all it counts. -/
theorem countP_le_countP {p : ℕ → Bool} {l l' : List ℕ} (hl : l.Nodup) (h : ∀ i ∈ l, p i → i ∈ l') :
    l.countP p ≤ l'.countP p := by
  rw [List.countP_eq_length_filter, List.countP_eq_length_filter]
  refine (List.subperm_of_subset (hl.filter p) fun i hi => ?_).length_le
  obtain ⟨hi, hp⟩ := List.mem_filter.1 hi
  exact List.mem_filter.2 ⟨h i hi hp, hp⟩

/-- If one index is counted, it is the only one. -/
theorem exists_unique_of_countP {p : ℕ → Bool} {l : List ℕ} (h : l.countP p = 1) :
    ∃ i ∈ l, p i = true ∧ ∀ j ∈ l, p j = true → j = i := by
  rw [List.countP_eq_length_filter, List.length_eq_one_iff] at h
  obtain ⟨i, hi⟩ := h
  have hmem : ∀ j, j ∈ l.filter p ↔ j = i := fun j => by rw [hi, List.mem_singleton]
  obtain ⟨hil, hpi⟩ := List.mem_filter.1 ((hmem i).2 rfl)
  exact ⟨i, hil, hpi, fun j hj hp => (hmem j).1 (List.mem_filter.2 ⟨hj, hp⟩)⟩

/-! ## What the members hold -/

section
variable {β : Type*} {g : α → Option β}

theorem filterMap_update_of_notMem {l : List ℕ} (hi : i ∉ l) :
    l.filterMap (g ∘ Function.update f i x) = l.filterMap (g ∘ f) := by
  refine List.filterMap_congr fun j hj => ?_
  have hji : j ≠ i := fun h => hi (h ▸ hj)
  simp [Function.update_of_ne hji]

theorem filterMap_update_of_eq (l : List ℕ) (h : g x = g (f i)) :
    l.filterMap (g ∘ Function.update f i x) = l.filterMap (g ∘ f) := by
  refine List.filterMap_congr fun j _ => ?_
  by_cases hji : j = i
  · subst hji; simp [h]
  · simp [Function.update_of_ne hji]

/-- If a member gets hold of `y`, the things held are those held before, and `y`. -/
theorem filterMap_update_perm {l : List ℕ} (hl : l.Nodup) (hi : i ∈ l) (h : g (f i) = none) {y : β}
    (hx : g x = some y) :
    List.Perm (l.filterMap (g ∘ Function.update f i x)) (y :: l.filterMap (g ∘ f)) := by
  induction l with
  | nil => cases hi
  | cons j l ih =>
    obtain ⟨hj, hl⟩ := List.nodup_cons.1 hl
    by_cases hji : j = i
    · subst hji
      rw [List.filterMap_cons_some (b := y) (by simp [hx]), List.filterMap_cons_none (by simp [h]),
        filterMap_update_of_notMem hj]
    · have hi' : i ∈ l := (List.mem_cons.1 hi).resolve_left fun h => hji h.symm
      have hperm := ih hl hi'
      rw [List.filterMap_cons, List.filterMap_cons, Function.comp_apply, Function.comp_apply,
        Function.update_of_ne hji]
      cases g (f j) with
      | none => exact hperm
      | some z => exact (hperm.cons z).trans (.swap ..)

/-- If a member lets go of `y`, the things held before are those held now, and `y`. -/
theorem filterMap_update_perm' {l : List ℕ} (hl : l.Nodup) (hi : i ∈ l) {y : β} (h : g (f i) = some y)
    (hx : g x = none) :
    List.Perm (l.filterMap (g ∘ f)) (y :: l.filterMap (g ∘ Function.update f i x)) := by
  have := filterMap_update_perm (f := Function.update f i x) (x := f i) hl hi (by simpa using hx) h
  rwa [Function.update_idem, Function.update_eq_self] at this

end

/-! ## Sums over the members -/

section
variable {g : α → ℕ}

theorem sum_update_of_eq (l : Finset ℕ) (h : g x = g (f i)) :
    ∑ j ∈ l, g (Function.update f i x j) = ∑ j ∈ l, g (f j) :=
  Finset.sum_congr rfl fun j _ => apply_update_of_eq h j

theorem sum_update_le (l : Finset ℕ) {k : ℕ} (h : g x ≤ g (f i) + k) :
    ∑ j ∈ l, g (Function.update f i x j) ≤ ∑ j ∈ l, g (f j) + k := by
  have hle : ∑ j ∈ l, g (Function.update f i x j) ≤ ∑ j ∈ l, (g (f j) + if j = i then k else 0) := by
    refine Finset.sum_le_sum fun j _ => ?_
    by_cases hji : j = i
    · subst hji; rwa [Function.update_self, if_pos rfl]
    · rw [Function.update_of_ne hji, if_neg hji]; exact Nat.le_refl _
  rw [Finset.sum_add_distrib, Finset.sum_ite_eq'] at hle
  refine Nat.le_trans hle (Nat.add_le_add_left ?_ _)
  split_ifs
  · exact Nat.le_refl k
  · exact Nat.zero_le k

end

end Lts
