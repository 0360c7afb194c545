/-
  The heap of `Heap` under a comparison that may hold of equal elements.

  `std::priority_queue` wants a strict comparison.  Given one that also holds of
  equal elements, the array is still ordered by the strict order `lt` behind it:
  `comp` may hold only where the second element is not `lt` the first, and must
  hold where the first is `lt` the second (`Between`).  So the front is among the
  last of the order, with `comp` strict or not.
-/
import Empool.Lib.Heap

namespace Heap

open List

variable {α : Type*} {comp lt : α → α → Bool} {v : α} {a : List α} {hole : ℕ}

/-- `comp` is between a strict order and the order it belongs to. -/
structure Between (lt comp : α → α → Bool) : Prop where
  of_lt : ∀ x y, lt x y = true → comp x y = true
  not_gt : ∀ x y, comp x y = true → lt y x = false

theorem Between.not_lt (hb : Between lt comp) {x y : α} (h : comp x y = false) : lt x y = false := by
  cases hlt : lt x y with
  | false => rfl
  | true => exact (hb.of_lt x y hlt).symm.trans h

theorem Between.asymm (hb : Between lt comp) : Asymm lt := fun x y h => hb.not_gt x y (hb.of_lt x y h)

/-- A strict order is between itself and its order. -/
theorem Between.refl (hasym : Asymm lt) : Between lt lt := ⟨fun _ _ h => h, hasym⟩

theorem Between.siftUp_ordered (hb : Between lt comp) (hneg : NegTrans lt) (hh : hole < a.length)
    (h : OrderedExcept lt a hole) (ha : OrderedAround lt a hole) (hv : OrderedBelow lt v a hole) :
    Ordered lt (siftUp comp v a hole) := by
  induction hole using Nat.strongRecOn generalizing a with
  | ind hole ih =>
    rw [siftUp]
    by_cases h0 : 0 < hole
    · have hpar := parent_lt h0
      obtain ⟨z, hz⟩ : ∃ z, a[parent hole]? = some z := ⟨_, getElem?_eq_getElem (by omega)⟩
      rw [getD_eq_getElem?_getD, hz, Option.getD_some]
      split_ifs with hup
      · exact ih (parent hole) hpar (by rw [length_set]; omega) (h.up ha h0 hz) (.up hneg h h0 hz)
          (.up hneg h h0 hz (hb.not_gt z v hup.2))
      · refine h.fill hv fun x _ hx => ?_
        cases Option.some.inj (hz.symm.trans hx)
        exact hb.not_lt (by simpa [h0] using hup)
    · rw [if_neg (fun hup => h0 hup.1)]
      exact h.fill hv fun _ h0' => absurd h0' h0

/-- `push` keeps the order. -/
theorem Between.push (hb : Between lt comp) (hneg : NegTrans lt) (h : Ordered lt a) :
    Ordered lt (push comp a v) := by
  -- the appended position has no children, so only the pairs of `a` are left
  have hold : ∀ i x, i ≠ a.length → (a ++ [v])[i]? = some x → a[i]? = some x := by
    intro i x hi hx
    obtain ⟨hlt, -⟩ := List.getElem?_eq_some_iff.1 hx
    rw [length_append, length_singleton] at hlt
    rwa [getElem?_append_left (by omega)] at hx
  have hchild : ∀ c y, 0 < c → parent c = a.length → (a ++ [v])[c]? ≠ some y := by
    intro c y hc hcp hy
    have hpar := parent_lt hc
    obtain ⟨hlt, -⟩ := List.getElem?_eq_some_iff.1 (hold c y (by omega) hy)
    omega
  refine hb.siftUp_ordered hneg (by simp) ?_ ?_ ?_
  · intro i x y hi hil hpl hx hy
    exact h i x y hi (hold _ x hpl hx) (hold i y hil hy)
  · exact fun c x y _ hc hcp _ hy => absurd hy (hchild c y hc hcp)
  · exact fun c y hc hcp hy => absurd hy (hchild c y hc hcp)

/-- The child that moves into the hole is one of the last. -/
theorem Between.child_first (hb : Between lt comp) {z : α} (hz : a[child comp v a hole]? = some z) :
    FirstChild lt z a hole := by
  intro c y hc hcp hy
  have hside : c = 2 * (hole + 1) - 1 ∨ c = 2 * (hole + 1) := by unfold parent at hcp; omega
  unfold child at hz
  simp only [getD_eq_getElem?_getD] at hz
  split_ifs at hz with hleft
  · rcases hside with rfl | rfl
    · cases Option.some.inj (hz.symm.trans hy)
      exact hb.asymm.irrefl z
    · rw [hz, hy] at hleft
      exact hb.not_gt _ _ hleft
  · rcases hside with rfl | rfl
    · rw [hz, hy] at hleft
      exact hb.not_lt (by simpa using hleft)
    · cases Option.some.inj (hz.symm.trans hy)
      exact hb.asymm.irrefl z

theorem Between.siftDown_ordered (hb : Between lt comp) (h : OrderedExcept lt a hole)
    (ha : OrderedAround lt a hole) :
    OrderedExcept lt (siftDown comp v a hole).1 (siftDown comp v a hole).2 ∧
      OrderedAround lt (siftDown comp v a hole).1 (siftDown comp v a hole).2 := by
  induction hn : a.length - hole using Nat.strongRecOn generalizing a hole with
  | ind n ih =>
    rw [siftDown]
    split_ifs with hdown
    · have hlt : child comp v a hole < a.length := child_lt hdown
      have hgt := lt_child comp v a hole
      have hcp := parent_child comp v a hole
      have hz := getElem?_eq_getElem hlt
      rw [getD_of_lt hlt]
      exact ih _ (by rw [length_set]; omega)
        (h.down ha (by omega) hcp hz (hb.child_first hz)) (.down h hcp hz) rfl
    · exact ⟨h, ha⟩

theorem Between.place_ordered (hb : Between lt comp) (hneg : NegTrans lt) (hh : hole < a.length)
    (hend : (a.length - 1) / 2 ≤ hole) (h : OrderedExcept lt a hole) (ha : OrderedAround lt a hole) :
    Ordered lt (place comp v a hole) := by
  unfold place
  split_ifs with hone
  · have hlt : 2 * (hole + 1) - 1 < a.length := by omega
    have hcp : parent (2 * (hole + 1) - 1) = hole := by unfold parent; omega
    have hz := getElem?_eq_getElem hlt
    have hfirst := only_child_first hb.asymm hz (by omega)
    rw [getD_of_lt hlt]
    exact hb.siftUp_ordered hneg (by rwa [length_set]) (h.down ha (by omega) hcp hz hfirst) (.down h hcp hz)
      (orderedBelow_leaf (by rw [length_set]; omega))
  · exact hb.siftUp_ordered hneg hh h ha (orderedBelow_leaf (by omega))

/-- `pop` keeps the order. -/
theorem Between.pop (hb : Between lt comp) (hneg : NegTrans lt) (h : Ordered lt a) : Ordered lt (pop comp a) := by
  rcases eq_nil_or_concat a with rfl | ⟨b, v, rfl⟩
  · exact .nil
  · rw [concat_eq_append] at h ⊢
    by_cases hnil : b = []
    · subst hnil
      exact .nil
    · rw [pop_concat comp v hnil]
      obtain ⟨hlen, hlt, hend, -⟩ := @siftDown_perm _ comp v b 0 (length_pos_iff.2 hnil)
      obtain ⟨h1, h2⟩ := hb.siftDown_ordered (v := v) (h.except 0).of_append
        (fun c x y h0 => absurd h0 (Nat.lt_irrefl 0))
      exact hb.place_ordered hneg (by omega) (by omega) h1 h2

end Heap
