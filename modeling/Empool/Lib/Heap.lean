/-
  A binary heap kept in an array, as the C++ library's `push_heap` and
  `pop_heap` keep it, and `std::priority_queue` with them.

  `comp x y` is the comparison the queue is given; it is an arbitrary function
  here, since a caller may pass one that is no strict order.  The element the
  queue hands out is the front of the array.

  * `push` and `pop` keep the elements (`push_perm`, `top_pop_perm`);
  * if "not `comp`" is transitive, they keep the heap order (`Ordered.push`,
    `Ordered.pop`), and the front of an ordered array compares before none of
    the others (`Ordered.top`);
  * an element that its parent does not compare before stays where it is
    appended (`push_of_not_comp`).
-/
import Mathlib.Data.List.Perm.Basic
import Mathlib.Tactic.SplitIfs

namespace Heap

open List

variable {α : Type*} {comp : α → α → Bool} {v : α} {a : List α} {hole : ℕ}

/-! ## The algorithms -/

/-- The parent of position `i`; position `i` has the children `2 * i + 1` and `2 * i + 2`. -/
def parent (i : ℕ) : ℕ := (i - 1) / 2

theorem parent_lt {i : ℕ} (h : 0 < i) : parent i < i := by unfold parent; omega

/-- `__push_heap`: `v` is to be put into the hole; as long as the parent of the
    hole compares before `v`, the parent moves into the hole. -/
def siftUp (comp : α → α → Bool) (v : α) (a : List α) (hole : ℕ) : List α :=
  if 0 < hole ∧ comp (a.getD (parent hole) v) v then
    siftUp comp v (a.set hole (a.getD (parent hole) v)) (parent hole)
  else a.set hole v
termination_by hole
decreasing_by exact parent_lt (And.left ‹_›)

/-- `push_back`, then `push_heap`. -/
def push (comp : α → α → Bool) (a : List α) (v : α) : List α := siftUp comp v (a ++ [v]) a.length

/-- The child that moves into the hole: the right one, unless it compares before the left one. -/
def child (comp : α → α → Bool) (v : α) (a : List α) (hole : ℕ) : ℕ :=
  if comp (a.getD (2 * (hole + 1)) v) (a.getD (2 * (hole + 1) - 1) v) then 2 * (hole + 1) - 1
  else 2 * (hole + 1)

theorem lt_child (comp : α → α → Bool) (v : α) (a : List α) (hole : ℕ) : hole < child comp v a hole := by
  unfold child
  split_ifs <;> omega

/-- The loop of `__adjust_heap`: while the hole has two children, one of them moves into it. -/
def siftDown (comp : α → α → Bool) (v : α) (a : List α) (hole : ℕ) : List α × ℕ :=
  if hole < (a.length - 1) / 2 then
    siftDown comp v (a.set hole (a.getD (child comp v a hole) v)) (child comp v a hole)
  else (a, hole)
termination_by a.length - hole
decreasing_by
  have := lt_child comp v a hole
  rw [length_set]
  omega

/-- After the loop: an only child moves into the hole, then `v` rises from where the hole is. -/
def place (comp : α → α → Bool) (v : α) (a : List α) (hole : ℕ) : List α :=
  if a.length % 2 = 0 ∧ hole = (a.length - 2) / 2 then
    siftUp comp v (a.set hole (a.getD (2 * (hole + 1) - 1) v)) (2 * (hole + 1) - 1)
  else siftUp comp v a hole

/-- `__adjust_heap` from the front: the front is to be replaced by `v`. -/
def adjust (comp : α → α → Bool) (v : α) (a : List α) : List α :=
  place comp v (siftDown comp v a 0).1 (siftDown comp v a 0).2

/-- `priority_queue::top` -/
def top (a : List α) : Option α := a.head?

/-- `pop_heap`, then `pop_back`: the last element takes the front's place. -/
def pop (comp : α → α → Bool) (a : List α) : List α :=
  match a.getLast? with
  | none => []
  | some v => if 1 < a.length then adjust comp v a.dropLast else a.dropLast

theorem pop_singleton (comp : α → α → Bool) (x : α) : pop comp [x] = [] := rfl

theorem pop_concat (comp : α → α → Bool) (v : α) (h : a ≠ []) : pop comp (a ++ [v]) = adjust comp v a := by
  have hlen : 1 < (a ++ [v]).length := by
    have := length_pos_iff.2 h
    simp only [length_append, length_singleton]; omega
  unfold pop
  rw [getLast?_concat]
  simp only [hlen, if_true, dropLast_concat]

/-! ### Small arrays -/

section
variable {x y z w : α}

theorem push_nil (comp : α → α → Bool) (v : α) : push comp [] v = [v] := by
  rw [push, siftUp, if_neg fun h => Nat.lt_irrefl 0 h.1]
  rfl

theorem push_one (hx : comp x v = true) : push comp [x] v = [v, x] := by
  simp [push, siftUp, parent, hx]

theorem push_two (hx : comp x v = true) : push comp [x, y] v = [v, y, x] := by
  simp [push, siftUp, parent, hx]

theorem push_three (hx : comp x v = true) (hy : comp y v = true) :
    push comp [x, y, z] v = [v, x, z, y] := by
  simp [push, siftUp, parent, hx, hy]

theorem push_four (hx : comp x v = true) (hy : comp y v = true) :
    push comp [x, y, z, w] v = [v, x, z, w, y] := by
  simp [push, siftUp, parent, hx, hy]

theorem pop_two (comp : α → α → Bool) (x y : α) : pop comp [x, y] = [y] := by
  simp [pop, adjust, siftDown, place, siftUp]

theorem pop_three (h : comp y z = false) : pop comp [x, y, z] = [y, z] := by
  simp [pop, adjust, siftDown, place, siftUp, parent, h]

theorem pop_four (hy : comp z y = true) (hw : comp y w = true) :
    pop comp [x, y, z, w] = [w, y, z] := by
  simp [pop, adjust, siftDown, child, place, siftUp, parent, hy, hw]

theorem pop_five {u : α} (hz : comp z y = true) (hw : comp w u = true) (hy : comp y u = true) :
    pop comp [x, y, z, w, u] = [u, y, z, w] := by
  simp [pop, adjust, siftDown, child, place, siftUp, parent, hz, hw, hy]

end

/-! ## The elements stay -/

theorem getD_of_lt {i : ℕ} (h : i < a.length) (d : α) : a.getD i d = a[i] := by
  simp [getD_eq_getElem?_getD, h]

/-- The hole moves: what is in it afterwards, with `v` in the hole, is a permutation. -/
theorem set_set_perm_hole {i : ℕ} (hh : hole < a.length) (hi : i < a.length) (hne : i ≠ hole) :
    (a.set hole (a.getD i v)).set i v ~ a.set hole v := by
  have h := @set_set_perm _ (a.set hole v) hole i (by simpa) (by simpa)
  rwa [getElem_set_self, getElem_set_ne hne.symm, set_set, ← getD_of_lt hi v] at h

theorem siftUp_perm (hh : hole < a.length) : siftUp comp v a hole ~ a.set hole v := by
  induction hole using Nat.strongRecOn generalizing a with
  | ind hole ih =>
    rw [siftUp]
    split_ifs with hup
    · have hlt := parent_lt hup.1
      refine (ih (parent hole) hlt (by rw [length_set]; omega)).trans ?_
      exact set_set_perm_hole hh (by omega) (by omega)
    · exact .refl _

theorem push_perm (comp : α → α → Bool) (a : List α) (v : α) : push comp a v ~ v :: a := by
  have h : push comp a v ~ (a ++ [v]).set a.length v := siftUp_perm (by simp)
  rw [set_append_right _ _ (Nat.le_refl _), Nat.sub_self] at h
  exact h.trans (perm_append_singleton v a)

theorem child_lt (h : hole < (a.length - 1) / 2) : child comp v a hole < a.length := by
  unfold child
  split_ifs <;> omega

/-- What the loop of `__adjust_heap` leaves: the hole is in the array, and has at most one child. -/
theorem siftDown_perm (hh : hole < a.length) :
    (siftDown comp v a hole).1.length = a.length ∧ (siftDown comp v a hole).2 < a.length ∧
      (a.length - 1) / 2 ≤ (siftDown comp v a hole).2 ∧
      (siftDown comp v a hole).1.set (siftDown comp v a hole).2 v ~ a.set hole v := by
  induction hn : a.length - hole using Nat.strongRecOn generalizing a hole with
  | ind n ih =>
    rw [siftDown]
    split_ifs with hdown
    · have hc : child comp v a hole < a.length := child_lt hdown
      have hgt := lt_child comp v a hole
      obtain ⟨hlen, hlt, hge, hperm⟩ := @ih (a.length - child comp v a hole) (by omega)
        (a.set hole (a.getD (child comp v a hole) v)) (child comp v a hole) (by simpa) (by simp)
      rw [length_set] at hlen hlt hge
      exact ⟨hlen, hlt, hge, hperm.trans (set_set_perm_hole hh hc (by omega))⟩
    · exact ⟨rfl, hh, by omega, .refl _⟩

theorem place_perm (hh : hole < a.length) : place comp v a hole ~ a.set hole v := by
  unfold place
  split_ifs with hone
  · refine (siftUp_perm (by rw [length_set]; omega)).trans ?_
    exact set_set_perm_hole hh (by omega) (by omega)
  · exact siftUp_perm hh

theorem adjust_perm (h : a ≠ []) : adjust comp v a ~ a.set 0 v := by
  obtain ⟨hlen, hlt, -, hperm⟩ := @siftDown_perm _ comp v a 0 (length_pos_iff.2 h)
  exact (place_perm (by omega)).trans hperm

/-- `top` and `pop` take the queue apart. -/
theorem top_pop_perm {x : α} (h : top a = some x) : x :: pop comp a ~ a := by
  rcases eq_nil_or_concat a with rfl | ⟨b, v, rfl⟩
  · cases h
  · rw [concat_eq_append] at h ⊢
    cases b with
    | nil => cases h; exact .refl _
    | cons y b =>
      cases h
      rw [pop_concat comp v (cons_ne_nil x b)]
      have hset : adjust comp v (x :: b) ~ v :: b := adjust_perm (cons_ne_nil x b)
      exact (hset.cons x).trans ((perm_append_singleton v b).symm.cons x)

/-! ## The heap order -/

/-- The parent of an element does not compare before it. -/
def Ordered (comp : α → α → Bool) (a : List α) : Prop :=
  ∀ i x y, 0 < i → a[parent i]? = some x → a[i]? = some y → comp x y = false

/-- "Not `comp`" is transitive: so it is for a strict weak order, and for a total preorder. -/
def NegTrans (comp : α → α → Bool) : Prop :=
  ∀ x y z, comp x y = false → comp y z = false → comp x z = false

/-- The order of the pairs that do not touch the hole. -/
def OrderedExcept (comp : α → α → Bool) (a : List α) (hole : ℕ) : Prop :=
  ∀ i x y, 0 < i → i ≠ hole → parent i ≠ hole → a[parent i]? = some x → a[i]? = some y → comp x y = false

/-- The parent of the hole does not compare before the children of the hole. -/
def OrderedAround (comp : α → α → Bool) (a : List α) (hole : ℕ) : Prop :=
  ∀ c x y, 0 < hole → 0 < c → parent c = hole → a[parent hole]? = some x → a[c]? = some y → comp x y = false

/-- `v` does not compare before the children of the hole. -/
def OrderedBelow (comp : α → α → Bool) (v : α) (a : List α) (hole : ℕ) : Prop :=
  ∀ c y, 0 < c → parent c = hole → a[c]? = some y → comp v y = false

theorem Ordered.nil : Ordered comp ([] : List α) := by
  intro i x y _ _ hy
  cases hy

theorem ordered_four {x y z w : α} (hy : comp x y = false) (hz : comp x z = false) (hw : comp y w = false) :
    Ordered comp [x, y, z, w] := by
  intro i u r hi hu hr
  obtain ⟨hlt, -⟩ := List.getElem?_eq_some_iff.1 hr
  simp only [length_cons, length_nil] at hlt
  have hcases : i = 1 ∨ i = 2 ∨ i = 3 := by omega
  rcases hcases with rfl | rfl | rfl
  all_goals
    simp only [parent, Nat.reduceSub, Nat.reduceDiv] at hu
    cases hu
    cases hr
    assumption

theorem OrderedExcept.of_append {b : List α} (h : OrderedExcept comp (a ++ b) hole) :
    OrderedExcept comp a hole := by
  have hsub : ∀ {i : ℕ} {x : α}, a[i]? = some x → (a ++ b)[i]? = some x := by
    intro i x hx
    obtain ⟨hlt, -⟩ := List.getElem?_eq_some_iff.1 hx
    rwa [getElem?_append_left hlt]
  intro i x y hi hih hph hx hy
  exact h i x y hi hih hph (hsub hx) (hsub hy)

/-- The order depends on how the elements of the array compare. -/
theorem Ordered.congr {comp' : α → α → Bool} (h : Ordered comp a)
    (hcomp : ∀ x ∈ a, ∀ y ∈ a, comp' x y = comp x y) : Ordered comp' a := by
  intro i x y hi hx hy
  rw [hcomp x (mem_of_getElem? hx) y (mem_of_getElem? hy)]
  exact h i x y hi hx hy

/-- The order of the pairs that do not touch the front depends on the elements behind it. -/
theorem OrderedExcept.congr_tail {comp' : α → α → Bool} (h : OrderedExcept comp a 0)
    (hcomp : ∀ x ∈ a.tail, ∀ y ∈ a.tail, comp' x y = comp x y) : OrderedExcept comp' a 0 := by
  have htail : ∀ {i : ℕ} {x : α}, i ≠ 0 → a[i]? = some x → x ∈ a.tail := by
    intro i x hi hx
    obtain ⟨j, rfl⟩ := Nat.exists_eq_succ_of_ne_zero hi
    refine mem_of_getElem? (i := j) ?_
    rwa [getElem?_tail]
  intro i x y hi hih hph hx hy
  rw [hcomp x (htail hph hx) y (htail hih hy)]
  exact h i x y hi hih hph hx hy

theorem Ordered.except (h : Ordered comp a) (hole : ℕ) : OrderedExcept comp a hole :=
  fun i x y hi _ _ => h i x y hi

theorem Ordered.front (hneg : NegTrans comp) (h : Ordered comp a) {x : α} (hx : top a = some x) :
    ∀ i y, 0 < i → a[i]? = some y → comp x y = false := by
  intro i
  induction i using Nat.strongRecOn with
  | ind i ih =>
    intro y hi hy
    obtain ⟨hlt, -⟩ := List.getElem?_eq_some_iff.1 hy
    have hpar := parent_lt hi
    obtain ⟨z, hz⟩ : ∃ z, a[parent i]? = some z := ⟨_, getElem?_eq_getElem (by omega)⟩
    have hstep : comp z y = false := h i z y hi hz hy
    by_cases h0 : parent i = 0
    · rw [h0, ← head?_eq_getElem?] at hz
      cases Option.some.inj (hx.symm.trans hz)
      exact hstep
    · exact hneg _ _ _ (ih (parent i) hpar z (by omega) hz) hstep

/-- The front compares after none of the others. -/
theorem Ordered.top (hneg : NegTrans comp) (h : Ordered comp a) {x y : α} (hx : top a = some x)
    (hy : y ∈ a) : y = x ∨ comp x y = false := by
  obtain ⟨i, hi⟩ := List.mem_iff_getElem?.1 hy
  rcases Nat.eq_zero_or_pos i with rfl | hpos
  · rw [← head?_eq_getElem?] at hi
    exact .inl (Option.some.inj (hi.symm.trans hx))
  · exact .inr (h.front hneg hx i y hpos hi)

theorem eq_of_getElem?_set_self {x : α} (h : (a.set hole v)[hole]? = some x) : x = v := by
  obtain ⟨_, hx⟩ := List.getElem?_eq_some_iff.1 h
  rw [getElem_set_self] at hx
  exact hx.symm

/-- Once `v` is in the hole, between a parent and children in order, the array is ordered. -/
theorem OrderedExcept.fill (h : OrderedExcept comp a hole) (hb : OrderedBelow comp v a hole)
    (hv : ∀ x, 0 < hole → a[parent hole]? = some x → comp x v = false) :
    Ordered comp (a.set hole v) := by
  intro i x y hi hx hy
  by_cases hih : i = hole
  · subst hih
    have hpar := parent_lt hi
    rw [getElem?_set_ne (by omega)] at hx
    rw [eq_of_getElem?_set_self hy]
    exact hv x hi hx
  · rw [getElem?_set_ne (Ne.symm hih)] at hy
    by_cases hph : parent i = hole
    · rw [hph] at hx
      rw [eq_of_getElem?_set_self hx]
      exact hb i y hi hph hy
    · rw [getElem?_set_ne (Ne.symm hph)] at hx
      exact h i x y hi hih hph hx hy

/-- The hole moves to its parent: the pairs that do not touch it are still in order. -/
theorem OrderedExcept.up (h : OrderedExcept comp a hole) (ha : OrderedAround comp a hole) {z : α}
    (h0 : 0 < hole) (hz : a[parent hole]? = some z) : OrderedExcept comp (a.set hole z) (parent hole) := by
  intro i x y hi hip hpp hx hy
  have hih : i ≠ hole := fun heq => hpp (congrArg parent heq)
  rw [getElem?_set_ne (Ne.symm hih)] at hy
  by_cases hph : parent i = hole
  · rw [hph] at hx
    rw [eq_of_getElem?_set_self hx]
    exact ha i z y h0 hi hph hz hy
  · rw [getElem?_set_ne (Ne.symm hph)] at hx
    exact h i x y hi hih hph hx hy

theorem OrderedAround.up (hneg : NegTrans comp) (h : OrderedExcept comp a hole) {z : α} (h0 : 0 < hole)
    (hz : a[parent hole]? = some z) : OrderedAround comp (a.set hole z) (parent hole) := by
  intro c x y hp0 hc hcp hx hy
  have hpar := parent_lt h0
  have hpp := parent_lt hp0
  rw [getElem?_set_ne (by omega)] at hx
  have hxz : comp x z = false := h (parent hole) x z hp0 (by omega) (by omega) hx hz
  by_cases hch : c = hole
  · rw [hch] at hy
    rwa [eq_of_getElem?_set_self hy]
  · rw [getElem?_set_ne (Ne.symm hch)] at hy
    exact hneg x z y hxz (h c z y hc hch (by omega) (hcp ▸ hz) hy)

theorem OrderedBelow.up (hneg : NegTrans comp) (h : OrderedExcept comp a hole) {z : α} (h0 : 0 < hole)
    (hz : a[parent hole]? = some z) (hv : comp v z = false) :
    OrderedBelow comp v (a.set hole z) (parent hole) := by
  intro c y hc hcp hy
  have hpar := parent_lt h0
  by_cases hch : c = hole
  · rw [hch] at hy
    rwa [eq_of_getElem?_set_self hy]
  · rw [getElem?_set_ne (Ne.symm hch)] at hy
    exact hneg v z y hv (h c z y hc hch (by omega) (hcp ▸ hz) hy)

/-- `v` is placed in order, if it compares before no element that compares before it. -/
theorem siftUp_ordered (hneg : NegTrans comp) (hh : hole < a.length) (h : OrderedExcept comp a hole)
    (ha : OrderedAround comp a hole) (hb : OrderedBelow comp v a hole)
    (hv : ∀ i x, i ≠ hole → a[i]? = some x → comp x v = true → comp v x = false) :
    Ordered comp (siftUp comp v a hole) := by
  induction hole using Nat.strongRecOn generalizing a with
  | ind hole ih =>
    rw [siftUp]
    by_cases h0 : 0 < hole
    · have hpar := parent_lt h0
      obtain ⟨z, hz⟩ : ∃ z, a[parent hole]? = some z := ⟨_, getElem?_eq_getElem (by omega)⟩
      rw [getD_eq_getElem?_getD, hz, Option.getD_some]
      split_ifs with hup
      · have hvz : comp v z = false := hv _ z (by omega) hz hup.2
        refine ih (parent hole) hpar (by rw [length_set]; omega) (h.up ha h0 hz) (.up hneg h h0 hz)
          (.up hneg h h0 hz hvz) ?_
        intro i x _ hx
        by_cases hih : i = hole
        · rw [hih] at hx
          rw [eq_of_getElem?_set_self hx]
          exact hv _ z (by omega) hz
        · rw [getElem?_set_ne (Ne.symm hih)] at hx
          exact hv i x hih hx
      · refine h.fill hb ?_
        intro x _ hx
        cases Option.some.inj (hz.symm.trans hx)
        simpa [h0] using hup
    · rw [if_neg (fun hup => h0 hup.1)]
      exact h.fill hb fun _ h0' => absurd h0' h0

/-- `push` keeps the heap order. -/
theorem Ordered.push (hneg : NegTrans comp) (h : Ordered comp a)
    (hv : ∀ x ∈ a, comp x v = true → comp v x = false) : Ordered comp (push comp a v) := by
  -- the appended position has no children, so only the pairs of `a` are left
  have hold : ∀ i x, i ≠ a.length → (a ++ [v])[i]? = some x → a[i]? = some x := by
    intro i x hi hx
    obtain ⟨hlt, -⟩ := List.getElem?_eq_some_iff.1 hx
    rw [length_append, length_singleton] at hlt
    rwa [getElem?_append_left (by omega)] at hx
  have hchild : ∀ c y, 0 < c → parent c = a.length → (a ++ [v])[c]? ≠ some y := by
    intro c y hc hcp hy
    have hpar := parent_lt hc
    obtain ⟨hlt, -⟩ := List.getElem?_eq_some_iff.1 (hold c y (by omega) hy)
    omega
  refine siftUp_ordered hneg (by simp) ?_ ?_ ?_ ?_
  · intro i x y hi hil hpl hx hy
    exact h i x y hi (hold _ x hpl hx) (hold i y hil hy)
  · intro c x y _ hc hcp _ hy
    exact absurd hy (hchild c y hc hcp)
  · intro c y hc hcp hy
    exact absurd hy (hchild c y hc hcp)
  · intro i x hi hx
    exact hv x (mem_of_getElem? (hold i x hi hx))

/-- If the parent does not compare before the new element, it stays where it is appended. -/
theorem push_of_not_comp (h : ∀ x ∈ a, comp x v = false) : Heap.push comp a v = a ++ [v] := by
  have hset : (a ++ [v]).set a.length v = a ++ [v] := by
    rw [set_append_right _ _ (Nat.le_refl _), Nat.sub_self, set_cons_zero]
  unfold Heap.push
  rw [siftUp, if_neg, hset]
  rintro ⟨h0, hup⟩
  have hpar := parent_lt h0
  rw [getD_eq_getElem?_getD, getElem?_append_left hpar, getElem?_eq_getElem hpar, Option.getD_some,
    h _ (getElem_mem hpar)] at hup
  cases hup

theorem siftUp_front {x : α} (hh : 0 < hole) (hx : a[0]? = some x) (hxv : comp x v = false) :
    (siftUp comp v a hole)[0]? = some x := by
  induction hole using Nat.strongRecOn generalizing a with
  | ind hole ih =>
    rw [siftUp]
    split_ifs with hup
    · have hpar : 0 < parent hole := by
        refine Nat.pos_of_ne_zero fun h0 => ?_
        rw [h0, getD_eq_getElem?_getD, hx, Option.getD_some, hxv] at hup
        exact Bool.noConfusion hup.2
      exact ih (parent hole) (parent_lt hh) hpar (by rwa [getElem?_set_ne (by omega)])
    · rwa [getElem?_set_ne (by omega)]

/-- If the front does not compare before the new element, it stays at the front. -/
theorem top_push_of_not_comp {x : α} (hx : Heap.top a = some x) (hxv : comp x v = false) :
    Heap.top (Heap.push comp a v) = some x := by
  have hpos : 0 < a.length := length_pos_iff.2 fun hnil => by
    subst hnil
    cases hx
  have hfront : (a ++ [v])[0]? = some x := by
    rw [getElem?_append_left hpos, ← head?_eq_getElem?]
    exact hx
  exact head?_eq_getElem?.trans (siftUp_front hpos hfront hxv)

/-! ### `pop`, for a strict comparison -/

/-- `comp` is asymmetric. -/
def Asymm (comp : α → α → Bool) : Prop := ∀ x y, comp x y = true → comp y x = false

theorem Asymm.irrefl (hasym : Asymm comp) (x : α) : comp x x = false := by
  cases h : comp x x with
  | false => rfl
  | true => exact (h.symm.trans (hasym x x h))

/-- `z` compares after neither child of the hole. -/
def FirstChild (comp : α → α → Bool) (z : α) (a : List α) (hole : ℕ) : Prop :=
  ∀ c y, 0 < c → parent c = hole → a[c]? = some y → comp z y = false

theorem parent_child (comp : α → α → Bool) (v : α) (a : List α) (hole : ℕ) :
    parent (child comp v a hole) = hole := by
  unfold parent child
  split_ifs <;> omega

/-- The child that moves into the hole is the first. -/
theorem child_first (hasym : Asymm comp) {z : α} (hz : a[child comp v a hole]? = some z) :
    FirstChild comp z a hole := by
  intro c y hc hcp hy
  have hside : c = 2 * (hole + 1) - 1 ∨ c = 2 * (hole + 1) := by unfold parent at hcp; omega
  unfold child at hz
  simp only [getD_eq_getElem?_getD] at hz
  split_ifs at hz with hleft
  · rcases hside with rfl | rfl
    · cases Option.some.inj (hz.symm.trans hy)
      exact hasym.irrefl z
    · rw [hz, hy] at hleft
      exact hasym _ _ hleft
  · rcases hside with rfl | rfl
    · rw [hz, hy] at hleft
      simpa using hleft
    · cases Option.some.inj (hz.symm.trans hy)
      exact hasym.irrefl z

/-- An only child is the first. -/
theorem only_child_first (hasym : Asymm comp) {z : α} (hz : a[2 * (hole + 1) - 1]? = some z)
    (hone : a.length ≤ 2 * (hole + 1)) : FirstChild comp z a hole := by
  intro c y hc hcp hy
  obtain ⟨hlt, -⟩ := List.getElem?_eq_some_iff.1 hy
  have hcl : c = 2 * (hole + 1) - 1 := by unfold parent at hcp; omega
  subst hcl
  cases Option.some.inj (hz.symm.trans hy)
  exact hasym.irrefl z

/-- The hole moves to its first child: the pairs that do not touch it are still in order. -/
theorem OrderedExcept.down (h : OrderedExcept comp a hole) (ha : OrderedAround comp a hole) {c : ℕ} {z : α}
    (hc : 0 < c) (hcp : parent c = hole) (hz : a[c]? = some z) (hfirst : FirstChild comp z a hole) :
    OrderedExcept comp (a.set hole z) c := by
  intro i x y hi hic hpc hx hy
  by_cases hih : i = hole
  · subst hih
    have hpar := parent_lt hi
    rw [getElem?_set_ne (by omega)] at hx
    rw [eq_of_getElem?_set_self hy]
    exact ha c x z hi hc hcp hx hz
  · rw [getElem?_set_ne (Ne.symm hih)] at hy
    by_cases hph : parent i = hole
    · rw [hph] at hx
      rw [eq_of_getElem?_set_self hx]
      exact hfirst i y hi hph hy
    · rw [getElem?_set_ne (Ne.symm hph)] at hx
      exact h i x y hi hih hph hx hy

theorem OrderedAround.down (h : OrderedExcept comp a hole) {c : ℕ} {z : α} (hcp : parent c = hole)
    (hz : a[c]? = some z) : OrderedAround comp (a.set hole z) c := by
  intro d x y hc hd hdc hx hy
  have hpc := parent_lt hc
  have hpd := parent_lt hd
  rw [hcp] at hx
  rw [eq_of_getElem?_set_self hx]
  rw [getElem?_set_ne (by omega)] at hy
  exact h d z y hd (by omega) (by omega) (hdc ▸ hz) hy

theorem siftDown_ordered (hasym : Asymm comp) (h : OrderedExcept comp a hole)
    (ha : OrderedAround comp a hole) :
    OrderedExcept comp (siftDown comp v a hole).1 (siftDown comp v a hole).2 ∧
      OrderedAround comp (siftDown comp v a hole).1 (siftDown comp v a hole).2 := by
  induction hn : a.length - hole using Nat.strongRecOn generalizing a hole with
  | ind n ih =>
    rw [siftDown]
    split_ifs with hdown
    · have hlt : child comp v a hole < a.length := child_lt hdown
      have hgt := lt_child comp v a hole
      have hcp := parent_child comp v a hole
      have hz := getElem?_eq_getElem hlt
      rw [getD_of_lt hlt]
      exact ih _ (by rw [length_set]; omega)
        (h.down ha (by omega) hcp hz (child_first hasym hz)) (.down h hcp hz) rfl
    · exact ⟨h, ha⟩

/-- A position without children: nothing is below it. -/
theorem orderedBelow_leaf (h : a.length ≤ 2 * hole + 1) : OrderedBelow comp v a hole := by
  intro c y hc hcp hy
  obtain ⟨hlt, -⟩ := List.getElem?_eq_some_iff.1 hy
  unfold parent at hcp
  omega

theorem place_ordered (hneg : NegTrans comp) (hasym : Asymm comp) (hh : hole < a.length)
    (hend : (a.length - 1) / 2 ≤ hole) (h : OrderedExcept comp a hole) (ha : OrderedAround comp a hole) :
    Ordered comp (place comp v a hole) := by
  have hv : ∀ (b : List α) (k : ℕ), ∀ i x, i ≠ k → b[i]? = some x → comp x v = true → comp v x = false :=
    fun _ _ _ x _ _ => hasym x v
  unfold place
  split_ifs with hone
  · have hlt : 2 * (hole + 1) - 1 < a.length := by omega
    have hcp : parent (2 * (hole + 1) - 1) = hole := by unfold parent; omega
    have hz := getElem?_eq_getElem hlt
    have hfirst := only_child_first hasym hz (by omega)
    rw [getD_of_lt hlt]
    exact siftUp_ordered hneg (by rwa [length_set]) (h.down ha (by omega) hcp hz hfirst) (.down h hcp hz)
      (orderedBelow_leaf (by rw [length_set]; omega)) (hv _ _)
  · exact siftUp_ordered hneg hh h ha (orderedBelow_leaf (by omega)) (hv _ _)

/-- `pop` does not look at the front, which need not be in order. -/
theorem OrderedExcept.pop (hneg : NegTrans comp) (hasym : Asymm comp) (h : OrderedExcept comp a 0) :
    Ordered comp (pop comp a) := by
  rcases eq_nil_or_concat a with rfl | ⟨b, v, rfl⟩
  · exact .nil
  · rw [concat_eq_append] at h ⊢
    by_cases hb : b = []
    · subst hb
      exact .nil
    · rw [pop_concat comp v hb]
      have hpos := length_pos_iff.2 hb
      obtain ⟨hlen, hlt, hend, -⟩ := @siftDown_perm _ comp v b 0 hpos
      obtain ⟨h1, h2⟩ := siftDown_ordered (v := v) hasym h.of_append
        (fun c x y h0 => absurd h0 (Nat.lt_irrefl 0))
      exact place_ordered hneg hasym (by omega) (by omega) h1 h2

/-- `pop` keeps the heap order. -/
theorem Ordered.pop (hneg : NegTrans comp) (hasym : Asymm comp) (h : Ordered comp a) :
    Ordered comp (pop comp a) := (h.except 0).pop hneg hasym

end Heap
