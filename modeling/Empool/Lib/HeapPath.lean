/-
  When `pop` undoes `push`.

  If every element compares before the new one, `push` shifts the elements on
  the path from the front to the appended position by one place towards the
  end, and `pop` moves its hole along some path of first children.  Both loops
  are described by one relation, `Shifted`: the elements of the path that lie
  beyond the hole are shifted, all others are in their place.  `pop` undoes
  `push` (`pop_push`) if the first children are the ones on the path
  (`Steady`).  No order is asked of `comp`.
-/
import Empool.Lib.Heap

namespace Heap

open List

variable {α : Type*} {comp : α → α → Bool} {v : α} {a b : List α} {hole n m : ℕ}

/-! ## Paths -/

/-- Position `q` is on the path from the front to a position. -/
inductive Above (q : ℕ) : ℕ → Prop
  | refl : Above q q
  | up {n : ℕ} : 0 < n → Above q (parent n) → Above q n

theorem Above.le {q n : ℕ} (h : Above q n) : q ≤ n := by
  induction h with
  | refl => exact Nat.le_refl q
  | up hn _ ih => exact Nat.le_trans ih (Nat.le_of_lt (parent_lt hn))

/-- A position on the path to `n`, other than `n`, is on the path to its parent. -/
theorem Above.to_parent {q n : ℕ} (h : Above q n) (hlt : q < n) : Above q (Heap.parent n) := by
  cases h with
  | refl => exact absurd hlt (Nat.lt_irrefl q)
  | up _ h => exact h

theorem Above.parent {q n : ℕ} (h : Above q n) (h0 : 0 < q) : Above (Heap.parent q) n := by
  induction h with
  | refl => exact .up h0 .refl
  | up hn _ ih => exact .up hn ih

/-- Of two positions on a path, the smaller is on the path to the larger. -/
theorem Above.of_le {q r n : ℕ} (hr : Above r n) (hq : Above q n) (hle : q ≤ r) : Above q r := by
  induction hr with
  | refl => exact hq
  | up hn hr ih =>
    have hrp := hr.le
    have hpar := parent_lt hn
    exact ih (hq.to_parent (by omega))

theorem Above.le_parent {q r n : ℕ} (hr : Above r n) (hq : Above q n) (hlt : q < r) : q ≤ Heap.parent r :=
  ((hr.of_le hq (Nat.le_of_lt hlt)).to_parent hlt).le

/-- The path goes on from a position before its end: to one of the two children. -/
theorem Above.next {h n : ℕ} (ha : Above h n) (hlt : h < n) :
    ∃ q, Above q n ∧ 0 < q ∧ Heap.parent q = h := by
  induction ha with
  | refl => exact absurd hlt (Nat.lt_irrefl h)
  | @up n hn ha ih =>
    rcases Nat.lt_or_ge h (Heap.parent n) with hhp | hhp
    · obtain ⟨r, hr, h0, hrp⟩ := ih hhp
      exact ⟨r, .up hn hr, h0, hrp⟩
    · exact ⟨n, .refl, hn, Nat.le_antisymm hhp ha.le⟩

/-! ## The two loops -/

/-- `b` is `a`, with the part of the path to `n` that lies beyond the hole shifted by one. -/
structure Shifted (n : ℕ) (a b : List α) (hole : ℕ) : Prop where
  above : Above hole n
  moved : ∀ q, Above q n → hole < q → q < b.length → b[q]? = a[parent q]?
  kept : ∀ q, (Above q n → q < hole) → q < b.length → b[q]? = a[q]?

/-- The hole moves up: the parent is shifted. -/
theorem Shifted.up (h : Shifted n a b hole) (h0 : 0 < hole) (hlt : hole < b.length) {z : α}
    (hz : a[parent hole]? = some z) : Shifted n a (b.set hole z) (parent hole) := by
  have hpar := parent_lt h0
  refine ⟨h.above.parent h0, ?_, ?_⟩
  · intro q hq hpq hql
    rw [length_set] at hql
    by_cases hqh : q = hole
    · rw [hqh, getElem?_set_self hlt, hz]
    · rw [getElem?_set_ne (Ne.symm hqh)]
      refine h.moved q hq ?_ hql
      by_contra hge
      have := h.above.le_parent hq (by omega)
      omega
  · intro q hq hql
    rw [length_set] at hql
    have hqh : q ≠ hole := fun heq => by
      have := hq (heq ▸ h.above)
      omega
    rw [getElem?_set_ne (Ne.symm hqh)]
    exact h.kept q (fun ha => Nat.lt_trans (hq ha) hpar) hql

/-- The hole moves down the path: the child on the path returns to its place. -/
theorem Shifted.down (h : Shifted n a b hole) {q : ℕ} (hq : Above q n) (h0 : 0 < q)
    (hqp : parent q = hole) (hlt : hole < b.length) {z : α} (hz : a[hole]? = some z) :
    Shifted n a (b.set hole z) q := by
  have hpar := parent_lt h0
  refine ⟨hq, ?_, ?_⟩
  · intro r hr hqr hrl
    rw [length_set] at hrl
    rw [getElem?_set_ne (by omega)]
    exact h.moved r hr (by omega) hrl
  · intro r hr hrl
    rw [length_set] at hrl
    by_cases hrh : r = hole
    · rw [hrh, getElem?_set_self hlt, hz]
    · rw [getElem?_set_ne (Ne.symm hrh)]
      refine h.kept r (fun ha => ?_) hrl
      have := hq.le_parent ha (hr ha)
      omega

/-- `push`, if every element compares before the new one: the whole path is shifted. -/
theorem siftUp_shifted (h : Shifted n a b hole) (hn : n = a.length) (hb : hole < b.length)
    (hv : ∀ x ∈ a, comp x v = true) :
    ∃ c, c.length = b.length ∧ Shifted n a c 0 ∧ siftUp comp v b hole = c.set 0 v := by
  induction hole using Nat.strongRecOn generalizing b with
  | ind hole ih =>
    rw [siftUp]
    by_cases h0 : 0 < hole
    · have hpar := parent_lt h0
      have hle := h.above.le
      have hz : a[parent hole]? = some a[parent hole] := getElem?_eq_getElem (by omega)
      have hbz : b.getD (parent hole) v = a[parent hole] := by
        rw [getD_eq_getElem?_getD, h.kept (parent hole) (fun _ => hpar) (by omega), hz, Option.getD_some]
      rw [hbz, if_pos ⟨h0, hv _ (getElem_mem (by omega))⟩]
      obtain ⟨c, hc, hs, he⟩ := ih (parent hole) hpar (h.up h0 hb hz) (by rw [length_set]; omega)
      exact ⟨c, by rw [hc, length_set], hs, he⟩
    · have hzero : hole = 0 := by omega
      subst hzero
      exact ⟨b, rfl, h, by rw [if_neg fun hup => h0 hup.1]⟩

theorem push_shifted (hv : ∀ x ∈ a, comp x v = true) :
    ∃ c, c.length = a.length + 1 ∧ Shifted a.length a c 0 ∧ push comp a v = c.set 0 v := by
  have h : Shifted a.length a (a ++ [v]) a.length := by
    refine ⟨.refl, ?_, ?_⟩
    · intro q hq hlt
      exact absurd hq.le (by omega)
    · intro q hq hql
      rw [length_append, length_singleton] at hql
      have hne : q ≠ a.length := fun heq => by
        have := hq (heq ▸ .refl)
        omega
      rw [getElem?_append_left (by omega)]
  obtain ⟨c, hc, hs, he⟩ := siftUp_shifted h rfl (by simp) hv
  exact ⟨c, by simpa using hc, hs, he⟩

/-- An element that all others compare before is at the front. -/
theorem top_push (hv : ∀ x ∈ a, comp x v = true) : top (push comp a v) = some v := by
  obtain ⟨c, hc, -, he⟩ := push_shifted hv
  rw [he, top, head?_eq_getElem?, getElem?_set_self (by omega)]

/-! ## `pop` after `push` -/

/-- On the path to the position after the last, each first child is the one on the path once the
    path is shifted, and the path's last element finds its place again. -/
structure Steady (comp : α → α → Bool) (a : List α) : Prop where
  left : ∀ h x y, Above (2 * h + 1) a.length → a[2 * h + 2]? = some x → a[h]? = some y → comp x y = true
  right : ∀ h x y, Above (2 * h + 2) a.length → a[2 * h + 1]? = some x → a[h]? = some y →
    2 * h + 2 < a.length → comp y x = false
  last : ∀ x y, 0 < parent a.length → a[parent (parent a.length)]? = some x →
    a[parent a.length]? = some y → comp x y = false
  sibling : ∀ x y, a.length % 2 = 0 → a[a.length - 1]? = some x → a[parent a.length]? = some y →
    comp x y = true

/-- In an ordered array for a total comparison every first child is on the path. -/
theorem Ordered.steady (h : Ordered comp a) (htotal : ∀ x y, comp x y = false → comp y x = true) :
    Steady comp a where
  left k x y _ hx hy :=
    htotal _ _ (h (2 * k + 2) y x (by omega) (by rwa [show Heap.parent (2 * k + 2) = k by
      unfold Heap.parent; omega]) hx)
  right k x y _ hx hy _ :=
    h (2 * k + 1) y x (by omega) (by rwa [show Heap.parent (2 * k + 1) = k by
      unfold Heap.parent; omega]) hx
  last x y h0 hx hy := h _ x y h0 hx hy
  sibling x y heven hx hy := by
    obtain ⟨hlt, -⟩ := List.getElem?_eq_some_iff.1 hx
    have hpar : Heap.parent (a.length - 1) = Heap.parent a.length := by unfold Heap.parent; omega
    exact htotal _ _ (h (a.length - 1) y x (by omega) (by rwa [hpar]) hx)

theorem steady_nil : Steady comp ([] : List α) where
  left h x y _ hx := by cases hx
  right h x y _ hx := by cases hx
  last x y h0 := absurd h0 (by simp [parent])
  sibling x y _ hx := by cases hx

theorem steady_singleton (x : α) : Steady comp [x] where
  left h y z _ hy := by cases hy
  right h y z _ hy _ _ := by cases hy
  last y z h0 := absurd h0 (by simp [parent])
  sibling y z heven := absurd heven (by rw [length_singleton]; omega)

theorem steady_pair {x y : α} (h : comp y x = true) : Steady comp [x, y] where
  left k z w _ hz := by cases hz
  right k z w _ _ _ hlt := absurd hlt (by simp only [length_cons, length_nil]; omega)
  last z w h0 := absurd h0 (by simp [parent])
  sibling z w _ hz hw := by
    have hp : parent [x, y].length = 0 := by simp [parent]
    rw [hp] at hw
    cases hz
    cases hw
    exact h

theorem steady_three {x y z : α} (hlast : comp x y = false) (hside : comp z x = true) :
    Steady comp [x, y, z] where
  left k w u _ hw hu := by
    cases k with
    | zero =>
      cases hw
      cases hu
      exact hside
    | succ k => cases hw
  right k w u ha _ _ hlt := by
    have hle := (ha.to_parent hlt).le
    have hp : parent [x, y, z].length = 1 := by simp [parent]
    omega
  last w u _ hw hu := by
    have hp : parent [x, y, z].length = 1 := by simp [parent]
    have hpp : parent 1 = 0 := rfl
    rw [hp] at hu
    rw [hp, hpp] at hw
    cases hw
    cases hu
    exact hlast
  sibling w u heven := absurd heven (by simp only [length_cons, length_nil]; omega)

/-- The first child of the hole is the one on the path. -/
theorem child_on_path (hs : Steady comp a) (h : Shifted a.length a b hole) (hb : b.length = a.length)
    (hdown : hole < (b.length - 1) / 2) {q : ℕ} (hq : Above q a.length) (h0 : 0 < q)
    (hqp : parent q = hole) (v : α) : child comp v b hole = q := by
  obtain ⟨z, hz⟩ : ∃ z, a[hole]? = some z := ⟨_, getElem?_eq_getElem (by omega)⟩
  have hbq : q < b.length := by unfold parent at hqp; omega
  have hpath : b[q]? = some z := by rw [h.moved q hq (hqp ▸ parent_lt h0) hbq, hqp, hz]
  -- the other child is not on the path
  have hother : ∀ r, 0 < r → parent r = hole → r ≠ q → b[r]? = a[r]? := by
    intro r hr0 hrp hrq
    have hpr := parent_lt hr0
    have hpq := parent_lt h0
    refine h.kept r (fun hr => ?_) (by unfold parent at hrp; omega)
    rcases Nat.lt_or_gt_of_ne hrq with hlt | hgt
    · have := hq.le_parent hr hlt; omega
    · have := hr.le_parent hq hgt; omega
  have hright : ∀ k, 2 * (k + 1) = 2 * k + 2 := by intro k; omega
  have hleft : ∀ k, 2 * (k + 1) - 1 = 2 * k + 1 := by intro k; omega
  have hside : q = 2 * hole + 1 ∨ q = 2 * hole + 2 := by unfold parent at hqp; omega
  unfold child
  rw [hleft, hright]
  simp only [getD_eq_getElem?_getD]
  rcases hside with rfl | rfl
  · obtain ⟨x, hx⟩ : ∃ x, a[2 * hole + 2]? = some x := ⟨_, getElem?_eq_getElem (by omega)⟩
    rw [hpath, hother (2 * hole + 2) (by omega) (by unfold parent; omega) (by omega), hx,
      Option.getD_some, Option.getD_some, if_pos (hs.left hole x z hq hx hz)]
  · obtain ⟨x, hx⟩ : ∃ x, a[2 * hole + 1]? = some x := ⟨_, getElem?_eq_getElem (by omega)⟩
    have hcomp := hs.right hole x z hq hx hz (by omega)
    rw [hpath, hother (2 * hole + 1) (by omega) (by unfold parent; omega) (by omega), hx,
      Option.getD_some, Option.getD_some, if_neg (by simp [hcomp])]

/-- The loop of `pop` moves the hole to the end of the path. -/
theorem siftDown_shifted (hs : Steady comp a) (h : Shifted a.length a b hole) (hb : b.length = a.length)
    (hlt : hole < a.length) :
    ∃ c, c.length = a.length ∧ Shifted a.length a c (parent a.length) ∧
      siftDown comp v b hole = (c, parent a.length) := by
  induction hn : a.length - hole using Nat.strongRecOn generalizing b hole with
  | ind k ih =>
    rw [siftDown]
    split_ifs with hdown
    · obtain ⟨q, hq, h0, hqp⟩ := h.above.next hlt
      have hpar := parent_lt h0
      have hql : q < a.length := by unfold parent at hqp; omega
      have hbq : b.getD q v = a[hole] := by
        rw [getD_eq_getElem?_getD, h.moved q hq (by omega) (by omega), hqp, getElem?_eq_getElem hlt,
          Option.getD_some]
      rw [child_on_path hs h hb hdown hq h0 hqp v, hbq]
      exact ih (a.length - q) (by omega) (h.down hq h0 hqp (by omega) (getElem?_eq_getElem hlt))
        (by rwa [length_set]) hql rfl
    · have hle := (h.above.to_parent hlt).le
      have hend : hole = parent a.length := by unfold parent at hle ⊢; omega
      subst hend
      exact ⟨b, hb, h, rfl⟩

/-- With the path's last element in the hole at the end of the path, all is in its place. -/
theorem Shifted.restore (h : Shifted a.length a b (Heap.parent a.length)) (hb : b.length = a.length) {w : α}
    (hw : a[Heap.parent a.length]? = some w) : b.set (Heap.parent a.length) w = a := by
  obtain ⟨hlt, -⟩ := List.getElem?_eq_some_iff.1 hw
  refine ext_getElem? fun q => ?_
  by_cases hqp : q = Heap.parent a.length
  · rw [hqp, getElem?_set_self (by omega), hw]
  · rw [getElem?_set_ne (Ne.symm hqp)]
    rcases Nat.lt_or_ge q a.length with hql | hql
    · refine h.kept q (fun ha => ?_) (by omega)
      have := (ha.to_parent hql).le
      omega
    · rw [getElem?_eq_none_iff.2 hql, getElem?_eq_none_iff.2 (by omega)]

/-- From the end of the path the path's last element finds its place. -/
theorem siftUp_restore (hs : Steady comp a) (h : Shifted a.length a b (parent a.length))
    (hb : b.length = a.length) {w : α} (hw : a[parent a.length]? = some w) :
    siftUp comp w b (parent a.length) = a := by
  rw [siftUp, if_neg, h.restore hb hw]
  rintro ⟨h0, hup⟩
  obtain ⟨hlt, -⟩ := List.getElem?_eq_some_iff.1 hw
  have hpar := parent_lt h0
  obtain ⟨x, hx⟩ : ∃ x, a[parent (parent a.length)]? = some x := ⟨_, getElem?_eq_getElem (by omega)⟩
  rw [getD_eq_getElem?_getD, h.kept _ (fun _ => hpar) (by omega), hx, Option.getD_some,
    hs.last x w h0 hx hw] at hup
  cases hup

theorem place_restore (hs : Steady comp a) (h : Shifted a.length a b (parent a.length))
    (hb : b.length = a.length) {w : α} (hw : a[parent a.length]? = some w) :
    place comp w b (parent a.length) = a := by
  unfold place
  split_ifs with hone
  · -- the only child moves up, and `w` moves it back
    obtain ⟨heven, hpeq⟩ := hone
    obtain ⟨hlt, -⟩ := List.getElem?_eq_some_iff.1 hw
    have hc : 2 * (parent a.length + 1) - 1 = a.length - 1 := by omega
    have hcp : parent (a.length - 1) = parent a.length := by unfold parent; omega
    have hne : a.length - 1 ≠ parent a.length := by omega
    obtain ⟨x, hx⟩ : ∃ x, a[a.length - 1]? = some x := ⟨_, getElem?_eq_getElem (by omega)⟩
    have hbx : b[a.length - 1]? = some x := by
      rw [h.kept _ (fun ha => ?_) (by omega), hx]
      have := (ha.to_parent (by omega)).le
      omega
    rw [hc, getD_eq_getElem?_getD, hbx, Option.getD_some, siftUp, hcp, getD_eq_getElem?_getD,
      getElem?_set_self (by omega), Option.getD_some,
      if_pos ⟨by omega, hs.sibling x w (by omega) hx hw⟩]
    refine siftUp_restore hs ?_ (by simpa using hb) hw
    refine ⟨h.above, ?_, ?_⟩
    · intro q hq hpq hql
      simp only [length_set] at hql
      have := (hq.to_parent (by omega)).le
      omega
    · intro q hq hql
      simp only [length_set] at hql
      by_cases hqc : q = a.length - 1
      · rw [hqc, getElem?_set_self (by rw [length_set]; omega), hx]
      · have hqp : q ≠ parent a.length := fun heq => by
          have := hq (heq ▸ h.above)
          omega
        rw [getElem?_set_ne (Ne.symm hqc), getElem?_set_ne (Ne.symm hqp)]
        exact h.kept q hq hql
  · exact siftUp_restore hs h hb hw

/-- **`pop` undoes `push`**, if every element compares before the new one. -/
theorem pop_push (hv : ∀ x ∈ a, comp x v = true) (hs : Steady comp a) :
    top (push comp a v) = some v ∧ pop comp (push comp a v) = a := by
  obtain ⟨l, hl, hsh, he⟩ := push_shifted hv
  rcases eq_nil_or_concat (l.set 0 v) with hnil | ⟨r, w, hr⟩
  · have := congrArg length hnil
    simp only [length_set, length_nil] at this
    omega
  rw [concat_eq_append] at hr
  have hrl : r.length = a.length := by
    have := congrArg length hr
    simp only [length_set, length_append, length_singleton] at this
    omega
  have htop : top (l.set 0 v) = some v := by
    rw [top, head?_eq_getElem?, getElem?_set_self (by omega)]
  refine ⟨he ▸ htop, ?_⟩
  rw [he, hr]
  by_cases ha : a = []
  · subst ha
    rw [length_eq_zero_iff.1 hrl]
    rfl
  · have hpos : 0 < a.length := length_pos_iff.2 ha
    have hpar := parent_lt hpos
    have hrq : ∀ q, q ≠ 0 → q < a.length → r[q]? = l[q]? := by
      intro q hq0 hql
      have h1 : (l.set 0 v)[q]? = l[q]? := getElem?_set_ne (Ne.symm hq0)
      rwa [hr, getElem?_append_left (by omega)] at h1
    have hw : a[parent a.length]? = some w := by
      have h1 : (l.set 0 v)[a.length]? = l[a.length]? := getElem?_set_ne (Nat.ne_of_lt hpos)
      rw [hr, getElem?_append_right (by omega), hrl, Nat.sub_self, getElem?_cons_zero] at h1
      rw [← hsh.moved _ .refl hpos (by omega), ← h1]
    have hrs : Shifted a.length a r 0 := by
      refine ⟨hsh.above, ?_, ?_⟩
      · intro q hq h0 hql
        rw [hrq q (by omega) (by omega)]
        exact hsh.moved q hq h0 (by omega)
      · intro q hq hql
        have hq0 : q ≠ 0 := fun heq => absurd (hq (heq ▸ hsh.above)) (by omega)
        rw [hrq q hq0 (by omega)]
        exact hsh.kept q hq (by omega)
    obtain ⟨e, hel, hes, hee⟩ := @siftDown_shifted _ comp w a r 0 hs hrs hrl hpos
    rw [pop_concat comp w (length_pos_iff.1 (by omega)), adjust, hee]
    exact place_restore hs hes hel hw

end Heap
