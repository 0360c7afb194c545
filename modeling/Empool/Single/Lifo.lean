/-
  Mode `LIFO` of a `SingleThreadPool`: when it is last-in first-out.

  `CompareFuncLesser` holds for two tasks with one reading, so a new task rises
  to the front whatever ties there are.  It is `pop` that may put an older task
  first.  As long as it undoes the last `push` (`pop_push`), the queue is what
  pushing the waiting tasks in their order makes of an empty one
  (`build`), and the newest is its front.
-/
import Empool.Single.Queue
import Empool.Lib.HeapPath
import Mathlib.Data.List.Induction

namespace Empool

open Heap Lts

variable {ks : List ℤ} {s t : Exchange} {m : ℕ}

/-- The tasks that have been added and not got, in the order in which they were added. -/
def Exchange.waiting (s : Exchange) : List PriorityTask := s.added.filter (· ∉ s.got)

/-- Whatever the order of the calls: each `GetTask` returns the most recently added task that is
    still queued. -/
def LastInFirstOut (ks : List ℤ) : Prop :=
  ∀ as s t, Run Exchange.step (Follows ks) (.create .lifo) as s → s.step .getTask = some t →
    ∃ u, t.got = s.got ++ [u] ∧ s.waiting.getLast? = some u

/-! ## The comparison -/

theorem compareFuncLesser_eq_true {l r : PriorityTask} :
    compareFuncLesser l r = true ↔ l.getPriorityValue ≤ r.getPriorityValue := by
  simp [compareFuncLesser, compareFuncGreater]

theorem compareFuncLesser_eq_false {l r : PriorityTask} :
    compareFuncLesser l r = false ↔ r.getPriorityValue < l.getPriorityValue := by
  simp [compareFuncLesser, compareFuncGreater]

theorem compareFuncLesser_negTrans : NegTrans compareFuncLesser := by
  intro x y z hxy hyz
  rw [compareFuncLesser_eq_false] at *
  exact hyz.trans hxy

theorem compareFuncLesser_total (x y : PriorityTask) (h : compareFuncLesser x y = false) :
    compareFuncLesser y x = true := by
  rw [compareFuncLesser_eq_false] at h
  exact compareFuncLesser_eq_true.2 h.le

/-! ## The tasks that wait -/

/-- The numbers of the tasks that wait. -/
def Exchange.waitingIds (ks : List ℤ) (s : Exchange) : List ℕ :=
  (List.range s.added.length).filter fun i => taskOf ks i ∉ s.got

theorem Exchange.Ok.waiting_eq (hok : s.Ok ks .lifo) : s.waiting = (s.waitingIds ks).map (taskOf ks) := by
  have hadd := hok.added
  unfold waiting waitingIds
  generalize s.added.length = m at *
  rw [hadd, firstTasks, List.filter_map]
  rfl

theorem waitingIds_pairwise (ks : List ℤ) (s : Exchange) : (s.waitingIds ks).Pairwise (· < ·) :=
  List.pairwise_lt_range.filter _

theorem waitingIds_lt (ks : List ℤ) {i : ℕ} (hi : i ∈ s.waitingIds ks) : i < s.added.length :=
  List.mem_range.1 (List.mem_of_mem_filter hi)

/-- What pushing the tasks with these numbers, one after the other, makes of an empty queue. -/
def build (ks : List ℤ) (l : List ℕ) : List PriorityTask :=
  l.foldl (fun q i => push compareFuncLesser q (taskOf ks i)) []

theorem build_concat (ks : List ℤ) (l : List ℕ) (i : ℕ) :
    build ks (l ++ [i]) = push compareFuncLesser (build ks l) (taskOf ks i) := by
  rw [build, List.foldl_append]
  rfl

theorem build_singleton (ks : List ℤ) (i : ℕ) : build ks [i] = [taskOf ks i] := push_nil ..

theorem mem_build {l : List ℕ} {x : PriorityTask} (h : x ∈ build ks l) : ∃ i ∈ l, x = taskOf ks i := by
  induction l using List.reverseRecOn with
  | nil => cases h
  | append_singleton l j ih =>
    rw [build_concat, (push_perm ..).mem_iff, List.mem_cons] at h
    rcases h with rfl | h
    · exact ⟨j, by simp, rfl⟩
    · obtain ⟨i, hi, rfl⟩ := ih h
      exact ⟨i, List.mem_append_left _ hi, rfl⟩

/-! ## When `pop` undoes `push` -/

/-- At most three tasks, or: the first and the third have different readings, and so have any two
    neighbours from the third up to the last but one. -/
def Rising (ks : List ℤ) : Prop :=
  ks.length ≤ 3 ∨
    (ks.getD 0 0 ≠ ks.getD 2 0 ∧ ∀ i, 2 ≤ i → i + 2 < ks.length → ks.getD i 0 < ks.getD (i + 1) 0)

/-- Tasks below another one in the queue: of two that are not neighbours, or not among the first
    three, the later has a larger reading. -/
theorem Rising.lt (hks : ks.Pairwise (· ≤ ·)) (h : Rising ks) {i j : ℕ} (hij : i < j)
    (hj : j + 1 < ks.length) (hfar : i + 2 ≤ j ∨ 3 ≤ j) (hlen : 3 < ks.length) :
    ks.getD i 0 < ks.getD j 0 := by
  rcases h with hshort | ⟨hne, hstrict⟩
  · omega
  · rcases Nat.lt_or_ge 2 j with h3 | h2
    · have hstep := hstrict (j - 1) (by omega) (by omega)
      rw [Nat.sub_add_cancel (by omega)] at hstep
      exact lt_of_le_of_lt (getD_le hks (by omega) (by omega)) hstep
    · obtain ⟨rfl, rfl⟩ : i = 0 ∧ j = 2 := by omega
      exact lt_of_le_of_ne (getD_le hks (by omega) (by omega)) hne

/-- In a strictly increasing list of numbers, each is at least its position. -/
theorem le_getElem_of_pairwise {l : List ℕ} (hl : l.Pairwise (· < ·)) :
    ∀ k (h : k < l.length), k ≤ l[k]
  | 0, _ => Nat.zero_le _
  | k + 1, h => by
    have hk := le_getElem_of_pairwise hl k (by omega)
    have hlt := List.pairwise_iff_getElem.1 hl k (k + 1) (by omega) h (by omega)
    omega

section
variable (hks : ks.Pairwise (· ≤ ·))
include hks

/-- An earlier task compares before a later one, also if they tie. -/
theorem lesser_taskOf {i j : ℕ} (hij : i ≤ j) (hj : j < ks.length) :
    compareFuncLesser (taskOf ks i) (taskOf ks j) = true :=
  compareFuncLesser_eq_true.2 (getD_le hks hij hj)

theorem build_pair {a b : ℕ} (hab : a < b) (hb : b < ks.length) :
    build ks [a, b] = [taskOf ks b, taskOf ks a] := by
  have hcat : build ks [a, b] = _ := build_concat ks [a] b
  rw [hcat, build_singleton]
  exact push_one (lesser_taskOf hks (by omega) hb)

theorem build_three {a b c : ℕ} (hab : a < b) (hbc : b < c) (hc : c < ks.length) :
    build ks [a, b, c] = [taskOf ks c, taskOf ks a, taskOf ks b] := by
  have hcat : build ks [a, b, c] = _ := build_concat ks [a, b] c
  rw [hcat, build_pair hks hab (by omega)]
  exact push_two (lesser_taskOf hks (by omega) hc)

theorem build_four {a b c d : ℕ} (hab : a < b) (hbc : b < c) (hcd : c < d) (hd : d < ks.length) :
    build ks [a, b, c, d] = [taskOf ks d, taskOf ks c, taskOf ks b, taskOf ks a] := by
  have hcat : build ks [a, b, c, d] = _ := build_concat ks [a, b, c] d
  rw [hcat, build_three hks hab hbc (by omega)]
  exact push_three (lesser_taskOf hks (by omega) hd) (lesser_taskOf hks (by omega) hd)

variable (hr : Rising ks)
include hr

/-- Four tasks or more, with another one to come, are in strict heap order. -/
theorem build_ordered {l : List ℕ} (hl : l.Pairwise (· < ·)) (hn : ∀ i ∈ l, i + 1 < ks.length)
    (hlen : 4 ≤ l.length) : Ordered compareFuncLesser (build ks l) := by
  induction l using List.reverseRecOn with
  | nil => exact absurd hlen (by simp)
  | append_singleton l j ih =>
    have hpos := le_getElem_of_pairwise hl l.length (by simp)
    rw [List.getElem_concat_length rfl] at hpos
    have hj : j + 1 < ks.length := hn j (by simp)
    rw [List.length_append, List.length_singleton] at hlen
    obtain ⟨hl', -, hlj⟩ := List.pairwise_append.1 hl
    have hlt : ∀ i ∈ l, compareFuncLesser (taskOf ks j) (taskOf ks i) = false := fun i hi =>
      compareFuncLesser_eq_false.2 (hr.lt hks (hlj i hi j (by simp)) hj (.inr (by omega)) (by omega))
    rcases Nat.eq_or_lt_of_le hlen with hfour | hmore
    · match l, hfour with
      | [a, b, c], _ =>
        have hbc := List.pairwise_iff_getElem.1 hl' 1 2 (by simp) (by simp) (by omega)
        have hab := List.pairwise_iff_getElem.1 hl' 0 1 (by simp) (by simp) (by omega)
        simp only [List.getElem_cons_succ, List.getElem_cons_zero] at hab hbc
        have hcj := hlj c (by simp) j (by simp)
        have hca := hr.lt hks (by omega : a < c) (by omega) (.inl (by omega)) (by omega)
        have hfour := build_four hks hab hbc hcj (by omega)
        rw [List.cons_append, List.cons_append, List.cons_append, List.nil_append, hfour]
        exact ordered_four (hlt c (by simp)) (hlt b (by simp)) (compareFuncLesser_eq_false.2 hca)
    · rw [build_concat]
      refine (ih hl' (fun i hi => hn i (List.mem_append_left _ hi)) (by omega)).push
        compareFuncLesser_negTrans fun x hx _ => ?_
      obtain ⟨i, hi, rfl⟩ := mem_build hx
      exact hlt i hi

/-- Below another task the queue is steady. -/
theorem build_steady {l : List ℕ} (hl : l.Pairwise (· < ·)) (hn : ∀ i ∈ l, i + 1 < ks.length) :
    Steady compareFuncLesser (build ks l) := by
  match l, hl, hn with
  | [], _, _ => exact steady_nil
  | [a], _, _ =>
    rw [build_singleton]
    exact steady_singleton (taskOf ks a)
  | [a, b], hl, hn =>
    have hab : a < b := (List.pairwise_cons.1 hl).1 b (by simp)
    have hb := hn b (by simp)
    rw [build_pair hks hab (by omega)]
    exact steady_pair (lesser_taskOf hks (by omega) (by omega))
  | [a, b, c], hl, hn =>
    have hab : a < b := (List.pairwise_cons.1 hl).1 b (by simp)
    have hbc : b < c := (List.pairwise_cons.1 (List.pairwise_cons.1 hl).2).1 c (by simp)
    have hc := hn c (by simp)
    rw [build_three hks hab hbc (by omega)]
    exact steady_three (compareFuncLesser_eq_false.2
      (hr.lt hks (by omega : a < c) hc (.inl (by omega)) (by omega))) (lesser_taskOf hks (by omega) (by omega))
  | a :: b :: c :: d :: l, hl, hn =>
    exact (build_ordered hks hr hl hn (by simp)).steady compareFuncLesser_total

/-- The newest task is the front, and taking it leaves what was there before it came. -/
theorem build_newest {l : List ℕ} {j : ℕ} (hl : (l ++ [j]).Pairwise (· < ·)) (hj : j < ks.length) :
    top (build ks (l ++ [j])) = some (taskOf ks j) ∧
      pop compareFuncLesser (build ks (l ++ [j])) = build ks l := by
  obtain ⟨hl', -, hlt⟩ := List.pairwise_append.1 hl
  have hlj : ∀ i ∈ l, i < j := fun i hi => hlt i hi j (by simp)
  rw [build_concat]
  refine pop_push ?_ (build_steady hks hr hl' fun i hi => ?_)
  · intro x hx
    obtain ⟨i, hi, rfl⟩ := mem_build hx
    have hij := hlj i hi
    exact lesser_taskOf hks (by omega) hj
  · have hij := hlj i hi
    omega

end

/-! ## The queue follows the waiting tasks -/

/-- The queue is what pushing the waiting tasks in their order makes of an empty one. -/
def Stacked (ks : List ℤ) (s : Exchange) : Prop := s.queues.tasks = build ks (s.waitingIds ks)

/-- A queue with a front has a newest task. -/
theorem Stacked.newest (h : Stacked ks s) {u : PriorityTask} (htop : top s.queues.tasks = some u) :
    ∃ l j, s.waitingIds ks = l ++ [j] := by
  rcases List.eq_nil_or_concat (s.waitingIds ks) with hnil | ⟨l, j, hl⟩
  · rw [h, hnil] at htop
    cases htop
  · exact ⟨l, j, by rw [hl, List.concat_eq_append]⟩

theorem Exchange.Ok.next_fresh (hok : s.Ok ks .lifo) : taskOf ks s.added.length ∉ s.got := by
  intro hmem
  obtain ⟨i, hi, heq⟩ := hok.mem_added (hok.perm.mem_iff.1 (List.mem_append_left _ hmem))
  have := taskOf_injective ks heq
  omega

theorem waitingIds_add (hok : s.Ok ks .lifo) (hadd : t.added = s.added ++ [taskOf ks s.added.length])
    (hgot : t.got = s.got) : t.waitingIds ks = s.waitingIds ks ++ [s.added.length] := by
  unfold Exchange.waitingIds
  rw [hadd, hgot, List.length_append, List.length_singleton, List.range_succ, List.filter_append]
  simp [hok.next_fresh]

theorem waitingIds_get {l : List ℕ} {j : ℕ} (hids : s.waitingIds ks = l ++ [j]) (hadd : t.added = s.added)
    (hgot : t.got = s.got ++ [taskOf ks j]) : t.waitingIds ks = l := by
  have hsplit : t.waitingIds ks = (s.waitingIds ks).filter fun i => i ≠ j := by
    unfold Exchange.waitingIds
    rw [hadd, hgot, List.filter_filter]
    refine List.filter_congr fun i _ => ?_
    simp [(taskOf_injective ks).eq_iff, and_comm]
  have hlt := (List.pairwise_append.1 (hids ▸ waitingIds_pairwise ks s)).2.2
  rw [hsplit, hids, List.filter_append]
  have hl : l.filter (fun i => i ≠ j) = l := by
    rw [List.filter_eq_self]
    intro i hi
    have hij := hlt i hi j (by simp)
    simpa using Nat.ne_of_lt hij
  rw [hl]
  simp

theorem stacked_preserved (hks : ks.Pairwise (· ≤ ·)) (hr : Rising ks) :
    PreservedUnder Exchange.step (Follows ks) (Exchange.Ok ks .lifo) (Stacked ks) := by
  intro s a t hok h hP hs
  have hcomp : RunMode.lifo.comp = compareFuncLesser := rfl
  rcases step_cases hok hP hs with ⟨-, -, -, hadd, hgot, hq⟩ | ⟨u, -, htop, hadd, hgot, hq⟩
  · unfold Stacked
    rw [hq, hcomp, waitingIds_add hok hadd hgot, build_concat, ← h]
  · obtain ⟨l, j, hids⟩ := h.newest htop
    have hj : j < s.added.length := waitingIds_lt ks (hids ▸ List.mem_append_right l List.mem_cons_self)
    have hcalled := hok.called
    obtain ⟨hfront, hpop⟩ := build_newest hks hr (hids ▸ waitingIds_pairwise ks s) (by omega)
    rw [h, hids, hfront] at htop
    cases htop
    unfold Stacked
    rw [hq, hcomp, h, hids, hpop, waitingIds_get hids hadd hgot]

/-! ## Ties that are served out of order -/

/-- With a task in front of the queue, that task must be the newest. -/
theorem Reaches.newest (hf : LastInFirstOut ks) {q got : List PriorityTask} {u : PriorityTask}
    (h : Reaches ks .lifo q got m) (hq : top q = some u) :
    ((firstTasks ks m).filter (· ∉ got)).getLast? = some u := by
  obtain ⟨as, s, hrun, rfl, rfl, hadd⟩ := h
  have hok := hrun.invariant (ok_preserved ks .lifo) (.create ks .lifo)
  obtain ⟨t, hs⟩ := getTask_enabled hq
  obtain ⟨v, hgot, hlast⟩ := hf as s t hrun hs
  rcases step_cases hok (a := .getTask) trivial hs with ⟨k, heq, -⟩ | ⟨w, -, htop, -, hgot', -⟩
  · cases heq
  · rw [Exchange.waiting, hadd] at hlast
    have hvw := hgot.symm.trans hgot'
    rw [List.append_cancel_left_eq, List.cons.injEq] at hvw
    rw [hlast, hvw.1, ← htop, hq]

/-- After the newest of `k + 2` tasks has been taken, the newest is the one before it. -/
theorem getLast?_waiting {got : List PriorityTask} {k : ℕ} (hk : taskOf ks k ∉ got) :
    ((firstTasks ks (k + 2)).filter (· ∉ got ++ [taskOf ks (k + 1)])).getLast? = some (taskOf ks k) := by
  have hne : taskOf ks k ≠ taskOf ks (k + 1) := fun heq => by
    have := taskOf_injective ks heq
    omega
  rw [firstTasks_succ, firstTasks_succ, List.filter_append, List.filter_append]
  simp [hk, hne]

theorem taskOf_notMem_firstTasks {j k : ℕ} (h : j ≤ k) : taskOf ks k ∉ firstTasks ks j := by
  intro hmem
  obtain ⟨i, hi, heq⟩ := List.mem_map.1 hmem
  have := taskOf_injective ks heq
  rw [List.mem_range] at hi
  omega

/-- Four tasks in a row, while the queue is empty. -/
theorem reaches_four (hks : ks.Pairwise (· ≤ ·)) {j : ℕ} (hj : j + 3 < ks.length) :
    Reaches ks .lifo [taskOf ks (j + 3), taskOf ks (j + 2), taskOf ks (j + 1), taskOf ks j]
      (firstTasks ks j) (j + 4) := by
  have h0 : Reaches ks .lifo (build ks []) (firstTasks ks j) j := .each (by omega)
  have hadd : ∀ {l m}, Reaches ks .lifo (build ks l) (firstTasks ks j) m → m < ks.length →
      Reaches ks .lifo (build ks (l ++ [m])) (firstTasks ks j) (m + 1) := by
    intro l m h hm
    rw [build_concat]
    exact h.add hm
  have h4 := hadd (hadd (hadd (hadd h0 (by omega)) (by omega)) (by omega)) hj
  rw [← build_four hks (by omega : j < j + 1) (by omega : j + 1 < j + 2) (by omega : j + 2 < j + 3) hj]
  exact h4

/-- The first three of four tasks tie: once the fourth is taken, the first is the front. -/
theorem first_tie (hks : ks.Pairwise (· ≤ ·)) (hlen : 3 < ks.length) (htie : ks.getD 0 0 = ks.getD 2 0) :
    ¬ LastInFirstOut ks := by
  intro hf
  have h1 : compareFuncLesser (taskOf ks 1) (taskOf ks 2) = true := lesser_taskOf hks (by omega) (by omega)
  have h2 : compareFuncLesser (taskOf ks 2) (taskOf ks 0) = true := compareFuncLesser_eq_true.2 htie.ge
  have hpop : pop RunMode.lifo.comp [taskOf ks 3, taskOf ks 2, taskOf ks 1, taskOf ks 0] =
      [taskOf ks 0, taskOf ks 2, taskOf ks 1] := pop_four h1 h2
  have h := (reaches_four hks (j := 0) hlen).get rfl
  rw [hpop] at h
  have hnew := h.newest hf rfl
  rw [getLast?_waiting (taskOf_notMem_firstTasks (by omega))] at hnew
  have := taskOf_injective ks (Option.some.inj hnew)
  omega

/-- The third of five tasks in a row ties with the fourth: once the fifth is taken, the third is the
    front. -/
theorem later_tie (hks : ks.Pairwise (· ≤ ·)) {j : ℕ} (hj : j + 4 < ks.length)
    (htie : ks.getD (j + 2) 0 = ks.getD (j + 3) 0) : ¬ LastInFirstOut ks := by
  intro hf
  have h1 : compareFuncLesser (taskOf ks (j + 1)) (taskOf ks (j + 3)) = true :=
    lesser_taskOf hks (by omega) (by omega)
  have h2 : compareFuncLesser (taskOf ks j) (taskOf ks (j + 2)) = true := lesser_taskOf hks (by omega) (by omega)
  have h3 : compareFuncLesser (taskOf ks (j + 3)) (taskOf ks (j + 2)) = true :=
    compareFuncLesser_eq_true.2 htie.ge
  have hpush : push RunMode.lifo.comp [taskOf ks (j + 3), taskOf ks (j + 2), taskOf ks (j + 1), taskOf ks j]
      (taskOf ks (j + 4)) =
      [taskOf ks (j + 4), taskOf ks (j + 3), taskOf ks (j + 1), taskOf ks j, taskOf ks (j + 2)] :=
    push_four (lesser_taskOf hks (by omega) hj) (lesser_taskOf hks (by omega) hj)
  have hpop : pop RunMode.lifo.comp
      [taskOf ks (j + 4), taskOf ks (j + 3), taskOf ks (j + 1), taskOf ks j, taskOf ks (j + 2)] =
      [taskOf ks (j + 2), taskOf ks (j + 3), taskOf ks (j + 1), taskOf ks j] := pop_five h1 h2 h3
  have h := (reaches_four hks (by omega)).add hj
  rw [hpush] at h
  have hgot := h.get rfl
  rw [hpop] at hgot
  have hnew := hgot.newest hf rfl
  rw [getLast?_waiting (taskOf_notMem_firstTasks (by omega))] at hnew
  have := taskOf_injective ks (Option.some.inj hnew)
  omega

/-- **When mode `LIFO` is last-in first-out.**  With readings that do not fall, each `GetTask` returns the
    most recently added task that is still queued, in every interleaving, if and only if there are at
    most three tasks, or the first and the third have different readings and so have any two neighbours
    from the third up to the last but one. -/
theorem lifo_iff (hks : ks.Pairwise (· ≤ ·)) : LastInFirstOut ks ↔ Rising ks := by
  constructor
  · intro hf
    by_contra hcon
    obtain ⟨hlen, hcon⟩ := not_or.1 hcon
    refine hcon ⟨fun htie => first_tie hks (by omega) htie hf, fun i hi hlt => ?_⟩
    rcases lt_or_eq_of_le (getD_le hks (by omega : i ≤ i + 1) (by omega)) with hstep | htie
    · exact hstep
    · obtain ⟨j, rfl⟩ : ∃ j, i = j + 2 := ⟨i - 2, by omega⟩
      exact absurd hf (later_tie hks hlt htie)
  · intro hr as s t hrun hs
    have hok := hrun.invariant (ok_preserved ks .lifo) (.create ks .lifo)
    have hst : Stacked ks s := hrun.invariant_under (ok_preserved ks .lifo) (stacked_preserved hks hr)
      (.create ks .lifo) rfl
    rcases step_cases hok (a := .getTask) trivial hs with ⟨k, heq, -⟩ | ⟨u, -, htop, -, hgot, -⟩
    · cases heq
    · obtain ⟨l, j, hids⟩ := hst.newest htop
      have hj := waitingIds_lt ks (hids ▸ List.mem_append_right l List.mem_cons_self)
      have hcalled := hok.called
      have hfront := (build_newest hks hr (hids ▸ waitingIds_pairwise ks s) (by omega)).1
      rw [hst, hids, hfront] at htop
      refine ⟨u, hgot, ?_⟩
      rw [hok.waiting_eq, hids, List.map_append]
      simpa using htop

/-- Four calls within one second, then two calls of `GetTask`: the second returns the oldest task. -/
theorem lifo_oldest_first :
    [7, 7, 7, 7].Pairwise (fun k l : ℤ => k ≤ l) ∧ ¬ LastInFirstOut [7, 7, 7, 7] := by
  refine ⟨by decide, fun hf => ?_⟩
  have hexec : ((exec Exchange.step (Follows [7, 7, 7, 7]) (.create .lifo) [.addTask 7, .addTask 7, .addTask 7,
      .addTask 7, .getTask]).bind fun s => (s.step .getTask).map fun t => (s.waiting.getLast?, s.got, t.got)) =
      some (some (.functor 2 7), [.functor 3 7], [.functor 3 7, .functor 0 7]) := by decide +kernel
  obtain ⟨s, hs, hstep⟩ := Option.bind_eq_some_iff.1 hexec
  obtain ⟨t, ht, heq⟩ := Option.map_eq_some_iff.1 hstep
  obtain ⟨u, hgot, hlast⟩ := hf _ s t (run_of_exec hs) ht
  simp only [Prod.mk.injEq] at heq
  obtain ⟨h1, h2, h3⟩ := heq
  rw [h1, Option.some.injEq] at hlast
  rw [h2, h3, ← hlast] at hgot
  exact absurd hgot (by decide)

/-- Five calls, of which the first two and the last two are within one second. -/
theorem lifo_iff_five : LastInFirstOut [7, 7, 8, 9, 9] :=
  (lifo_iff (by decide)).2 (.inr ⟨by decide, fun i hi hlt => by
    have hi2 : i = 2 := by simp only [List.length_cons, List.length_nil] at hlt; omega
    subst hi2
    decide⟩)

end Empool
