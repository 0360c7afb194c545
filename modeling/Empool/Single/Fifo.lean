/-
  Mode `FIFO` of a `SingleThreadPool`: when it is first-in first-out.

  The order of arrival is known to the queue only as the clock reading in whole
  seconds.  As the readings do not fall, a new task stays where it is appended;
  it is `pop` that may reorder tasks with one reading.  Up to three tasks it
  does not; and it does not as long as only the first task ties with the
  second, since the first is the front from the start.  All other ties are
  served out of order in some interleaving (`fifo_iff`).
-/
import Empool.Single.Queue
import Mathlib.Data.Int.Order.Basic
import Mathlib.Order.Lattice

namespace Empool

open Heap Lts

variable {ks : List ℤ} {s t : Exchange} {m : ℕ}

/-- Whatever the order of the calls: `GetTask` returns the tasks in the order in which they were added. -/
def FirstInFirstOut (ks : List ℤ) : Prop :=
  ∀ as t, Run Exchange.step (Follows ks) (.create .fifo) as t → t.got <+: t.added

/-! ## The comparison -/

theorem compareFuncGreater_eq_false {l r : PriorityTask} :
    compareFuncGreater l r = false ↔ l.getPriorityValue ≤ r.getPriorityValue := by
  simp [compareFuncGreater]

theorem compareFuncGreater_negTrans : NegTrans compareFuncGreater := by
  intro x y z hxy hyz
  rw [compareFuncGreater_eq_false] at *
  exact Int.le_trans hxy hyz

theorem compareFuncGreater_asymm : Asymm compareFuncGreater := by
  intro x y hxy
  rw [compareFuncGreater, decide_eq_true_eq] at hxy
  rw [compareFuncGreater_eq_false]
  exact Int.le_of_lt hxy

/-! ## The readings -/

theorem getD_lt (hks : ks.tail.Pairwise (· < ·)) {i j : ℕ} (hi : 0 < i) (hij : i < j) (hj : j < ks.length) :
    ks.getD i 0 < ks.getD j 0 := by
  rw [getD_of_lt (by omega), getD_of_lt hj]
  have h := List.pairwise_iff_getElem.1 hks (i - 1) (j - 1) (by rw [List.length_tail]; omega)
    (by rw [List.length_tail]; omega) (by omega)
  simp only [List.getElem_tail] at h
  have hi1 : i - 1 + 1 = i := by omega
  have hj1 : j - 1 + 1 = j := by omega
  simpa only [hi1, hj1] using h

theorem Exchange.Ok.added_pairwise (hks : ks.Pairwise (· ≤ ·)) (hok : s.Ok ks .fifo) :
    s.added.Pairwise fun u w => u.getPriorityValue ≤ w.getPriorityValue := by
  have hcalled := hok.called
  rw [hok.added]
  refine List.pairwise_iff_getElem.2 fun i j hi hj hij => ?_
  simp only [firstTasks_length] at hi hj
  simp only [firstTasks, List.getElem_map, List.getElem_range, getPriorityValue_taskOf]
  exact getD_le hks hij.le (by omega)

theorem Exchange.Ok.added_tail_pairwise (hks : ks.tail.Pairwise (· < ·)) (hok : s.Ok ks .fifo) :
    s.added.tail.Pairwise fun u w => u.getPriorityValue < w.getPriorityValue := by
  have hcalled := hok.called
  rw [hok.added]
  refine List.pairwise_iff_getElem.2 fun i j hi hj hij => ?_
  simp only [List.length_tail, firstTasks_length] at hi hj
  simp only [List.getElem_tail, firstTasks, List.getElem_map, List.getElem_range, getPriorityValue_taskOf]
  exact getD_lt hks (by omega) (by omega) (by omega)

/-- A new task stays where it is appended. -/
theorem push_appends (hks : ks.Pairwise (· ≤ ·)) (hok : s.Ok ks .fifo) (hm : s.added.length < ks.length) :
    push compareFuncGreater s.queues.tasks (taskOf ks s.added.length) =
      s.queues.tasks ++ [taskOf ks s.added.length] := by
  refine push_of_not_comp fun x hx => ?_
  obtain ⟨i, hi, rfl⟩ := hok.mem_added (hok.perm.mem_iff.1 (List.mem_append_right _ hx))
  rw [compareFuncGreater_eq_false]
  exact getD_le hks hi.le hm

/-! ## Up to three tasks -/

/-- A queue of at most three tasks in order loses its front. -/
theorem pop_short {u : PriorityTask} {q : List PriorityTask}
    (hq : (u :: q).Pairwise fun v w => v.getPriorityValue ≤ w.getPriorityValue) (hlen : q.length ≤ 2) :
    pop compareFuncGreater (u :: q) = q := by
  match q, hlen with
  | [], _ => rfl
  | [y], _ => exact pop_two ..
  | [y, z], _ =>
    refine pop_three ?_
    simp only [List.pairwise_cons, List.mem_cons, List.not_mem_nil] at hq
    exact compareFuncGreater_eq_false.2 (hq.2.1 z (.inl rfl))

/-- The queue holds what has been added and not got, in order. -/
def InOrder (s : Exchange) : Prop := s.added = s.got ++ s.queues.tasks

theorem inOrder_preserved (hks : ks.Pairwise (· ≤ ·)) (hlen : ks.length ≤ 3) :
    PreservedUnder Exchange.step (Follows ks) (Exchange.Ok ks .fifo) InOrder := by
  intro s a t hok hi hP hs
  have hcomp : RunMode.fifo.comp = compareFuncGreater := rfl
  unfold InOrder at hi ⊢
  rcases step_cases hok hP hs with ⟨-, -, hlt, hadd, hgot, hq⟩ | ⟨u, -, htop, hadd, hgot, hq⟩
  · rw [hadd, hgot, hq, hcomp, push_appends hks hok hlt, ← List.append_assoc, ← hi]
  · obtain ⟨q, hcons⟩ := List.head?_eq_some_iff.1 htop
    have hsub : (u :: q).Sublist s.added := by
      rw [hi, hcons]
      exact List.sublist_append_right ..
    have hsorted := (hok.added_pairwise hks).sublist hsub
    have hshort := hsub.length_le
    rw [List.length_cons] at hshort
    have hcalled := hok.called
    rw [hadd, hgot, hq, hcomp, hcons, pop_short hsorted (by omega), hi, hcons, List.append_assoc]
    rfl

/-! ## A tie of the first two tasks only -/

/-- The queue is a heap, served in order so far; until a task is got it is in the order of arrival. -/
structure Served (s : Exchange) : Prop where
  ordered : Ordered compareFuncGreater s.queues.tasks
  served : s.got <+: s.added
  untouched : s.got = [] → s.queues.tasks = s.added

/-- The front of the queue is the oldest task in it. -/
theorem Served.oldest (hstrict : ks.tail.Pairwise (· < ·)) (hok : s.Ok ks .fifo) (h : Served s)
    {u : PriorityTask} (htop : top s.queues.tasks = some u) : s.got ++ [u] <+: s.added := by
  obtain ⟨rest, hrest⟩ := h.served
  cases hgot : s.got with
  | nil =>
    rw [← h.untouched hgot]
    obtain ⟨q, hcons⟩ := List.head?_eq_some_iff.1 htop
    exact ⟨q, hcons.symm⟩
  | cons v got =>
    have hperm : s.queues.tasks.Perm rest :=
      (List.perm_append_left_iff s.got).1 (hrest ▸ hok.perm)
    obtain ⟨q, hcons⟩ := List.head?_eq_some_iff.1 htop
    have hu : u ∈ rest := hperm.mem_iff.1 (hcons ▸ List.mem_cons_self)
    cases rest with
    | nil => cases hu
    | cons w rest =>
      -- from the second task on, a task that arrived earlier has a smaller reading
      have hsorted : (w :: rest).Pairwise fun u w => u.getPriorityValue < w.getPriorityValue := by
        have htail := hok.added_tail_pairwise hstrict
        rw [← hrest, hgot] at htail
        exact htail.sublist (List.sublist_append_right ..)
      rw [← hgot]
      rcases List.mem_cons.1 hu with rfl | hu
      · exact ⟨rest, by rw [← hrest, List.append_assoc]; rfl⟩
      · have hlt := (List.pairwise_cons.1 hsorted).1 u hu
        have hw : w ∈ s.queues.tasks := hperm.mem_iff.2 List.mem_cons_self
        rcases h.ordered.top compareFuncGreater_negTrans htop hw with rfl | hle
        · exact absurd hlt (Int.lt_irrefl _)
        · exact absurd hlt (Int.not_lt.2 (compareFuncGreater_eq_false.1 hle))

theorem served_preserved (hks : ks.Pairwise (· ≤ ·)) (hstrict : ks.tail.Pairwise (· < ·)) :
    PreservedUnder Exchange.step (Follows ks) (Exchange.Ok ks .fifo) Served := by
  intro s a t hok h hP hs
  have hcomp : RunMode.fifo.comp = compareFuncGreater := rfl
  rcases step_cases hok hP hs with ⟨-, -, hlt, hadd, hgot, hq⟩ | ⟨u, -, htop, hadd, hgot, hq⟩
  · refine ⟨?_, ?_, ?_⟩
    · rw [hq, hcomp]
      exact h.ordered.push compareFuncGreater_negTrans fun x _ => compareFuncGreater_asymm x _
    · rw [hadd, hgot]
      exact h.served.trans (List.prefix_append ..)
    · intro hnil
      rw [hq, hcomp, push_appends hks hok hlt, h.untouched (hgot ▸ hnil), hadd]
  · refine ⟨?_, ?_, ?_⟩
    · rw [hq, hcomp]
      exact h.ordered.pop compareFuncGreater_negTrans compareFuncGreater_asymm
    · rw [hadd, hgot]
      exact h.oldest hstrict hok htop
    · intro hnil
      rw [hgot] at hnil
      exact absurd hnil (by simp)

/-! ## Ties that are served out of order -/

/-- A task that is appended, in mode `FIFO`. -/
theorem Reaches.append {q got : List PriorityTask} (h : Reaches ks .fifo q got m) (hm : m < ks.length)
    (hq : ∀ u ∈ q, u.getPriorityValue ≤ ks.getD m 0) : Reaches ks .fifo (q ++ [taskOf ks m]) got (m + 1) := by
  have hpush : push RunMode.fifo.comp q (taskOf ks m) = q ++ [taskOf ks m] :=
    push_of_not_comp fun x hx => compareFuncGreater_eq_false.2 (hq x hx)
  exact hpush ▸ h.add hm

/-- Four tasks in a row, while the queue is empty, of which the first has been taken. -/
theorem reaches_window (hks : ks.Pairwise (· ≤ ·)) {j : ℕ} (hj : j + 3 < ks.length) :
    Reaches ks .fifo
      (pop compareFuncGreater [taskOf ks j, taskOf ks (j + 1), taskOf ks (j + 2), taskOf ks (j + 3)])
      (firstTasks ks j ++ [taskOf ks j]) (j + 4) := by
  have h0 : Reaches ks .fifo [] (firstTasks ks j) j := .each (by omega)
  have h1 := h0.append (by omega) (by simp)
  have h2 := h1.append (by omega) (by simpa using getD_le hks (by omega : j ≤ j + 1) (by omega))
  have h3 := h2.append (by omega) (by
    simpa using And.intro (getD_le hks (by omega : j ≤ j + 2) (by omega))
      (getD_le hks (by omega : j + 1 ≤ j + 2) (by omega)))
  have h4 := h3.append hj (by
    simpa using And.intro (getD_le hks (by omega : j ≤ j + 3) hj)
      (And.intro (getD_le hks (by omega : j + 1 ≤ j + 3) hj) (getD_le hks (by omega : j + 2 ≤ j + 3) hj)))
  exact h4.get rfl

/-- The tasks got are a first part of the tasks added only if each is the next one. -/
theorem Reaches.next_task (hf : FirstInFirstOut ks) {q got : List PriorityTask} {i : ℕ}
    (h : Reaches ks .fifo q (got ++ [taskOf ks i]) m) : i = got.length := by
  obtain ⟨as, s, hrun, -, hgot, hadd⟩ := h
  have hpre := hf as s hrun
  rw [hgot, hadd] at hpre
  have hlast : (firstTasks ks m)[got.length]? = some (taskOf ks i) := by
    obtain ⟨rest, hrest⟩ := hpre
    rw [← hrest, List.append_assoc, List.getElem?_append_right (Nat.le_refl _), Nat.sub_self]
    rfl
  obtain ⟨hlt, heq⟩ := List.getElem?_eq_some_iff.1 hlast
  simp only [firstTasks, List.getElem_map, List.getElem_range] at heq
  exact (taskOf_injective ks heq).symm

theorem pop_four_tie {u v w x : PriorityTask} (htie : v.getPriorityValue = w.getPriorityValue)
    (hwx : w.getPriorityValue ≤ x.getPriorityValue) : pop compareFuncGreater [u, v, w, x] = [w, v, x] := by
  have h1 : compareFuncGreater w v = false := compareFuncGreater_eq_false.2 htie.ge
  have h2 := compareFuncGreater_eq_false.2 hwx
  simp [pop, adjust, siftDown, child, place, siftUp, parent, h1, h2]

theorem pop_four_last {u v w x : PriorityTask} (hvw : v.getPriorityValue < w.getPriorityValue)
    (htie : w.getPriorityValue = x.getPriorityValue) : pop compareFuncGreater [u, v, w, x] = [v, x, w] := by
  have h1 : compareFuncGreater w v = true := by simpa [compareFuncGreater] using hvw
  have h2 : compareFuncGreater v x = false := compareFuncGreater_eq_false.2 (htie ▸ hvw.le)
  simp [pop, adjust, siftDown, child, place, siftUp, parent, h1, h2]

/-- The second of four tasks ties with the third: the third is taken before it. -/
theorem middle_tie (hks : ks.Pairwise (· ≤ ·)) {j : ℕ} (hj : j + 3 < ks.length)
    (htie : ks.getD (j + 1) 0 = ks.getD (j + 2) 0) : ¬ FirstInFirstOut ks := by
  intro hf
  have h := reaches_window hks hj
  have hpop := @pop_four_tie (taskOf ks j) (taskOf ks (j + 1)) (taskOf ks (j + 2)) (taskOf ks (j + 3)) htie
    (getD_le hks (by omega) hj)
  rw [hpop] at h
  have hnext := (h.get rfl).next_task hf
  simp at hnext

/-- The third of four tasks ties with the last, and not with the second: the last is taken before it. -/
theorem last_tie (hks : ks.Pairwise (· ≤ ·)) {j : ℕ} (hj : j + 3 < ks.length)
    (hlt : ks.getD (j + 1) 0 < ks.getD (j + 2) 0) (htie : ks.getD (j + 2) 0 = ks.getD (j + 3) 0) :
    ¬ FirstInFirstOut ks := by
  intro hf
  have h := reaches_window hks hj
  have hfirst := @pop_four_last (taskOf ks j) (taskOf ks (j + 1)) (taskOf ks (j + 2)) (taskOf ks (j + 3)) hlt htie
  rw [hfirst] at h
  have h2 := h.get rfl
  have hpop : pop RunMode.fifo.comp [taskOf ks (j + 1), taskOf ks (j + 3), taskOf ks (j + 2)] =
      [taskOf ks (j + 3), taskOf ks (j + 2)] := pop_three (compareFuncGreater_eq_false.2 htie.ge)
  rw [hpop] at h2
  have hnext := (h2.get rfl).next_task hf
  simp at hnext

/-- A tie of two tasks other than the first shows, among four tasks or more. -/
theorem tie_shows (hks : ks.Pairwise (· ≤ ·)) (hlen : 3 < ks.length) {i : ℕ} (hi : 0 < i)
    (hlt : i + 1 < ks.length) (htie : ks.getD i 0 = ks.getD (i + 1) 0) : ¬ FirstInFirstOut ks := by
  rcases Nat.lt_or_ge (i + 2) ks.length with hmid | hend
  · obtain ⟨j, rfl⟩ : ∃ j, i = j + 1 := ⟨i - 1, by omega⟩
    exact middle_tie hks hmid htie
  · obtain ⟨j, rfl⟩ : ∃ j, i = j + 2 := ⟨i - 2, by omega⟩
    rcases lt_or_ge (ks.getD (j + 1) 0) (ks.getD (j + 2) 0) with hgt | hle
    · exact last_tie hks hlt hgt htie
    · exact middle_tie hks hlt (Int.le_antisymm (getD_le hks (by omega) (by omega)) hle)

/-- **When mode `FIFO` is first-in first-out.**  With readings that do not fall, `GetTask` returns the
    tasks in the order in which they were added, in every interleaving, if and only if there are at most
    three tasks, or no two tasks but the first two have the same reading. -/
theorem fifo_iff (hks : ks.Pairwise (· ≤ ·)) :
    FirstInFirstOut ks ↔ ks.length ≤ 3 ∨ ks.tail.Pairwise (· < ·) := by
  constructor
  · intro hf
    by_contra hcon
    obtain ⟨hlen, hstrict⟩ := not_or.1 hcon
    refine hstrict (List.isChain_iff_pairwise.1 (List.isChain_iff_getElem.2 fun i hi => ?_))
    rw [List.length_tail] at hi
    simp only [List.getElem_tail]
    have hle := getD_le hks (by omega : i + 1 ≤ i + 1 + 1) (by omega)
    rcases Int.lt_or_eq_of_le hle with hlt | htie
    · rwa [getD_of_lt (by omega), getD_of_lt (by omega)] at hlt
    · exact absurd hf (tie_shows hks (by omega) (by omega) (by omega) htie)
  · rintro (hlen | hstrict) as t hrun
    · have hi : InOrder t := hrun.invariant_under (ok_preserved ks .fifo) (inOrder_preserved hks hlen)
        (.create ks .fifo) rfl
      exact ⟨_, hi.symm⟩
    · have h : Served t := hrun.invariant_under (ok_preserved ks .fifo) (served_preserved hks hstrict)
        (.create ks .fifo) ⟨.nil, List.prefix_rfl, fun _ => rfl⟩
      exact h.served

/-- Four calls within one second, then four calls of `GetTask`: the third task overtakes the second. -/
theorem fifo_overtakes : [7, 7, 7, 7].Pairwise (fun k l : ℤ => k ≤ l) ∧ ¬ FirstInFirstOut [7, 7, 7, 7] := by
  refine ⟨by decide, fun hf => ?_⟩
  have hexec : (exec Exchange.step (Follows [7, 7, 7, 7]) (.create .fifo) [.addTask 7, .addTask 7, .addTask 7,
      .addTask 7, .getTask, .getTask]).map (fun t => decide (t.got <+: t.added)) = some false := by decide +kernel
  obtain ⟨t, ht, hno⟩ := Option.map_eq_some_iff.1 hexec
  exact (of_decide_eq_false hno) (hf _ t (run_of_exec ht))

/-- Four calls in four seconds. -/
theorem fifo_iff_four : FirstInFirstOut [7, 8, 9, 10] :=
  (fifo_iff (by decide)).2 (.inr (by decide))

end Empool
