/-
  `BlockingQueue` loses no wake-up.

  `Push` broadcasts only if it finds the queue empty.  That is enough, because a
  thread goes to sleep only on an empty queue and only `Push` fills it: while
  somebody sleeps unnotified the queue is empty (`Sound.asleep`), so the next
  `Push` is one that broadcasts.

  A `PopTimeWait` returns false by the expiry of its wait only (`Trans.gives_up`),
  and has not looked at the queue since the wait began: what it then knows of the
  queue is what was there at its last test (`Booked`).
-/
import Empool.Queue.Blocking
import Empool.Lib.Mutex

namespace Empool

open Lts

namespace BlockingQueue

variable {α : Type} {s t : BlockingQueue α} {c d : ℕ} {a : Act α} {th : Thread α}

/-! ## What a step changes -/

/-- `Trans s a t`: the cases of the step `a`. -/
inductive Trans (s : BlockingQueue α) : Act α → BlockingQueue α → Prop
  | callPush {c : ℕ} {elem : α} (hpc : (s.threads c).pc = .idle) :
      Trans s (.push c elem) (s.goto c (.lockPush elem))
  | callTake {c : ℕ} {op : Op} {elem : Option α} (hpc : (s.threads c).pc = .idle) :
      Trans s (.take c op elem) (s.set c { s.threads c with pc := .lock op, elem := elem, given := elem })
  | lockPush {c : ℕ} {elem : α} (hpc : (s.threads c).pc = .lockPush elem) (hm : s.mutex = none) :
      Trans s (.next c) { s.goto c (.notifyAll elem) with mutex := some c }
  | notifyAll {c : ℕ} {elem : α} (hpc : (s.threads c).pc = .notifyAll elem) (hq : s.queue = []) :
      Trans s (.next c) (s.notifyAll.goto c (.push elem))
  | notifyNone {c : ℕ} {elem : α} (hpc : (s.threads c).pc = .notifyAll elem) (hq : s.queue ≠ []) :
      Trans s (.next c) (s.goto c (.push elem))
  | push {c : ℕ} {elem : α} (hpc : (s.threads c).pc = .push elem) : Trans s (.next c)
      { s.goto c (.unlock true) with queue := s.queue ++ [elem], pushed := s.pushed ++ [elem] }
  | lock {c : ℕ} {op : Op} (hpc : (s.threads c).pc = .lock op) (hm : s.mutex = none) :
      Trans s (.next c) { s.goto c (.test op) with mutex := some c }
  | wait {c : ℕ} {op : Op} (hpc : (s.threads c).pc = .test op) (hq : s.queue = []) :
      Trans s (.next c) { s.tested c (.wait op false) with mutex := none }
  | leave {c : ℕ} {op : Op} (hpc : (s.threads c).pc = .test op) (hq : s.queue ≠ []) :
      Trans s (.next c) (s.tested c (.front op))
  | front {c : ℕ} {op : Op} (hpc : (s.threads c).pc = .front op) : Trans s (.next c) (s.set c
      { s.threads c with pc := if op = .front then .unlock true else .pop, elem := s.queue.head? })
  | pop {c : ℕ} (hpc : (s.threads c).pc = .pop) : Trans s (.next c) { s.goto c (.unlock true) with
      queue := s.queue.tail, popped := s.popped ++ s.queue.head?.toList }
  | unlock {c : ℕ} {result : Bool} (hpc : (s.threads c).pc = .unlock result) :
      Trans s (.next c) { s.goto c .idle with mutex := none }
  | wake {c : ℕ} {op : Op} {n : Bool} (hpc : (s.threads c).pc = .wait op n) (hm : s.mutex = none) :
      Trans s (.wake c) { s.goto c (.test op) with mutex := some c }
  | expire {c : ℕ} {n : Bool} (hpc : (s.threads c).pc = .wait .popTimeWait n) (hm : s.mutex = none) :
      Trans s (.expire c) { s.goto c (.unlock false) with mutex := some c }

theorem lock_eq_some {pc : Pc α} (h : s.lock c pc = some t) :
    s.mutex = none ∧ t = { s.goto c pc with mutex := some c } := by
  unfold lock at h
  split_ifs at h with hm
  exact ⟨hm, (Option.some.inj h).symm⟩

theorem Trans.of_next (hs : s.next c = some t) : Trans s (.next c) t := by
  unfold next at hs
  cases hpc : (s.threads c).pc with
  | idle | wait => rw [hpc] at hs; cases hs
  | lockPush elem =>
    rw [hpc] at hs
    obtain ⟨hm, rfl⟩ := lock_eq_some hs
    exact .lockPush hpc hm
  | notifyAll elem =>
    rw [hpc] at hs
    cases hs
    cases hq : s.queue with
    | nil => exact .notifyAll hpc hq
    | cons x q => exact .notifyNone hpc (by rw [hq]; exact List.cons_ne_nil x q)
  | push elem => rw [hpc] at hs; cases hs; exact .push hpc
  | lock op =>
    rw [hpc] at hs
    obtain ⟨hm, rfl⟩ := lock_eq_some hs
    exact .lock hpc hm
  | test op =>
    rw [hpc] at hs
    cases hq : s.queue with
    | nil => rw [hq] at hs; cases hs; exact .wait hpc hq
    | cons x q => rw [hq] at hs; cases hs; exact .leave hpc (by rw [hq]; exact List.cons_ne_nil x q)
  | front op => rw [hpc] at hs; cases hs; exact .front hpc
  | pop => rw [hpc] at hs; cases hs; exact .pop hpc
  | unlock result => rw [hpc] at hs; cases hs; exact .unlock hpc

theorem Trans.of_step (hs : step s a = some t) : Trans s a t := by
  cases a with
  | push c elem =>
    simp only [step] at hs
    split at hs
    next hpc => cases hs; exact .callPush hpc
    next => cases hs
  | take c op elem =>
    simp only [step] at hs
    split at hs
    next hpc => cases hs; exact .callTake hpc
    next => cases hs
  | next c => exact .of_next hs
  | wake c =>
    simp only [step] at hs
    split at hs
    next hpc =>
      obtain ⟨hm, rfl⟩ := lock_eq_some hs
      exact .wake hpc hm
    next => cases hs
  | expire c =>
    simp only [step] at hs
    split at hs
    next hpc =>
      obtain ⟨hm, rfl⟩ := lock_eq_some hs
      exact .expire hpc hm
    next => cases hs

/-! ## Who holds the mutex, who sleeps -/

/-- Between `Lock()` and `Unlock()`. -/
def Pc.holds : Pc α → Prop
  | .notifyAll _ | .push _ | .test _ | .front _ | .pop | .unlock _ => True
  | .idle | .lockPush _ | .lock _ | .wait _ _ => False

/-- Blocked, and not notified. -/
def Pc.asleep : Pc α → Prop
  | .wait _ notified => notified = false
  | _ => False

/-- About to execute `m_queue.push`. -/
def Pc.pushes : Pc α → Prop
  | .push _ => True
  | _ => False

/-- About to read the front of the queue, or to remove it. -/
def Pc.reads : Pc α → Prop
  | .front _ | .pop => True
  | _ => False

theorem Pc.pushes.holds {pc : Pc α} (h : pc.pushes) : pc.holds := by
  cases pc with
  | push => trivial
  | _ => cases h

theorem Pc.reads.holds {pc : Pc α} (h : pc.reads) : pc.holds := by
  cases pc with
  | front | pop => trivial
  | _ => cases h

/-- The mutex excludes; a thread that sleeps found the queue empty, and nobody has broadcast without it; a
    thread that reads the front found the queue not empty. -/
structure Sound (s : BlockingQueue α) : Prop where
  locked : Locked (fun th : Thread α => th.pc.holds) s.threads s.mutex
  asleep : ∀ c, (s.threads c).pc.asleep → s.queue = [] ∧ ∀ d, ¬ (s.threads d).pc.pushes
  reads : ∀ c, (s.threads c).pc.reads → s.queue ≠ []

theorem sound_create (q : List α) : (create q).Sound where
  locked c hc := by cases hc
  asleep c hc := by cases hc
  reads c hc := by cases hc

/-- A step of the thread `c` that leaves the queue. -/
theorem Sound.set (h : s.Sound) {m : Option ℕ}
    (hlocked : Locked (fun th : Thread α => th.pc.holds) (s.set c th).threads m)
    (hasleep : th.pc.asleep → s.queue = [] ∧ ∀ d, d ≠ c → ¬ (s.threads d).pc.pushes)
    (hpush : th.pc.pushes → ∀ d, d ≠ c → ¬ (s.threads d).pc.asleep)
    (hreads : th.pc.reads → s.queue ≠ []) : Sound { s.set c th with mutex := m } := by
  refine ⟨hlocked, fun d => ?_, fun d => ?_⟩
  · refine update_of (P := fun x : Thread α => x.pc.asleep → s.queue = [] ∧ ∀ d, ¬ ((s.set c th).threads d).pc.pushes)
      (fun _ hs => ?_) (fun hd hs => ?_)
    · refine ⟨(hasleep hs).1, fun e => ?_⟩
      refine update_of (P := fun x : Thread α => ¬ x.pc.pushes) (fun _ hp => ?_) (fun he => (hasleep hs).2 e he)
      revert hs hp
      cases th.pc <;> simp [Pc.asleep, Pc.pushes]
    · obtain ⟨hq, hno⟩ := h.asleep d hs
      refine ⟨hq, fun e => ?_⟩
      exact update_of (P := fun x : Thread α => ¬ x.pc.pushes) (fun _ hp => hpush hp d hd hs) fun _ => hno e
  · exact update_of (P := fun x : Thread α => x.pc.reads → s.queue ≠ []) (fun _ => hreads) fun _ => h.reads d

/-- A step of the thread `c` that changes the queue: it holds the mutex, and nobody sleeps. -/
theorem Sound.change (h : s.Sound) (hc : (s.threads c).pc.holds) (hno : ∀ d, ¬ (s.threads d).pc.asleep)
    {q pushed popped : List α} :
    Sound { s.goto c (.unlock true) with queue := q, pushed := pushed, popped := popped } := by
  refine ⟨h.locked.keep fun _ => hc, fun d hd => ?_, fun d hd => ?_⟩
  · refine absurd hd (update_of (P := fun x : Thread α => ¬ x.pc.asleep) (fun _ hs => ?_) fun _ => hno d)
    cases hs
  · refine absurd hd (update_of (P := fun x : Thread α => ¬ x.pc.reads) (fun _ hr => ?_) fun hne hr => ?_)
    · cases hr
    · exact hne (h.locked.unique hr.holds hc)

/-- `NotifyAll()` leaves nobody asleep. -/
theorem Sound.notifyAll (h : s.Sound) : s.notifyAll.Sound ∧ ∀ d, ¬ (s.notifyAll.threads d).pc.asleep := by
  have hawake : ∀ d, ¬ (s.notifyAll.threads d).pc.asleep := by
    intro d
    show ¬ (s.threads d).pc.notify.asleep
    cases (s.threads d).pc <;> simp [Pc.notify, Pc.asleep]
  refine ⟨⟨?_, fun d hd => absurd hd (hawake d), fun d hd => h.reads d ?_⟩, hawake⟩
  · refine h.locked.map (f := fun th => { th with pc := th.pc.notify }) fun th hth => ?_
    revert hth
    show th.pc.notify.holds → th.pc.holds
    cases th.pc <;> simp [Pc.notify, Pc.holds]
  · revert hd
    show (s.threads d).pc.notify.reads → _
    cases (s.threads d).pc <;> simp [Pc.notify, Pc.reads]

theorem sound_step : Preserved step Free (Sound (α := α)) := by
  intro s a t h _ hs
  have hholds : ∀ {c : ℕ} {pc : Pc α}, (s.threads c).pc = pc → pc.holds → (s.threads c).pc.holds :=
    fun hpc hh => hpc ▸ hh
  cases Trans.of_step hs with
  | callPush hpc => exact h.set (h.locked.keep nofun) nofun nofun nofun
  | callTake hpc => exact h.set (h.locked.keep nofun) nofun nofun nofun
  | lockPush hpc hm | lock hpc hm | wake hpc hm | expire hpc hm =>
    exact h.set ((hm ▸ h.locked).lock) nofun nofun nofun
  | notifyAll hpc hq =>
    obtain ⟨hn, hawake⟩ := h.notifyAll
    refine hn.set (hn.locked.keep fun _ => ?_) nofun (fun _ d _ => hawake d) nofun
    show (s.threads _).pc.notify.holds
    rw [hpc]
    trivial
  | notifyNone hpc hq =>
    refine h.set (h.locked.keep fun _ => hholds hpc trivial) nofun (fun _ d _ hd => ?_) nofun
    exact hq (h.asleep d hd).1
  | @push c elem hpc =>
    refine h.change (hholds hpc trivial) fun d hd => (h.asleep d hd).2 c ?_
    rw [hpc]
    trivial
  | @wait c op hpc hq =>
    refine h.set (h.locked.unlock (hholds hpc trivial) not_false) (fun _ => ⟨hq, fun d hd hp => ?_⟩) nofun nofun
    exact hd (h.locked.unique hp.holds (hholds hpc trivial))
  | leave hpc hq => exact h.set (h.locked.keep fun _ => hholds hpc trivial) nofun nofun fun _ => hq
  | @front c op hpc =>
    have hq : s.queue ≠ [] := h.reads c (by rw [hpc]; trivial)
    refine h.set (h.locked.keep fun _ => hholds hpc trivial) ?_ ?_ fun _ => hq
    · split_ifs <;> exact nofun
    · split_ifs <;> exact nofun
  | @pop c hpc =>
    have hq : s.queue ≠ [] := h.reads c (by rw [hpc]; trivial)
    exact h.change (hholds hpc trivial) fun d hd => hq (h.asleep d hd).1
  | unlock hpc => exact h.set (h.locked.unlock (hholds hpc trivial) not_false) nofun nofun nofun

theorem no_wakeup_lost {q : List α} {as : List (Act α)} (h : Run step Free (create q) as s) :
    (s.queue ≠ [] → ∀ c op, (s.threads c).pc ≠ .wait op false) ∧
      ∀ c, (s.threads c).pc.reads → s.queue ≠ [] := by
  have hs := h.invariant sound_step (sound_create q)
  refine ⟨fun hq c op hpc => hq (hs.asleep c ?_).1, hs.reads⟩
  rw [hpc]
  exact rfl

/-- A consumer waits, and two elements are pushed: only the first `Push` broadcasts. -/
theorem no_wakeup_lost_two : ∃ s : BlockingQueue ℕ, Run step Free (create [])
    [.take 0 .pop none, .next 0, .next 0, .push 1 5, .next 1, .next 1, .next 1, .next 1, .push 1 6, .next 1,
      .next 1, .next 1, .next 1] s ∧ s.mutex = none ∧ (s.threads 0).pc ≠ .wait .pop false := by
  refine exists_run (I := fun s => s.mutex = none ∧ s.queue = [5, 6]) (by decide) fun s hrun ⟨hm, hq⟩ => ?_
  exact ⟨hm, (no_wakeup_lost hrun).1 (by rw [hq]; exact List.cons_ne_nil _ _) 0 .pop⟩

/-! ## What a timed pop has seen -/

/-- In a wait, or behind one that has expired. -/
def Pc.waits : Pc α → Prop
  | .wait _ _ => True
  | .unlock result => result = false
  | _ => False

/-- In a call that has not read the front of the queue. -/
def Pc.before : Pc α → Prop
  | .lock _ | .test _ | .wait _ _ | .front _ => True
  | .unlock result => result = false
  | _ => False

/-- The elements in the queue are those pushed and not popped.  A thread that waits found the queue empty:
    as many elements had been popped as pushed. -/
structure Booked (s : BlockingQueue α) : Prop where
  books : s.pushed = s.popped ++ s.queue
  since : ∀ c, (s.threads c).pc.waits → (s.threads c).pushedAt = (s.threads c).poppedAt ∧
    (s.threads c).poppedAt ≤ s.popped.length
  elem : ∀ c, (s.threads c).pc.before → (s.threads c).elem = (s.threads c).given

theorem booked_create (q : List α) : (create q).Booked where
  books := rfl
  since c hc := by cases hc
  elem c hc := by cases hc

/-- A step of the thread `c`. -/
theorem Booked.set (h : s.Booked) {m : Option ℕ} {q pushed popped : List α} (hbooks : pushed = popped ++ q)
    (hle : s.popped.length ≤ popped.length)
    (hsince : th.pc.waits → th.pushedAt = th.poppedAt ∧ th.poppedAt ≤ popped.length)
    (helem : th.pc.before → th.elem = th.given) :
    Booked { s.set c th with mutex := m, queue := q, pushed := pushed, popped := popped } where
  books := hbooks
  since d := update_of (P := fun x : Thread α => x.pc.waits → x.pushedAt = x.poppedAt ∧ x.poppedAt ≤ popped.length)
    (fun _ => hsince) fun _ hw => (h.since d hw).imp (fun heq => heq) fun h' => Nat.le_trans h' hle
  elem d := update_of (P := fun x : Thread α => x.pc.before → x.elem = x.given) (fun _ => helem) fun _ => h.elem d

theorem Booked.notifyAll (h : s.Booked) : s.notifyAll.Booked where
  books := h.books
  since c hc := by
    refine h.since c ?_
    revert hc
    show (s.threads c).pc.notify.waits → _
    cases (s.threads c).pc <;> exact fun hw => hw
  elem c hc := by
    refine h.elem c ?_
    revert hc
    show (s.threads c).pc.notify.before → _
    cases (s.threads c).pc <;> exact fun hw => hw

theorem booked_step : Preserved step Free (Booked (α := α)) := by
  intro s a t h _ hs
  have hgoto : ∀ {c : ℕ} {pc : Pc α} {m : Option ℕ}, (pc.waits → (s.threads c).pc.waits) →
      (pc.before → (s.threads c).pc.before) → Booked { s.goto c pc with mutex := m } :=
    fun hw hb => h.set h.books (Nat.le_refl _) (fun hpc => h.since _ (hw hpc)) fun hpc => h.elem _ (hb hpc)
  cases Trans.of_step hs with
  | callPush hpc | lockPush hpc hm | notifyNone hpc hq | unlock hpc => exact hgoto nofun nofun
  | callTake hpc => exact h.set h.books (Nat.le_refl _) nofun fun _ => rfl
  | lock hpc hm | wake hpc hm => exact hgoto nofun fun _ => hpc ▸ trivial
  | expire hpc hm => exact hgoto (fun _ => hpc ▸ trivial) fun _ => hpc ▸ trivial
  | notifyAll hpc hq => exact h.notifyAll.set h.books (Nat.le_refl _) nofun nofun
  | push hpc =>
    refine h.set ?_ (Nat.le_refl _) nofun nofun
    show s.pushed ++ _ = s.popped ++ (s.queue ++ _)
    rw [h.books, List.append_assoc]
  | @wait c op hpc hq =>
    have heq : s.pushed = s.popped := by rw [h.books, hq, List.append_nil]
    refine h.set h.books (Nat.le_refl _) (fun _ => ⟨congrArg List.length heq, Nat.le_refl _⟩) fun _ => ?_
    exact h.elem c (hpc ▸ trivial)
  | @leave c op hpc hq => exact h.set h.books (Nat.le_refl _) nofun fun _ => h.elem c (hpc ▸ trivial)
  | front hpc =>
    refine h.set h.books (Nat.le_refl _) ?_ ?_
    · split_ifs <;> exact nofun
    · split_ifs <;> exact nofun
  | pop hpc =>
    refine h.set ?_ ?_ nofun nofun
    · show s.pushed = _
      rw [h.books]
      cases s.queue <;> simp
    · rw [List.length_append]
      exact Nat.le_add_right _ _

/-- Nothing has been pushed since the thread `c` last tested the queue. -/
def NoPushSince (s : BlockingQueue α) (c : ℕ) : Prop := s.pushed.length = (s.threads c).pushedAt

/-- Nothing has been popped since the thread `c` last tested the queue. -/
def NoPopSince (s : BlockingQueue α) (c : ℕ) : Prop := s.popped.length = (s.threads c).poppedAt

instance (s : BlockingQueue α) (c : ℕ) : Decidable (s.NoPushSince c) := inferInstanceAs (Decidable (_ = _))

instance (s : BlockingQueue α) (c : ℕ) : Decidable (s.NoPopSince c) := inferInstanceAs (Decidable (_ = _))

/-- What a thread that waits, or whose wait has expired, does not know: how many elements have been popped and
    pushed since it found the queue empty. -/
theorem Booked.popped_since (h : s.Booked) (hpc : (s.threads c).pc.waits) :
    ∃ n, s.popped.length = (s.threads c).poppedAt + n ∧
      s.pushed.length = (s.threads c).pushedAt + n + s.queue.length := by
  obtain ⟨heq, hle⟩ := h.since c hpc
  have hlen := congrArg List.length h.books
  rw [List.length_append] at hlen
  exact ⟨s.popped.length - (s.threads c).poppedAt, by omega, by omega⟩

/-- If nothing has been pushed, there is nothing. -/
theorem Booked.empty (h : s.Booked) (hpc : (s.threads c).pc.waits) (hpush : s.NoPushSince c) : s.queue = [] := by
  obtain ⟨n, -, hlen⟩ := h.popped_since hpc
  unfold NoPushSince at hpush
  rw [← List.length_eq_zero_iff]
  omega

/-- If something has been pushed, and nothing popped, there is something. -/
theorem Booked.nonempty (h : s.Booked) (hpc : (s.threads c).pc.waits) (hpop : s.NoPopSince c)
    (hpush : ¬ s.NoPushSince c) : s.queue ≠ [] := by
  obtain ⟨n, hpopped, hlen⟩ := h.popped_since hpc
  unfold NoPopSince at hpop
  unfold NoPushSince at hpush
  rw [ne_eq, ← List.length_eq_zero_iff]
  omega

/-- A thread gives up by the expiry of its own timed wait, and by nothing else. -/
theorem Trans.gives_up (h : Trans s a t) (ht : (t.threads c).pc = .unlock false)
    (hne : (s.threads c).pc ≠ .unlock false) : a = .expire c ∧ ∃ n, (s.threads c).pc = .wait .popTimeWait n := by
  have hset : ∀ {d : ℕ} {th : Thread α}, ((s.set d th).threads c).pc = .unlock false →
      c = d ∧ th.pc = .unlock false := by
    intro d th hd
    rcases cases_update (P := fun x : Thread α => x.pc = .unlock false) hd with hcd | ⟨-, hold⟩
    · exact hcd
    · exact absurd hold hne
  cases h with
  | @expire d n hpc hm =>
    obtain ⟨rfl, -⟩ := hset ht
    exact ⟨rfl, n, hpc⟩
  | @notifyAll d elem hpc hq =>
    rcases cases_update (P := fun x : Thread α => x.pc = .unlock false) ht with ⟨-, hd⟩ | ⟨-, hold⟩
    · cases hd
    · have hold : (s.threads c).pc.notify = .unlock false := hold
      cases hc : (s.threads c).pc <;> rw [hc] at hold hne <;> first | exact absurd hold hne | cases hold
  | front hpc =>
    have hd := (hset ht).2
    simp only at hd
    split at hd <;> cases hd
  | callPush | callTake | lockPush | notifyNone | push | lock | wait | leave | pop | unlock | wake =>
    cases (hset ht).2

/-- A thread that has not read the front leaves the queue alone. -/
theorem Trans.queue (h : Trans s a t) (hpc : (s.threads a.thread).pc.before) : t.queue = s.queue := by
  cases h with
  | push hpc' | pop hpc' =>
    simp only [Act.thread, hpc'] at hpc
    cases hpc
  | _ => rfl

end BlockingQueue

end Empool
