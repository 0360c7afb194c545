/-
  The calls of a `BlockingQueue` return, but for a `Pop` or `Front` with nothing
  to take.

  What has to be fair: each thread goes on with its statements, the mutex does not
  pass over one thread for ever, and a timed wait comes to its time limit.  Then
  the mutex gets free again and again (`leadsTo_free`), since what a thread does
  with it is bounded, and so every `Push` and every `PopTimeWait` returns, and
  every `Pop` and `Front` that finds an element; it finds one if from some time on
  the queue is not empty (`calls_return_fair`).
-/
import Empool.Queue.WakeUp
import Empool.Lib.Fair

namespace Empool

open Lts

namespace BlockingQueue

variable {α : Type} {s t : BlockingQueue α} {c d : ℕ} {a : Act α}

/-! ## The owner of the mutex -/

/-- The owner of the mutex is between its `Lock()` and its `Unlock()`. -/
def Owned (s : BlockingQueue α) : Prop := ∀ c, s.mutex = some c → (s.threads c).pc.holds

theorem owned_create (q : List α) : (create q).Owned := by
  intro c hc
  cases hc

/-- The thread `c`, which has the mutex, goes on. -/
theorem Owned.set {th : Thread α} (hm : s.mutex = some c) (hth : th.pc.holds) {q pushed popped : List α} :
    Owned { s.set c th with queue := q, pushed := pushed, popped := popped } := by
  intro d hd
  cases Option.some.inj (hm.symm.trans hd)
  show (Function.update s.threads c th c).pc.holds
  rwa [Function.update_self]

theorem owned_trans (hs : s.Sound) (h : s.Owned) (ht : Trans s a t) : t.Owned := by
  have hown : ∀ {c : ℕ} {pc : Pc α}, (s.threads c).pc = pc → pc.holds → s.mutex = some c :=
    fun hpc hh => hs.locked _ (show (s.threads _).pc.holds from hpc ▸ hh)
  have hidle : ∀ {c : ℕ} {th : Thread α}, ¬ (s.threads c).pc.holds → (s.set c th).Owned := by
    intro c th hno d hd
    refine update_of (P := fun x : Thread α => x.pc.holds) (fun hdc => ?_) fun _ => h d hd
    exact absurd (h d hd) (hdc ▸ hno)
  have hlock : ∀ {c : ℕ} {pc : Pc α}, pc.holds → Owned { s.goto c pc with mutex := some c } := by
    intro c pc hh d hd
    cases hd
    show (Function.update s.threads c _ c).pc.holds
    rwa [Function.update_self]
  cases ht with
  | callPush hpc | callTake hpc => exact hidle (by rw [hpc]; exact not_false)
  | lockPush | lock | wake | expire => exact hlock trivial
  | @notifyAll c x hpc hq =>
    refine .set (s := s.notifyAll) (hown hpc trivial) ?_
    trivial
  | notifyNone hpc hq | push hpc | leave hpc hq | pop hpc =>
    refine .set (hown hpc trivial) ?_
    trivial
  | @front c op hpc =>
    refine .set (hown hpc trivial) ?_
    show Pc.holds (if op = .front then .unlock true else .pop)
    split_ifs <;> trivial
  | wait | unlock => exact fun d hd => by cases hd

/-- The mutex and the queue are in order. -/
def Orderly (s : BlockingQueue α) : Prop := s.Sound ∧ s.Owned

theorem orderly_step : Preserved step Free (Orderly (α := α)) := fun s a t h _ hs =>
  ⟨sound_step s a t h.1 trivial hs, owned_trans h.1 h.2 (Trans.of_step hs)⟩

/-! ## Who has to be scheduled -/

/-- The next statement of the thread `c`. -/
def NextOf (c : ℕ) : BlockingQueue α → Act α → Prop := fun _ a => a = .next c

/-- The time limit of the wait of `c`. -/
def ExpireOf (c : ℕ) : BlockingQueue α → Act α → Prop := fun _ a => a = .expire c

/-- The end of the wait of `c`, once it has been broadcast to. -/
def WakeOf (c : ℕ) : BlockingQueue α → Act α → Prop := fun s a => a = .wake c ∧ ∃ op, (s.threads c).pc = .wait op true

/-- How many statements are left until the `Unlock()`. -/
def Pc.rank : Pc α → ℕ
  | .test _ => 4
  | .notifyAll _ | .front _ => 3
  | .push _ | .pop => 2
  | .unlock _ => 1
  | _ => 0

theorem can_next (hh : (s.threads c).pc.holds) : Can step (NextOf c) s := by
  have hstep : ∀ {t}, s.next c = some t → Can step (NextOf c) s := fun ht => ⟨.next c, _, rfl, ht⟩
  cases hpc : (s.threads c).pc with
  | idle | lockPush | lock | wait => rw [hpc] at hh; cases hh
  | test op =>
    by_cases hq : s.queue.isEmpty = true
    · exact hstep (by unfold next; rw [hpc]; exact if_pos hq)
    · exact hstep (by unfold next; rw [hpc]; exact if_neg hq)
  | _ => exact hstep (by unfold next; rw [hpc])

/-- While `d` has the mutex, nobody else does anything but begin a call; each statement of `d` brings it
    nearer to the `Unlock()`. -/
theorem owner_step (hs : s.Sound) (hm : s.mutex = some d) (ht : Trans s a t) :
    (a = .next d ∧ (t.mutex = none ∨ t.mutex = some d ∧ (t.threads d).pc.rank < (s.threads d).pc.rank)) ∨
      (a ≠ .next d ∧ t.mutex = some d ∧ ∀ c, (s.threads c).pc ≠ .idle → (t.threads c).pc = (s.threads c).pc) := by
  have hown : ∀ {c : ℕ} {pc : Pc α}, (s.threads c).pc = pc → pc.holds → c = d := fun hpc hh =>
    Option.some.inj ((hs.locked _ (show (s.threads _).pc.holds from hpc ▸ hh)).symm.trans hm)
  have hcall : ∀ {c : ℕ} {th : Thread α}, (s.threads c).pc = .idle →
      ∀ e, (s.threads e).pc ≠ .idle → ((s.set c th).threads e).pc = (s.threads e).pc := by
    intro c th hpc e he
    have hne : e ≠ c := fun hec => he (hec ▸ hpc)
    exact congrArg Thread.pc (Function.update_of_ne hne ..)
  have hnext : ∀ {c : ℕ} {th : Thread α}, th.pc.rank < (s.threads c).pc.rank →
      ((s.set c th).threads c).pc.rank < (s.threads c).pc.rank := by
    intro c th hlt
    rwa [show (s.set c th).threads c = th from Function.update_self ..]
  cases ht with
  | callPush hpc => exact .inr ⟨nofun, hm, hcall hpc⟩
  | callTake hpc => exact .inr ⟨nofun, hm, hcall hpc⟩
  | lockPush hpc hn | lock hpc hn | wake hpc hn | expire hpc hn => rw [hm] at hn; cases hn
  | @notifyAll c x hpc hq =>
    cases hown hpc trivial
    refine .inl ⟨rfl, .inr ⟨hm, ?_⟩⟩
    show ((s.notifyAll.set d _).threads d).pc.rank < _
    rw [show (s.notifyAll.set d _).threads d = _ from Function.update_self .., hpc]
    exact Nat.lt_succ_self 2
  | notifyNone hpc hq | push hpc | leave hpc hq | pop hpc =>
    cases hown hpc trivial
    refine .inl ⟨rfl, .inr ⟨hm, hnext ?_⟩⟩
    rw [hpc]
    exact Nat.lt_succ_self _
  | @front c op hpc =>
    cases hown hpc trivial
    refine .inl ⟨rfl, .inr ⟨hm, hnext ?_⟩⟩
    rw [hpc]
    show Pc.rank (if op = .front then .unlock true else .pop) < 3
    split_ifs
    · exact Nat.lt_add_of_pos_right (Nat.succ_pos 1)
    · exact Nat.lt_succ_self 2
  | wait hpc hq | unlock hpc =>
    cases hown hpc trivial
    exact .inl ⟨rfl, .inl rfl⟩

/-- A thread that does not act is as before, or has been broadcast to. -/
theorem other_trans (ht : Trans s a t) (hc : a.thread ≠ c) :
    (t.threads c).pc = (s.threads c).pc ∨ (t.threads c).pc = (s.threads c).pc.notify := by
  have hset : ∀ {u : BlockingQueue α} {d : ℕ} {th : Thread α}, d ≠ c → (u.set d th).threads c = u.threads c :=
    fun hd => Function.update_of_ne hd.symm ..
  cases ht with
  | notifyAll hpc hq => exact .inr (congrArg Thread.pc (hset (u := s.notifyAll) hc))
  | _ => exact .inl (congrArg Thread.pc (hset hc))

/-! ## The stages of a call -/

/-- The call has the mutex, and will not give it back before it returns. -/
def Pc.leaving : Pc α → Prop
  | .notifyAll _ | .push _ | .front _ | .pop | .unlock _ => True
  | _ => False

/-- `PopTimeWait` has not found an element. -/
def Pc.timed : Pc α → Prop
  | .lock op | .test op | .wait op _ => op = .popTimeWait
  | _ => False

/-- Every call, but for a `Pop` or `Front` that has not found an element. -/
def Pc.bounded : Pc α → Prop
  | .lock op | .test op | .wait op _ => op = .popTimeWait
  | _ => True

instance : DecidablePred (Pc.bounded (α := α))
  | .lock _ | .test _ | .wait _ _ => inferInstanceAs (Decidable (_ = _))
  | .idle | .lockPush _ | .notifyAll _ | .push _ | .front _ | .pop | .unlock _ => isTrue trivial

theorem Pc.leaving.holds {pc : Pc α} (h : pc.leaving) : pc.holds := by
  cases pc with
  | notifyAll | push | front | pop | unlock => trivial
  | _ => cases h

theorem Pc.leaving_notify {pc : Pc α} (h : pc.leaving) : pc.notify = pc := by
  cases pc with
  | wait => cases h
  | _ => rfl

theorem set_threads_self {th : Thread α} : (s.set c th).threads c = th := Function.update_self ..

theorem leaving_step (hpc : (s.threads c).pc.leaving) (ht : Trans s a t) (hc : a.thread = c) : a = .next c ∧
    ((t.threads c).pc = .idle ∨ (t.threads c).pc.leaving ∧ (t.threads c).pc.rank < (s.threads c).pc.rank) := by
  have hno : ∀ {pc : Pc α} {q : Prop}, (s.threads c).pc = pc → ¬ pc.leaving → q :=
    fun heq hn => absurd (heq ▸ hpc) hn
  -- the state after a statement
  have hto : ∀ {u : BlockingQueue α} {th : Thread α} {pc : Pc α}, (s.threads c).pc = pc → th.pc.leaving →
      th.pc.rank < pc.rank → ((u.set c th).threads c).pc = .idle ∨
        ((u.set c th).threads c).pc.leaving ∧ ((u.set c th).threads c).pc.rank < (s.threads c).pc.rank := by
    intro u th pc heq hl hlt
    rw [set_threads_self, heq]
    exact .inr ⟨hl, hlt⟩
  cases ht with
  | callPush h' | callTake h' | lockPush h' | lock h' | wait h' | leave h' | wake h' | expire h' =>
    simp only [Act.thread] at hc
    subst hc
    exact hno h' id
  | notifyAll h' | notifyNone h' | push h' | pop h' =>
    simp only [Act.thread] at hc
    subst hc
    refine ⟨rfl, hto h' ?_ ?_⟩
    · trivial
    · exact Nat.lt_succ_self _
  | @front c op h' =>
    simp only [Act.thread] at hc
    subst hc
    refine ⟨rfl, hto h' ?_ ?_⟩
    · show Pc.leaving (if op = .front then .unlock true else .pop)
      split_ifs <;> trivial
    · show Pc.rank (if op = .front then .unlock true else .pop) < 3
      split_ifs
      · exact Nat.lt_add_of_pos_right (Nat.succ_pos 1)
      · exact Nat.lt_succ_self 2
  | unlock h' =>
    simp only [Act.thread] at hc
    subst hc
    exact ⟨rfl, .inl (congrArg Thread.pc set_threads_self)⟩

/-- A call begins, with a `Lock()` and the test of its loop. -/
inductive Pc.Begins : Pc α → Pc α → Prop
  | lockPush {elem : α} : Begins (.lockPush elem) (.notifyAll elem)
  | lock {op : Op} : Begins (.lock op) (.test op)
  | wait {op : Op} : Begins (.test op) (.wait op false)
  | leave {op : Op} : Begins (.test op) (.front op)

/-- The `Lock()` of a call. -/
inductive Pc.Locks : Pc α → Pc α → Prop
  | lockPush {elem : α} : Locks (.lockPush elem) (.notifyAll elem)
  | lock {op : Op} : Locks (.lock op) (.test op)

/-- At one of these statements. -/
def Pc.begins : Pc α → Prop
  | .lockPush _ | .lock _ | .test _ => True
  | _ => False

theorem begins_step (hpc : (s.threads c).pc.begins) (ht : Trans s a t) :
    (a.thread = c ∧ (s.threads c).pc.Begins (t.threads c).pc) ∨
      (a.thread ≠ c ∧ (t.threads c).pc = (s.threads c).pc) := by
  by_cases hc : a.thread = c
  · refine .inl ⟨hc, ?_⟩
    have hno : ∀ {pc : Pc α} {q : Prop}, (s.threads c).pc = pc → ¬ pc.begins → q :=
      fun heq hn => absurd (heq ▸ hpc) hn
    have hto : ∀ {u : BlockingQueue α} {th : Thread α} {pc : Pc α}, (s.threads c).pc = pc → pc.Begins th.pc →
        (s.threads c).pc.Begins ((u.set c th).threads c).pc := by
      intro u th pc heq hb
      rwa [set_threads_self, heq]
    cases ht with
    | callPush h' | callTake h' | notifyAll h' | notifyNone h' | push h' | front h' | pop h' | unlock h' | wake h'
      | expire h' =>
      simp only [Act.thread] at hc
      subst hc
      exact hno h' id
    | lockPush h' =>
      simp only [Act.thread] at hc
      subst hc
      exact hto h' .lockPush
    | lock h' =>
      simp only [Act.thread] at hc
      subst hc
      exact hto h' .lock
    | wait h' =>
      simp only [Act.thread] at hc
      subst hc
      exact hto h' .wait
    | leave h' =>
      simp only [Act.thread] at hc
      subst hc
      exact hto h' .leave
  · refine .inr ⟨hc, ?_⟩
    rcases other_trans ht hc with heq | heq
    · exact heq
    · rw [heq]
      revert hpc
      cases (s.threads c).pc <;> simp [Pc.begins, Pc.notify]

/-- Before it has found an element, a `PopTimeWait` goes on waiting, or leaves. -/
theorem timed_step (hpc : (s.threads c).pc.timed) (ht : Trans s a t) :
    (t.threads c).pc.leaving ∨ (t.threads c).pc.timed ∧ a ≠ .expire c := by
  by_cases hc : a.thread = c
  · have hno : ∀ {pc : Pc α} {q : Prop}, (s.threads c).pc = pc → ¬ pc.timed → q :=
      fun heq hn => absurd (heq ▸ hpc) hn
    have hto : ∀ {u : BlockingQueue α} {th : Thread α}, th.pc.leaving ∨ th.pc.timed ∧ a ≠ .expire c →
        ((u.set c th).threads c).pc.leaving ∨ ((u.set c th).threads c).pc.timed ∧ a ≠ .expire c := by
      intro u th hth
      rwa [set_threads_self]
    cases ht with
    | callPush h' | callTake h' | lockPush h' | notifyAll h' | notifyNone h' | push h' | front h' | pop h'
      | unlock h' =>
      simp only [Act.thread] at hc
      subst hc
      exact hno h' id
    | lock h' | wait h' | wake h' =>
      simp only [Act.thread] at hc
      subst hc
      rw [h'] at hpc
      refine hto (.inr ⟨hpc, ?_⟩)
      rintro ⟨⟩
    | leave h' =>
      simp only [Act.thread] at hc
      subst hc
      refine hto (.inl ?_)
      trivial
    | expire h' =>
      simp only [Act.thread] at hc
      subst hc
      refine hto (.inl ?_)
      trivial
  · refine .inr ⟨?_, by rintro rfl; exact hc rfl⟩
    rcases other_trans ht hc with heq | heq
    · rwa [heq]
    · rw [heq]
      revert hpc
      cases (s.threads c).pc <;> exact id

/-- A wait ends with a test, or with the return of a call that gives up. -/
theorem wait_step {op : Op} (hpc : ∃ b, (s.threads c).pc = .wait op b) (ht : Trans s a t) :
    ((t.threads c).pc = .test op ∨ (t.threads c).pc.leaving) ∨
      (∃ b, (t.threads c).pc = .wait op b) ∧ ¬ WakeOf c s a := by
  obtain ⟨b, hpc⟩ := hpc
  by_cases hc : a.thread = c
  · left
    have hno : ∀ {pc : Pc α} {q : Prop}, (s.threads c).pc = pc → pc ≠ .wait op b → q :=
      fun heq hn => absurd (heq.symm.trans hpc) hn
    cases ht with
    | callPush h' | callTake h' | lockPush h' | notifyAll h' | notifyNone h' | push h' | front h' | pop h'
      | unlock h' | lock h' | wait h' | leave h' =>
      simp only [Act.thread] at hc
      subst hc
      refine hno h' ?_
      rintro ⟨⟩
    | wake h' =>
      simp only [Act.thread] at hc
      subst hc
      cases h'.symm.trans hpc
      exact .inl (congrArg Thread.pc set_threads_self)
    | expire h' =>
      simp only [Act.thread] at hc
      subst hc
      refine .inr ?_
      rw [show ∀ m, ({ s.goto _ (.unlock false) with mutex := m } : BlockingQueue α).threads _ = _ from
        fun _ => set_threads_self]
      trivial
  · refine .inr ⟨?_, by rintro ⟨rfl, -⟩; exact hc rfl⟩
    rcases other_trans ht hc with heq | heq
    · exact ⟨b, heq.trans hpc⟩
    · exact ⟨true, by rw [heq, hpc]; rfl⟩

theorem Pc.wait_blocked {op : Op} (pc : Pc α) (h : ∃ b, pc = .wait op b) :
    ¬ pc.holds ∧ pc ≠ .idle ∧ ∃ b, pc.notify = .wait op b := by
  obtain ⟨b, rfl⟩ := h
  exact ⟨id, nofun, true, rfl⟩

/-! ## What a fair scheduler brings about -/

section
variable {p : Path step (Free (S := BlockingQueue α))} (hV : ∀ n, (p.state n).Orderly)
  (hnext : ∀ d, p.Fair (NextOf d))
include hV hnext

/-- The mutex gets free while the thread `c` is blocked. -/
theorem leadsTo_free {B : Pc α → Prop} (hB : ∀ pc, B pc → ¬ pc.holds ∧ pc ≠ .idle ∧ B pc.notify) :
    p.LeadsTo (fun s => B (s.threads c).pc) fun s => s.mutex = none ∧ B (s.threads c).pc := by
  intro n hn
  cases hm : (p.state n).mutex with
  | none => exact ⟨n, Nat.le_refl n, hm, hn⟩
  | some d =>
    refine (hnext d).leadsTo (V := Orderly) (I := fun s => s.mutex = some d ∧ B (s.threads c).pc)
      (J := fun s => s.mutex = none ∧ B (s.threads c).pc) hV (fun s => (s.threads d).pc.rank)
      (fun s a t hs hI _ hst => ?_) (fun s hs hI => .inr (can_next (hs.2 d hI.1))) n ⟨hm, hn⟩
    obtain ⟨hmd, hBc⟩ := hI
    obtain ⟨hnot, hidle, hnotify⟩ := hB _ hBc
    have ht := Trans.of_step hst
    rcases owner_step hs.1 hmd ht with ⟨rfl, hend⟩ | ⟨hne, hmd', hsame⟩
    · have hcd : d ≠ c := by
        rintro rfl
        exact hnot (hs.2 d hmd)
      have hBt : B (t.threads c).pc := by
        rcases other_trans ht hcd with heq | heq
        · rwa [heq]
        · rwa [heq]
      rcases hend with hfree | ⟨hmd', hlt⟩
      · exact .inl ⟨hfree, hBt⟩
      · exact .inr ⟨⟨hmd', hBt⟩, Nat.le_of_lt hlt, fun _ => hlt⟩
    · have hd : (s.threads d).pc ≠ .idle := by
        intro heq
        have hh := hs.2 d hmd
        rw [heq] at hh
        exact hh
      refine .inr ⟨⟨hmd', (hsame c hidle).symm ▸ hBc⟩, Nat.le_of_eq (by rw [hsame d hd]), fun hown => ?_⟩
      exact absurd hown hne

/-- A call that has the mutex returns. -/
theorem leadsTo_idle : p.LeadsTo (fun s => (s.threads c).pc.leaving) fun s => (s.threads c).pc = .idle := by
  refine (hnext c).leadsTo (V := Orderly) hV (fun s => (s.threads c).pc.rank) (fun s a t hs hI _ hst => ?_)
    fun s hs hI => .inr (can_next hI.holds)
  have ht := Trans.of_step hst
  by_cases hc : a.thread = c
  · obtain ⟨rfl, hidle | ⟨hl, hlt⟩⟩ := leaving_step hI ht hc
    · exact .inl hidle
    · exact .inr ⟨hl, Nat.le_of_lt hlt, fun _ => hlt⟩
  · have hsame : (t.threads c).pc = (s.threads c).pc := by
      rcases other_trans ht hc with heq | heq
      · exact heq
      · rw [heq, Pc.leaving_notify hI]
    refine .inr ⟨hsame ▸ hI, Nat.le_of_eq (by rw [hsame]), fun hown => ?_⟩
    rw [show a = .next c from hown] at hc
    exact absurd rfl hc

/-- A thread that is about to lock the mutex gets it. -/
theorem leadsTo_locked (hc : p.StronglyFair (NextOf c)) {pc pc' : Pc α} (hl : pc.Locks pc') :
    p.LeadsTo (fun s => (s.threads c).pc = pc) fun s => (s.threads c).pc = pc' := by
  refine hc.leadsTo (V := Orderly) hV (fun s a t hs hI _ hst => ?_) fun n hn => ?_
  · have hbegins : (s.threads c).pc.begins := by
      rw [hI]
      cases hl <;> trivial
    rcases begins_step hbegins (Trans.of_step hst) with ⟨-, hb⟩ | ⟨hne, hsame⟩
    · left
      generalize (t.threads c).pc = pc'' at hb ⊢
      rw [hI] at hb
      cases hl <;> cases hb <;> rfl
    · refine .inr ⟨hsame.trans hI, fun hown => ?_⟩
      rw [show a = .next c from hown] at hne
      exact hne rfl
  · have hB : ∀ pc'', pc'' = pc → ¬ pc''.holds ∧ pc'' ≠ .idle ∧ pc''.notify = pc := by
      rintro _ rfl
      cases hl <;> exact ⟨id, nofun, rfl⟩
    obtain ⟨m, hnm, hm, hpc⟩ := leadsTo_free hV hnext (c := c) (B := fun pc'' => pc'' = pc) hB n hn
    have hcan : ∃ t, (p.state m).next c = some t := by
      unfold next
      rw [hpc]
      cases hl
      · exact ⟨_, if_pos hm⟩
      · exact ⟨_, if_pos hm⟩
    obtain ⟨t, ht⟩ := hcan
    exact ⟨m, hnm, .inr ⟨.next c, t, rfl, ht⟩⟩

/-- It tests the queue. -/
theorem leadsTo_tested {op : Op} : p.LeadsTo (fun s => (s.threads c).pc = .test op)
    fun s => (s.threads c).pc = .front op ∨ (s.threads c).pc = .wait op false := by
  refine (hnext c).leadsTo (V := Orderly) hV (fun _ => 0) (fun s a t hs hI _ hst => ?_)
    fun s hs hI => .inr (can_next (by rw [hI]; trivial))
  have hbegins : (s.threads c).pc.begins := by
    rw [hI]
    trivial
  rcases begins_step hbegins (Trans.of_step hst) with ⟨-, hb⟩ | ⟨hne, hsame⟩
  · left
    generalize (t.threads c).pc = pc' at hb ⊢
    rw [hI] at hb
    cases hb with
    | wait => exact .inr rfl
    | leave => exact .inl rfl
  · refine .inr ⟨hsame.trans hI, Nat.le_refl 0, fun hown => ?_⟩
    rw [show a = .next c from hown] at hne
    exact absurd rfl hne

/-- A timed wait can expire again and again. -/
theorem leadsTo_expiry : p.LeadsTo (fun s => ∃ b, (s.threads c).pc = .wait .popTimeWait b)
    fun s => Can step (ExpireOf c) s := by
  intro n hn
  obtain ⟨m, hnm, hm, b, hpc⟩ := leadsTo_free hV hnext (c := c) Pc.wait_blocked n hn
  have hcan : ∃ t, step (p.state m) (.expire c) = some t := by
    simp only [step, hpc]
    exact ⟨_, if_pos hm⟩
  obtain ⟨t, ht⟩ := hcan
  exact ⟨m, hnm, .expire c, t, rfl, ht⟩

/-- A `PopTimeWait` finds an element, or gives up. -/
theorem leadsTo_timed (hc : p.StronglyFair (NextOf c)) (hexpire : p.StronglyFair (ExpireOf c)) :
    p.LeadsTo (fun s => (s.threads c).pc.timed) fun s => (s.threads c).pc.leaving := by
  refine hexpire.leadsTo (V := Orderly) hV (fun s a t hs hI _ hst => ?_) ?_
  · exact timed_step hI (Trans.of_step hst)
  -- from each of its places to the end of the wait
  have hwait : p.LeadsTo (fun s => ∃ b, (s.threads c).pc = .wait .popTimeWait b)
      fun s => (s.threads c).pc.leaving ∨ Can step (ExpireOf c) s :=
    (leadsTo_expiry hV hnext).trans (Path.leadsTo_of_imp fun _ h => .inr h)
  have htest : p.LeadsTo (fun s => (s.threads c).pc = .test .popTimeWait)
      fun s => (s.threads c).pc.leaving ∨ Can step (ExpireOf c) s := by
    refine (leadsTo_tested hV hnext).trans (.or (Path.leadsTo_of_imp fun s h => .inl ?_) fun n hn => hwait n ⟨_, hn⟩)
    rw [h]
    trivial
  have hlock : p.LeadsTo (fun s => (s.threads c).pc = .lock .popTimeWait)
      fun s => (s.threads c).pc.leaving ∨ Can step (ExpireOf c) s := (leadsTo_locked hV hnext hc .lock).trans htest
  intro n hn
  cases hpc : ((p.state n).threads c).pc with
  | lock op => rw [hpc] at hn; cases hn; exact hlock n hpc
  | test op => rw [hpc] at hn; cases hn; exact htest n hpc
  | wait op b => rw [hpc] at hn; cases hn; exact hwait n ⟨b, hpc⟩
  | _ => rw [hpc] at hn; cases hn

/-- Where the queue is not empty, a thread that waits has been broadcast to, and comes back from its wait. -/
theorem leadsTo_woken (hne : ∀ n, (p.state n).queue ≠ []) (hwake : p.StronglyFair (WakeOf c)) {op : Op} :
    p.LeadsTo (fun s => ∃ b, (s.threads c).pc = .wait op b)
      fun s => (s.threads c).pc = .test op ∨ (s.threads c).pc.leaving := by
  refine hwake.leadsTo (V := Orderly) hV (fun s a t hs hI _ hst => ?_) fun n hn => ?_
  · exact wait_step hI (Trans.of_step hst)
  · obtain ⟨m, hnm, hm, b, hpc⟩ := leadsTo_free hV hnext (c := c) Pc.wait_blocked n hn
    have hnotified : b = true := by
      cases b with
      | true => rfl
      | false => exact absurd ((hV m).1.asleep c (by rw [hpc]; exact rfl)).1 (hne m)
    subst hnotified
    have hcan : ∃ t, step (p.state m) (.wake c) = some t := by
      simp only [step, hpc]
      exact ⟨_, if_pos hm⟩
    obtain ⟨t, ht⟩ := hcan
    exact ⟨m, hnm, .inr ⟨.wake c, t, ⟨rfl, op, hpc⟩, ht⟩⟩

/-- There every call finds an element. -/
theorem leadsTo_found (hne : ∀ n, (p.state n).queue ≠ []) (hc : p.StronglyFair (NextOf c))
    (hwake : p.StronglyFair (WakeOf c)) (op : Op) : p.LeadsTo
      (fun s => (s.threads c).pc = .lock op ∨ (s.threads c).pc = .test op ∨ ∃ b, (s.threads c).pc = .wait op b)
      fun s => (s.threads c).pc.leaving := by
  have htest : p.LeadsTo (fun s => (s.threads c).pc = .test op) fun s => (s.threads c).pc.leaving := by
    intro n hn
    obtain ⟨m, hnm, hfront | hwait⟩ := leadsTo_tested hV hnext n hn
    · refine ⟨m, hnm, ?_⟩
      show ((p.state m).threads c).pc.leaving
      rw [hfront]
      trivial
    · exact absurd ((hV m).1.asleep c (by rw [hwait]; exact rfl)).1 (hne m)
  refine ((leadsTo_locked hV hnext hc .lock).trans htest).or (htest.or ?_)
  exact (leadsTo_woken hV hnext hne hwake).trans (htest.or (Path.leadsTo_of_imp fun _ h => h))

end

/-! ## The result -/

/-- **The calls return**; a `Pop` or `Front` that has found nothing, if there is always something to take. -/
theorem calls_return_fair {q : List α} {p : Path step (Free (S := BlockingQueue α))} (h₀ : p.state 0 = create q)
    (hnext : ∀ d, p.Fair (NextOf d)) (hc : p.StronglyFair (NextOf c)) (hexpire : p.StronglyFair (ExpireOf c))
    (hwake : p.StronglyFair (WakeOf c)) {n : ℕ}
    (hpc : ((p.state n).threads c).pc.bounded ∨ ∀ m, n ≤ m → (p.state m).queue ≠ []) :
    ∃ m, n ≤ m ∧ ((p.state m).threads c).pc = .idle := by
  have hV : ∀ n, (p.state n).Orderly := Path.invariant orderly_step (h₀ ▸ ⟨sound_create q, owned_create q⟩)
  have hidle := leadsTo_idle hV hnext (c := c)
  have hfound : ∀ op, ((p.state n).threads c).pc = .lock op ∨ ((p.state n).threads c).pc = .test op ∨
      (∃ b, ((p.state n).threads c).pc = .wait op b) → (∃ m, n ≤ m ∧ ((p.state m).threads c).pc = .idle) := by
    intro op hstage
    rcases hpc with hb | hne
    · -- a timed wait
      have htimed : ((p.state n).threads c).pc.timed := by
        rcases hstage with h | h | ⟨b, h⟩ <;> rw [h] at hb ⊢ <;> exact hb
      exact ((leadsTo_timed hV hnext hc hexpire).trans hidle) n htimed
    · -- the path from here on
      have hfound := leadsTo_found (p := p.drop n) (c := c) (fun k => hV (n + k)) (fun d => (hnext d).drop n)
        (fun k => hne (n + k) (Nat.le_add_right n k)) (hc.drop n) (hwake.drop n) op
      obtain ⟨m, -, hm⟩ := (hfound.trans
        (leadsTo_idle (fun k => hV (n + k)) (fun d => (hnext d).drop n))) 0 hstage
      exact ⟨n + m, Nat.le_add_right n m, hm⟩
  cases hstage : ((p.state n).threads c).pc with
  | idle => exact ⟨n, Nat.le_refl n, hstage⟩
  | lockPush x =>
    refine ((leadsTo_locked hV hnext hc .lockPush).trans ((Path.leadsTo_of_imp fun s h => ?_).trans hidle)) n hstage
    rw [h]
    trivial
  | lock op => exact hfound op (.inl hstage)
  | test op => exact hfound op (.inr (.inl hstage))
  | wait op b => exact hfound op (.inr (.inr ⟨b, hstage⟩))
  | _ =>
    refine hidle n ?_
    show ((p.state n).threads c).pc.leaving
    rw [hstage]
    trivial

/-! ### A run to its end -/

/-- A thread that makes no call stays idle. -/
theorem idle_run {P : BlockingQueue α → Act α → Prop} {as : List (Act α)} (h : Run step P s as t)
    (hno : ∀ a ∈ as, a.thread ≠ c) (hidle : (s.threads c).pc = .idle) : (t.threads c).pc = .idle := by
  refine (h.imp_of_mem (Q := fun _ a => a.thread ≠ c) fun _ a ha _ => hno a ha).invariant
    (I := fun s => (s.threads c).pc = .idle) (fun u a v hu ha hs => ?_) hidle
  rcases other_trans (Trans.of_step hs) ha with heq | heq
  · exact heq.trans hu
  · rw [heq, hu]
    rfl

/-- Where everybody is idle, nothing is left to do. -/
theorem rest_of_idle (h : ∀ c, (s.threads c).pc = .idle) (c : ℕ) :
    ¬ Can step (NextOf c) s ∧ ¬ Can step (ExpireOf c) s ∧ ¬ Can step (WakeOf c) s := by
  refine ⟨?_, ?_, ?_⟩
  · rintro ⟨_, t, rfl, hs⟩
    simp [step, next, h c] at hs
  · rintro ⟨_, t, rfl, hs⟩
    simp [step, h c] at hs
  · rintro ⟨_, t, ⟨rfl, -⟩, hs⟩
    simp [step, h c] at hs

/-- A `PopTimeWait` begins to wait. -/
def waits : List (Act ℕ) := [.take 0 .popTimeWait none, .next 0, .next 0]

/-- An element is pushed, and the wait expires behind it. -/
def ends : List (Act ℕ) := [.push 1 5, .next 1, .next 1, .next 1, .next 1, .expire 0, .next 0]

/-- A timed wait that expires returns. -/
theorem calls_return_fair_timed : ∃ p : Path step (Free (S := BlockingQueue ℕ)), p.state 0 = create [] ∧
    ((p.state 3).threads 0).pc = .wait .popTimeWait false ∧ ∃ m, 3 ≤ m ∧ ((p.state m).threads 0).pc = .idle := by
  obtain ⟨t, ht, hpc, u, hu, h0, h1⟩ : ∃ t, Run step Free (create ([] : List ℕ)) waits t ∧
      (t.threads 0).pc = .wait .popTimeWait false ∧ ∃ u ∈ exec step Free t ends,
        (u.threads 0).pc = .idle ∧ (u.threads 1).pc = .idle := exists_run (by decide) fun _ _ h => h
  have hu' := run_of_exec hu
  have hidle : ∀ d, (u.threads d).pc = .idle := by
    intro d
    by_cases hd : d = 0 ∨ d = 1
    · rcases hd with rfl | rfl
      · exact h0
      · exact h1
    · have hout : ∀ a : Act ℕ, a.thread = 0 ∨ a.thread = 1 → a.thread ≠ d := by
        rintro a ha rfl
        exact hd ha
      exact idle_run hu' (fun a ha => hout a ((by decide : ∀ a ∈ ends, a.thread = 0 ∨ a.thread = 1) a ha))
        (idle_run ht (fun a ha => hout a ((by decide : ∀ a ∈ waits, a.thread = 0 ∨ a.thread = 1) a ha)) rfl)
  obtain ⟨p, hp, hmid, hend⟩ := ht.exists_path hu'
  have hrest := rest_of_idle hidle
  refine ⟨p, hp, hmid ▸ hpc, calls_return_fair hp (fun d => Path.fair_of_rest hend (hrest d).1)
    (Path.stronglyFair_of_rest hend (hrest 0).1) (Path.stronglyFair_of_rest hend (hrest 0).2.1)
    (Path.stronglyFair_of_rest hend (hrest 0).2.2) (n := 3) (.inl ?_)⟩
  show ((p.state waits.length).threads 0).pc.bounded
  rw [hmid, hpc]
  exact rfl

end BlockingQueue

end Empool
