/-
  `BlockingQueue` is linearizable.

  Whatever the interleaving, the calls of `Push`, `Pop`, `PopTimeWait` and
  `Front` behave as if each of them took place at one instant between its
  beginning and its return, on a sequential queue (`Spec`): `Push` appends, `Pop`
  and `PopTimeWait` take the first element, `Front` reads it, and a `PopTimeWait`
  that returns false finds the queue empty and leaves its variable alone.

  The instants are the statements on `m_queue`, but for the `PopTimeWait` that
  gives up: its instant is its last test of the queue, which counts only if the
  wait expires.  It is an offer in the sense of `Object.LateStep`.
-/
import Empool.Queue.WakeUp
import Empool.Lib.Atomic
import Empool.Lib.History

namespace Empool

open Lts

namespace BlockingQueue

variable {α : Type} {s t : BlockingQueue α} {c d : ℕ} {a : Act α} {th : Thread α}

/-! ## The sequential queue -/

/-- A call with its arguments. -/
inductive Call (α : Type) where
  /-- `Push(elem)` -/
  | push (elem : α)
  /-- one of the calls that wait, with the variable `elem` -/
  | take (op : Op) (elem : Option α)
deriving DecidableEq, Repr

/-- What a call returns. -/
inductive Reply (α : Type) where
  /-- `Push` returns nothing -/
  | pushed
  /-- the return value, and the variable `elem` -/
  | taken (result : Bool) (elem : Option α)
deriving DecidableEq, Repr

/-- The calls on a queue that is used by one thread. -/
inductive Spec : List α → Call α → Reply α → List α → Prop
  | push (q : List α) (x : α) : Spec q (.push x) .pushed (q ++ [x])
  | pop {op : Op} (e : Option α) (x : α) (q : List α) (hop : op ≠ .front) :
      Spec (x :: q) (.take op e) (.taken true (some x)) q
  | front (e : Option α) (x : α) (q : List α) :
      Spec (x :: q) (.take .front e) (.taken true (some x)) (x :: q)
  | giveUp (e : Option α) : Spec [] (.take .popTimeWait e) (.taken false e) []

/-! ## What is seen of a run -/

/-- What the call returns, if it gets to its `return` with `result` and the variable `elem`. -/
def Call.reply (result : Bool) (elem : Option α) : Call α → Reply α
  | .push _ => .pushed
  | .take _ _ => .taken result elem

/-- The call each thread is in, and the beginnings and the returns of calls so far. -/
structure Log (α : Type) where
  calls : ℕ → Option (Call α)
  events : List (Event ℕ (Call α) (Reply α))

/-- Nothing has been called. -/
def Log.empty : Log α := ⟨fun _ => none, []⟩

/-- The thread `c` makes the call `o`. -/
def Log.call (g : Log α) (c : ℕ) (o : Call α) : Log α :=
  ⟨Function.update g.calls c (some o), g.events ++ [.call c o]⟩

/-- The call of the thread `c` returns. -/
def Log.ret (g : Log α) (c : ℕ) (result : Bool) (elem : Option α) : Log α :=
  { g with events := g.events ++ ((g.calls c).map fun o => Event.ret c (o.reply result elem)).toList }

/-- What the step `a` in `s` adds. -/
def Log.add (g : Log α) (s : BlockingQueue α) : Act α → Log α
  | .push c elem => g.call c (.push elem)
  | .take c op elem => g.call c (.take op elem)
  | .next c =>
    match (s.threads c).pc with
    | .unlock result => g.ret c result (s.threads c).elem
    | _ => g
  | .wake _ | .expire _ => g

/-- Where the call `o` stands. -/
def Pc.phase (o : Call α) (elem : Option α) : Pc α → Phase (Call α) (Reply α)
  | .idle => .idle
  | .unlock result => .done (o.reply result elem)
  -- the last test found the queue empty
  | .wait .popTimeWait _ => .offered o (.taken false elem)
  | _ => .called o

def Thread.phase (th : Thread α) (call : Option (Call α)) : Phase (Call α) (Reply α) :=
  call.elim .idle fun o => th.pc.phase o th.elem

/-- The object that the queue implements. -/
def object (p : Log α × BlockingQueue α) : Object ℕ (List α) (Call α) (Reply α) where
  val := p.2.queue
  phase c := (p.2.threads c).phase (p.1.calls c)

/-! ## What the log says of a thread -/

/-- The log has the call that the thread is in; `given`: its variable when the call began. -/
def Pc.Fits (given : Option α) (call : Option (Call α)) : Pc α → Prop
  | .idle => True
  | .lockPush elem | .notifyAll elem | .push elem => call = some (.push elem)
  | .lock op | .test op | .wait op _ | .front op => call = some (.take op given)
  | .pop => ∃ op e, op ≠ .front ∧ call = some (.take op e)
  | .unlock _ => ∃ o, call = some o

def Thread.Fits (th : Thread α) (call : Option (Call α)) : Prop := th.pc.Fits th.given call

/-- Every thread is in the call that the log has; one that is about to remove the front has read it. -/
structure Logged (p : Log α × BlockingQueue α) : Prop where
  sound : p.2.Sound
  booked : p.2.Booked
  fits : ∀ c, (p.2.threads c).Fits (p.1.calls c)
  read : ∀ c, (p.2.threads c).pc = .pop → (p.2.threads c).elem = p.2.queue.head?

theorem logged_create (q : List α) : Logged (Log.empty, create q) where
  sound := sound_create q
  booked := booked_create q
  fits c := trivial
  read c hc := by cases hc

variable {g : Log α}

/-- The broadcast changes nothing that a thread says of its call. -/
theorem Pc.fits_notify {e : Option α} {call : Option (Call α)} {pc : Pc α} : pc.notify.Fits e call ↔ pc.Fits e call := by
  cases pc <;> exact Iff.rfl

theorem Pc.phase_notify (o : Call α) (e : Option α) (pc : Pc α) : pc.notify.phase o e = pc.phase o e := by
  cases pc with
  | wait op n => cases op <;> rfl
  | _ => rfl

theorem object_notifyAll : object (g, s.notifyAll) = object (g, s) := by
  refine congrArg (Object.mk s.queue) (funext fun c => ?_)
  exact congrArg (fun f => (g.calls c).elim .idle f) (funext fun o => Pc.phase_notify o _ _)

/-- The thread `c` moves. -/
theorem object_set {m : Option ℕ} {q pushed popped : List α} :
    object (g, { s.set c th with mutex := m, queue := q, pushed := pushed, popped := popped }) =
      { (object (g, s)).set c (th.phase (g.calls c)) with val := q } :=
  congrArg (Object.mk q) (funext fun d => Function.apply_update (fun d x => x.phase (g.calls d)) s.threads c th d)

theorem Log.add_next (h : ∀ result, (s.threads c).pc ≠ .unlock result) : g.add s (.next c) = g := by
  show (match (s.threads c).pc with | .unlock _ => _ | _ => g : Log α) = g
  split
  next result hpc => exact absurd hpc (h result)
  next => rfl

theorem Log.add_unlock {result : Bool} (hpc : (s.threads c).pc = .unlock result) :
    g.add s (.next c) = g.ret c result (s.threads c).elem := by
  show (match (s.threads c).pc with | .unlock _ => _ | _ => g : Log α) = _
  rw [hpc]

theorem Log.add_next_calls : (g.add s (.next c)).calls = g.calls := by
  show (match (s.threads c).pc with | .unlock _ => _ | _ => g : Log α).calls = g.calls
  split <;> rfl

theorem fits_set (h : ∀ d, (s.threads d).Fits (g.calls d)) (hc : th.Fits (g.calls c)) (d : ℕ) :
    ((s.set c th).threads d).Fits (g.calls d) :=
  update_of (P := fun x : Thread α => x.Fits (g.calls d)) (fun hd => hd ▸ hc) fun _ => h d

theorem fits_call {o : Call α} (h : ∀ d, (s.threads d).Fits (g.calls d)) (hc : th.Fits (some o)) (d : ℕ) :
    ((s.set c th).threads d).Fits ((g.call c o).calls d) := by
  by_cases hd : d = c
  · subst hd
    show Thread.Fits (Function.update s.threads d th d) (Function.update g.calls d (some o) d)
    rwa [Function.update_self, Function.update_self]
  · show Thread.Fits (Function.update s.threads c th d) (Function.update g.calls c (some o) d)
    rw [Function.update_of_ne hd, Function.update_of_ne hd]
    exact h d

theorem fits_step (h : ∀ d, (s.threads d).Fits (g.calls d)) (ht : Trans s a t) (d : ℕ) :
    (t.threads d).Fits ((g.add s a).calls d) := by
  have hat : ∀ {c : ℕ} {pc : Pc α}, (s.threads c).pc = pc → pc.Fits (s.threads c).given (g.calls c) :=
    fun hpc => hpc ▸ h _
  cases ht with
  | callPush hpc | callTake hpc =>
    refine fits_call h ?_ d
    exact rfl
  | @wake c op n hpc hm =>
    have hcall := hat hpc
    refine fits_set h ?_ d
    exact hcall
  | @expire c n hpc hm =>
    have hcall := hat hpc
    refine fits_set h ?_ d
    exact ⟨_, hcall⟩
  | lockPush hpc hm | notifyNone hpc hq | lock hpc hm | wait hpc hq | leave hpc hq =>
    have hcall := hat hpc
    rw [Log.add_next_calls]
    refine fits_set h ?_ d
    exact hcall
  | notifyAll hpc hq =>
    have hcall := hat hpc
    rw [Log.add_next_calls]
    refine fits_set (s := s.notifyAll) (fun d => Pc.fits_notify.2 (h d)) ?_ d
    exact hcall
  | push hpc =>
    have hcall := hat hpc
    rw [Log.add_next_calls]
    refine fits_set h ?_ d
    exact ⟨_, hcall⟩
  | @front c op hpc =>
    have hcall := hat hpc
    rw [Log.add_next_calls]
    refine fits_set h ?_ d
    show Pc.Fits _ _ (if op = .front then .unlock true else .pop)
    by_cases hop : op = .front
    · rw [if_pos hop]
      exact ⟨_, hcall⟩
    · rw [if_neg hop]
      exact ⟨op, _, hop, hcall⟩
  | pop hpc =>
    obtain ⟨op, e, -, hcall⟩ := hat hpc
    rw [Log.add_next_calls]
    refine fits_set h ?_ d
    exact ⟨_, hcall⟩
  | unlock hpc =>
    rw [Log.add_next_calls]
    refine fits_set h ?_ d
    exact trivial

/-- Only the thread that holds the mutex changes the queue, so what another one has read stays the front. -/
theorem read_step (h : ∀ d, (s.threads d).pc = .pop → (s.threads d).elem = s.queue.head?) (hs : s.Sound)
    (ht : Trans s a t) (d : ℕ) (hd : (t.threads d).pc = .pop) : (t.threads d).elem = t.queue.head? := by
  have hset : ∀ {c : ℕ} {th : Thread α}, (th.pc = .pop → th.elem = s.queue.head?) →
      ((s.set c th).threads d).pc = .pop → ((s.set c th).threads d).elem = s.queue.head? := fun hth =>
    update_of (P := fun x : Thread α => x.pc = .pop → x.elem = s.queue.head?) (fun _ => hth) fun _ => h d
  have hchange : ∀ {c : ℕ} {result : Bool}, (s.threads c).pc.holds →
      ¬ ((s.goto c (.unlock result)).threads d).pc = .pop := by
    intro c result hc
    refine update_of (P := fun x : Thread α => ¬ x.pc = .pop) (fun _ => nofun) fun hne hpop => hne ?_
    exact hs.locked.unique (i := d) (j := c) (show (s.threads d).pc.holds by rw [hpop]; trivial) hc
  cases ht with
  | callPush | callTake | lockPush | notifyNone | lock | wait | leave | unlock | wake | expire =>
    exact hset nofun hd
  | notifyAll hpc hq =>
    revert hd
    refine update_of (P := fun x : Thread α => x.pc = .pop → x.elem = s.queue.head?) (fun _ => nofun) fun _ => ?_
    show (s.threads d).pc.notify = .pop → _
    intro hn
    refine h d ?_
    revert hn
    cases (s.threads d).pc <;> simp [Pc.notify]
  | front hpc => exact hset (fun _ => rfl) hd
  | push hpc | pop hpc => exact absurd hd (hchange (hpc ▸ trivial))

/-! ## Each step is one of the object -/

theorem Thread.phase_some {o : Call α} : th.phase (some o) = th.pc.phase o th.elem := rfl

/-- A statement that is not the instant of its call. -/
theorem late_silent {m : Option ℕ} (h : th.phase (g.calls c) = (s.threads c).phase (g.calls c)) :
    Shows (Object.LateStep Spec) (object (g, s)) [] (object (g, { s.set c th with mutex := m })) := by
  have hset : (object (g, s)).set c (th.phase (g.calls c)) = object (g, s) := Object.set_of_eq h.symm
  rw [object_set]
  show Shows _ _ _ ((object (g, s)).set c (th.phase (g.calls c)))
  rw [hset]
  exact .refl _

/-- A call begins. -/
theorem late_call {o : Call α} (hpc : (s.threads c).pc = .idle) (hth : th.pc.phase o th.elem = .called o) :
    Shows (Object.LateStep Spec) (object (g, s)) [.call c o] (object (g.call c o, s.set c th)) := by
  have hidle : (object (g, s)).phase c = .idle := by
    show (s.threads c).phase (g.calls c) = .idle
    unfold Thread.phase
    rw [hpc]
    cases g.calls c <;> rfl
  have hcalled : object (g.call c o, s.set c th) = (object (g, s)).set c (.called o) := by
    refine congrArg (Object.mk s.queue) (funext fun d => ?_)
    show Thread.phase (Function.update s.threads c th d) (Function.update g.calls c (some o) d) =
      Function.update (object (g, s)).phase c (.called o) d
    by_cases hd : d = c
    · subst hd
      rw [Function.update_self, Function.update_self, Function.update_self]
      exact hth
    · rw [Function.update_of_ne hd, Function.update_of_ne hd, Function.update_of_ne hd]
      rfl
  rw [hcalled]
  exact .single (.call hidle)

/-- The instant of a call: a statement on the queue. -/
theorem late_act {m : Option ℕ} {q pushed popped : List α} {o : Call α} {r : Reply α}
    (hp : ((s.threads c).phase (g.calls c)).Pending o) (hth : th.phase (g.calls c) = .done r)
    (hspec : Spec s.queue o r q) : Shows (Object.LateStep Spec) (object (g, s)) []
      (object (g, { s.set c th with mutex := m, queue := q, pushed := pushed, popped := popped })) := by
  rw [object_set, hth]
  exact .single (.act hp hspec)

/-- An offer is made, declined or accepted. -/
theorem late_move {m : Option ℕ} {p : Phase (Call α) (Reply α)} (hth : th.phase (g.calls c) = p)
    (hs : Object.LateStep Spec (object (g, s)) [] ((object (g, s)).set c p)) :
    Shows (Object.LateStep Spec) (object (g, s)) [] (object (g, { s.set c th with mutex := m })) := by
  rw [object_set, hth]
  exact .single hs

theorem late_step (h : Logged (g, s)) (ht : Trans s a t) : ∃ es, (g.add s a).events = g.events ++ es ∧
    Shows (Object.LateStep Spec) (object (g, s)) es (object (g.add s a, t)) := by
  have hat : ∀ {c : ℕ} {pc : Pc α}, (s.threads c).pc = pc → pc.Fits (s.threads c).given (g.calls c) :=
    fun hpc => hpc ▸ h.fits _
  have hhidden : ∀ {c : ℕ} {pc : Pc α} {t : BlockingQueue α}, (s.threads c).pc = pc →
      (∀ result, pc ≠ .unlock result) → Shows (Object.LateStep Spec) (object (g, s)) [] (object (g, t)) →
      ∃ es, (g.add s (.next c)).events = g.events ++ es ∧
        Shows (Object.LateStep Spec) (object (g, s)) es (object (g.add s (.next c), t)) := by
    intro c pc t hpc hno hs
    rw [Log.add_next fun result => hpc ▸ hno result]
    exact ⟨[], (List.append_nil _).symm, hs⟩
  cases ht with
  | callPush hpc | callTake hpc => exact ⟨_, rfl, late_call hpc rfl⟩
  | lockPush hpc hm | notifyNone hpc hq | lock hpc hm | leave hpc hq =>
    have hcall := hat hpc
    refine hhidden hpc nofun (late_silent ?_)
    rw [hcall, Thread.phase_some, Thread.phase_some, hpc]
    rfl
  | @notifyAll c x hpc hq =>
    have hcall := hat hpc
    refine hhidden hpc nofun (object_notifyAll (s := s) ▸ late_silent (s := s.notifyAll) ?_)
    rw [hcall, Thread.phase_some, Thread.phase_some, show (s.notifyAll.threads c).pc = (s.threads c).pc.notify from rfl,
      hpc]
    rfl
  | @push c x hpc =>
    have hcall := hat hpc
    refine hhidden hpc nofun (late_act (o := .push x) ?_ ?_ (.push s.queue x))
    · rw [hcall, Thread.phase_some, hpc]
      exact rfl
    · rw [hcall, Thread.phase_some]
      rfl
  | @wait c op hpc hq =>
    have hcall := hat hpc
    have helem := h.booked.elem c (hpc ▸ trivial)
    refine hhidden hpc nofun ?_
    cases op with
    | popTimeWait =>
      -- the offer: the queue is empty now
      refine late_move (p := .offered (.take .popTimeWait (s.threads c).given) (.taken false (s.threads c).given)) ?_
        (.offer ?_ ?_)
      · rw [hcall, Thread.phase_some]
        exact congrArg (fun e => Phase.offered _ (Reply.taken false e)) helem
      · show ((s.threads c).phase (g.calls c)).Pending _
        rw [hcall, Thread.phase_some, hpc]
        exact rfl
      · show Spec s.queue _ _ s.queue
        rw [hq]
        exact .giveUp _
    | pop | front =>
      refine late_silent ?_
      rw [hcall, Thread.phase_some, Thread.phase_some, hpc]
      rfl
  | @front c op hpc =>
    have hcall := hat hpc
    have hpending : ((s.threads c).phase (g.calls c)).Pending (.take op (s.threads c).given) := by
      rw [hcall, Thread.phase_some, hpc]
      exact rfl
    obtain ⟨x, q, hq⟩ := List.exists_cons_of_ne_nil (h.sound.reads c (hpc ▸ trivial))
    refine hhidden hpc nofun ?_
    by_cases hop : op = .front
    · subst hop
      refine late_act (r := .taken true (some x)) (q := s.queue) hpending ?_ (hq ▸ .front _ x q)
      rw [hcall, Thread.phase_some, hq]
      rfl
    · refine late_silent ?_
      rw [hcall, Thread.phase_some, Thread.phase_some, hpc, if_neg hop]
      rfl
  | @pop c hpc =>
    obtain ⟨op, e, hop, hcall⟩ := hat hpc
    have helem := h.read c hpc
    obtain ⟨x, q, hq⟩ := List.exists_cons_of_ne_nil (h.sound.reads c (hpc ▸ trivial))
    refine hhidden hpc nofun (late_act (o := .take op e) (r := .taken true (some x)) ?_ ?_ ?_)
    · rw [hcall, Thread.phase_some, hpc]
      exact rfl
    · rw [hcall, Thread.phase_some]
      show Phase.done (Reply.taken true (s.threads c).elem) = _
      rw [helem, hq]
      rfl
    · rw [hq]
      exact .pop e x q hop
  | @unlock c result hpc =>
    obtain ⟨o, hcall⟩ := hat hpc
    have hret : (g.ret c result (s.threads c).elem).events =
        g.events ++ [.ret c (o.reply result (s.threads c).elem)] := by
      show g.events ++ ((g.calls c).map _).toList = _
      rw [hcall]
      rfl
    have hidle : object (g.ret c result (s.threads c).elem, { s.goto c .idle with mutex := none }) =
        (object (g, s)).set c .idle := by
      refine Eq.trans (object_set (g := g)) ?_
      rw [hcall]
      rfl
    rw [Log.add_unlock hpc]
    refine ⟨_, hret, ?_⟩
    rw [hidle]
    refine .single (.ret ?_)
    show (s.threads c).phase (g.calls c) = _
    rw [hcall, Thread.phase_some, hpc]
    rfl
  | @wake c op n hpc hm =>
    have hcall := hat hpc
    refine ⟨[], (List.append_nil _).symm, ?_⟩
    cases op with
    | popTimeWait =>
      refine late_move (p := .called (.take .popTimeWait (s.threads c).given)) ?_
        (.withdraw (r := .taken false (s.threads c).elem) ?_)
      · rw [hcall, Thread.phase_some]
        rfl
      · show (s.threads c).phase (g.calls c) = _
        rw [hcall, Thread.phase_some, hpc]
        rfl
    | pop | front =>
      refine late_silent ?_
      rw [hcall, Thread.phase_some, Thread.phase_some, hpc]
      rfl
  | @expire c n hpc hm =>
    have hcall := hat hpc
    refine ⟨[], (List.append_nil _).symm, ?_⟩
    refine late_move (p := .done (.taken false (s.threads c).elem)) ?_
      (.settle (o := .take .popTimeWait (s.threads c).given) ?_)
    · rw [hcall, Thread.phase_some]
      rfl
    · show (s.threads c).phase (g.calls c) = _
      rw [hcall, Thread.phase_some, hpc]
      rfl

theorem logged_step : Preserved (record step Log.add) Free (Logged (α := α)) := by
  rintro ⟨g, s⟩ a ⟨g', t⟩ h _ hs
  obtain ⟨hstep, rfl⟩ := record_eq_some.1 hs
  have ht := Trans.of_step hstep
  exact ⟨sound_step s a t h.sound trivial hstep, booked_step s a t h.booked trivial hstep, fits_step h.fits ht,
    read_step h.read h.sound ht⟩

/-! ## Runs -/

theorem queue_linearizable {q : List α} {as : List (Act α)} {g : Log α}
    (h : Run (record step Log.add) Free (Log.empty, create q) as (g, s)) :
    Linearizable Spec q g.events s.queue := by
  have hsim : ∀ (p : Log α × BlockingQueue α) a p', Logged p → Free p a → record step Log.add p a = some p' → ∃ es,
      p'.1.events = p.1.events ++ es ∧ Shows (Object.LateStep Spec) (object p) es (object p') := by
    rintro ⟨g, s⟩ a ⟨g', t⟩ hlogged - hs
    obtain ⟨hstep, rfl⟩ := record_eq_some.1 hs
    exact late_step hlogged (Trans.of_step hstep)
  obtain ⟨es, hes, hshows⟩ : ∃ es, g.events = [] ++ es ∧
      Shows (Object.LateStep Spec) (object (Log.empty, create q)) es (object (g, s)) :=
    h.shows logged_step hsim (logged_create q)
  rw [show g.events = es from hes]
  exact linearizable_of_late (x := object (g, s)) hshows

/-- A `PopTimeWait` gives up behind a `Push` that has returned: it took place before the `Push`. -/
theorem queue_linearizable_late : ∃ p : Log ℕ × BlockingQueue ℕ,
    Run (record step Log.add) Free (Log.empty, create [])
      [.take 0 .popTimeWait none, .next 0, .next 0, .push 1 5, .next 1, .next 1, .next 1, .next 1, .expire 0,
        .next 0] p ∧
    p.1.events = [.call 0 (.take .popTimeWait none), .call 1 (.push 5), .ret 1 .pushed,
      .ret 0 (.taken false none)] ∧
    Linearizable Spec [] p.1.events [5] := by
  refine exists_run (I := fun p => p.2.queue = [5] ∧ p.1.events = [.call 0 (.take .popTimeWait none),
    .call 1 (.push 5), .ret 1 .pushed, .ret 0 (.taken false none)]) (by decide) fun p hrun ⟨hq, hev⟩ => ⟨hev, ?_⟩
  rw [← hq]
  exact queue_linearizable (g := p.1) (s := p.2) hrun

end BlockingQueue

end Empool
