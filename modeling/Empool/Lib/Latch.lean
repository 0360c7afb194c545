/-
  Latches: a flag that each of several calls tries to set, by one
  `compare_exchange` that may fail spuriously.  The call that succeeds goes on
  inside, and the others give up.

  The history of a run has the attempts and the calls that have got inside by
  them.  At most one gets inside, and whether one has is decided by the
  attempts: one of them has not failed spuriously (`Lawful.once`).
-/
import Empool.Lib.History
import Mathlib.Data.List.Basic

namespace Lts

/-- A system with a latch. -/
structure Latch (S A C : Type*) where
  step : S → A → Option S
  flag : S → Bool
  /-- the call whose `compare_exchange` the action executes, and whether it fails spuriously -/
  attempt : S → A → Option (C × Bool)
  /-- the call has still to make its attempt -/
  pending : S → C → Bool
  /-- the call is inside -/
  inside : S → C → Bool
  /-- the call has returned -/
  returned : S → C → Bool

/-- The history of a run. -/
structure Tries (C : Type*) where
  /-- the attempts, the last one first -/
  tried : List (C × Bool)
  /-- the calls that have got inside by one of them -/
  entered : List C
deriving DecidableEq

variable {S A C : Type*}

namespace Latch
variable (l : Latch S A C)

/-- The history after a step. -/
def after (h : Tries C) (s : S) (a : A) : Tries C :=
  match l.attempt s a, l.step s a with
  | some (c, spurious), some t =>
    { tried := (c, spurious) :: h.tried
      entered := if l.inside t c then c :: h.entered else h.entered }
  | _, _ => h

/-- A step of the system with its history. -/
def recorded : Tries C × S → A → Option (Tries C × S) := record l.step l.after

/-- Nobody has got inside yet. -/
def Open (s : S) : Prop := l.flag s = false ∧ ∀ c, l.inside s c = false

/-- The flag is moved by the attempts alone, as a `compare_exchange` does, and nobody gets inside in another
    way; `J` is what the states are known to meet. -/
structure Lawful (J : S → Prop) : Prop where
  keeps : Preserved l.step Free J
  passive : ∀ s a t, l.step s a = some t → l.attempt s a = none → l.flag t = l.flag s
  sets : ∀ s a t c spurious, l.step s a = some t → l.attempt s a = some (c, spurious) →
    l.flag t = (l.flag s || !spurious)
  wins : ∀ s a t c spurious, l.step s a = some t → l.attempt s a = some (c, spurious) →
    l.inside t c = (!l.flag s && !spurious)
  enters : ∀ s a t c, l.step s a = some t → l.inside t c = true →
    l.inside s c = true ∨ ∃ spurious, l.attempt s a = some (c, spurious)
  returns : ∀ s c, l.returned s c = true → l.pending s c = false
  waits : ∀ s a t c, J s → l.step s a = some t → l.pending s c = true →
    l.pending t c = true ∨ ∃ spurious, l.attempt s a = some (c, spurious)

/-- What every run from `s` on has done by its end: at most one call has got inside; one has, and the flag is set,
    if and only if an attempt has not failed spuriously; and a call that has returned has made its attempt. -/
def Once (s : S) : Prop :=
  ∀ as h t, Run l.recorded (fun _ _ => True) (⟨[], []⟩, s) as (h, t) →
    h.entered.length ≤ 1 ∧ (∀ c, l.inside t c = true → c ∈ h.entered) ∧
    (l.flag t = true ∧ h.entered.length = 1 ↔ ∃ c, (c, false) ∈ h.tried) ∧
    ∀ bs h' u c, Run l.recorded (fun _ _ => True) (h, t) bs (h', u) → l.pending t c = true →
      l.returned u c = true → ∃ spurious, (c, spurious) ∈ h'.tried

/-- Once a call has returned, the flag is set and exactly one call has got inside. -/
def Closes (s : S) : Prop :=
  ∀ as h t, Run l.recorded (fun _ _ => True) (⟨[], []⟩, s) as (h, t) → ∀ bs h' u c,
    Run l.recorded (fun _ _ => True) (h, t) bs (h', u) → l.pending t c = true → l.returned u c = true →
    l.flag u = true ∧ h'.entered.length = 1

variable {l} {J : S → Prop} {h h' : Tries C} {s t : S} {a : A} {c : C} {spurious : Bool}

theorem after_none (ha : l.attempt s a = none) : l.after h s a = h := by
  unfold after
  rw [ha]

theorem after_some (hs : l.step s a = some t) (ha : l.attempt s a = some (c, spurious)) :
    l.after h s a = { tried := (c, spurious) :: h.tried
                      entered := if l.inside t c then c :: h.entered else h.entered } := by
  unfold after
  rw [ha, hs]

/-- The flag and those inside, in terms of the history. -/
structure Kept (l : Latch S A C) (p : Tries C × S) : Prop where
  flag : l.flag p.2 = true ↔ ∃ c, (c, false) ∈ p.1.tried
  entered : p.1.entered.length = (l.flag p.2).toNat
  inside : ∀ c, l.inside p.2 c = true → c ∈ p.1.entered

theorem kept_of_open (hs : l.Open s) : l.Kept (⟨[], []⟩, s) where
  flag := by simp [hs.1]
  entered := by simp [hs.1]
  inside c hc := absurd (hc.symm.trans (hs.2 c)) Bool.noConfusion

theorem Lawful.kept_step (hl : l.Lawful J) : Preserved l.recorded (fun _ _ => True) l.Kept := by
  rintro ⟨h, s⟩ a ⟨h', t⟩ hk - hs
  obtain ⟨hst, rfl⟩ := record_eq_some.1 hs
  cases ha : l.attempt s a with
  | none =>
    have hflag := hl.passive s a t hst ha
    rw [after_none ha]
    refine ⟨?_, ?_, fun c hc => hk.inside c ?_⟩
    · rw [hflag]; exact hk.flag
    · rw [hflag]; exact hk.entered
    · exact (hl.enters s a t c hst hc).resolve_right fun ⟨_, hc'⟩ => by cases ha.symm.trans hc'
  | some r =>
    obtain ⟨c, spurious⟩ := r
    have hsets := hl.sets s a t c spurious hst ha
    have hwins := hl.wins s a t c spurious hst ha
    rw [after_some hst ha]
    refine ⟨?_, ?_, fun d hd => ?_⟩
    · show l.flag t = true ↔ ∃ d, (d, false) ∈ (c, spurious) :: h.tried
      rw [hsets, Bool.or_eq_true, hk.flag]
      simp only [List.mem_cons, Prod.mk.injEq]
      constructor
      · rintro (⟨d, hd⟩ | hno)
        · exact ⟨d, .inr hd⟩
        · exact ⟨c, .inl ⟨rfl, by simpa using hno.symm⟩⟩
      · rintro ⟨d, ⟨rfl, rfl⟩ | hd⟩
        · exact .inr rfl
        · exact .inl ⟨d, hd⟩
    · have hlen := hk.entered
      show (if l.inside t c then c :: h.entered else h.entered).length = (l.flag t).toNat
      rw [hsets, hwins]
      cases hf : l.flag s <;> cases spurious <;> simp_all
    · show d ∈ if l.inside t c then c :: h.entered else h.entered
      rcases hl.enters s a t d hst hd with hin | ⟨sp, hd'⟩
      · have hmem := hk.inside d hin
        split_ifs
        · exact List.mem_cons_of_mem _ hmem
        · exact hmem
      · cases ha.symm.trans hd'
        rw [if_pos hd]
        exact List.mem_cons_self ..

/-- A call waits until it has made its attempt. -/
theorem Lawful.tried_step (hl : l.Lawful J) (c : C) :
    PreservedUnder l.recorded (fun _ _ => True) (fun p => J p.2) fun p =>
      l.pending p.2 c = true ∨ ∃ spurious, (c, spurious) ∈ p.1.tried := by
  rintro ⟨h, s⟩ a ⟨h', t⟩ hj hor - hs
  obtain ⟨hst, rfl⟩ := record_eq_some.1 hs
  cases ha : l.attempt s a with
  | none =>
    rw [after_none ha]
    refine hor.imp (fun hp => ?_) id
    exact (hl.waits s a t c hj hst hp).resolve_right fun ⟨_, hc⟩ => by cases ha.symm.trans hc
  | some r =>
    obtain ⟨d, spurious⟩ := r
    rw [after_some hst ha]
    rcases hor with hp | ⟨sp, hc⟩
    · refine (hl.waits s a t c hj hst hp).imp id ?_
      rintro ⟨sp, hc⟩
      cases ha.symm.trans hc
      exact ⟨spurious, List.mem_cons_self ..⟩
    · exact .inr ⟨sp, List.mem_cons_of_mem _ hc⟩

theorem Lawful.once (hl : l.Lawful J) (hs : l.Open s) (hj : J s) : l.Once s := by
  intro as h t hrun
  have hkeeps : Preserved l.recorded (fun _ _ => True) fun p => J p.2 := hl.keeps.record fun _ _ _ _ => trivial
  have hk := hrun.invariant hl.kept_step (kept_of_open hs)
  have hlen := hk.entered
  refine ⟨?_, hk.inside, ?_, fun bs h' u c hrun' hp hret => ?_⟩
  · rw [hlen]
    exact Bool.toNat_le _
  · rw [← hk.flag]
    refine ⟨And.left, fun hf => ⟨hf, ?_⟩⟩
    rw [hlen, hf]
    rfl
  · have hjt : J t := hrun.invariant hkeeps hj
    refine (hrun'.invariant_under hkeeps (hl.tried_step c) hjt (.inl hp)).resolve_left fun hp' => ?_
    exact Bool.noConfusion ((hl.returns u c hret).symm.trans hp')

/-- A run in which a call returns without the flag being set. -/
theorem not_closes (as bs : List A) (c : C) (h : ∃ p ∈ exec l.recorded (fun _ _ => True) (⟨[], []⟩, s) as,
    l.pending p.2 c = true ∧ ∃ q ∈ exec l.recorded (fun _ _ => True) p bs,
      l.returned q.2 c = true ∧ l.flag q.2 = false) : ¬ l.Closes s := by
  intro hall
  obtain ⟨p, hp, hpend, q, hq, hret, hflag⟩ := h
  have hset := (hall as p.1 p.2 (run_of_exec hp) bs q.1 q.2 c (run_of_exec hq) hpend hret).1
  exact Bool.noConfusion (hset.symm.trans hflag)

end Latch

end Lts
