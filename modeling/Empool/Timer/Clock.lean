/-
  The clock of a handler: `GetCurrentTime` counts the milliseconds of a reading
  in a `uint64_t`, the handler subtracts that count from a deadline, and
  `ConditionVariable::TimeWait` adds the difference to another reading.

  The statements of `TimeWait` are modelled with the overflow of a `long`, which
  `timeWait` answers with `none`; the two functions are compared with the exact
  times of readings, in microseconds and nanoseconds.
-/
import Empool.Timer.Trans
import Empool.Lib.Checked

namespace Empool

open Checked

/-- `struct timeval`, as `gettimeofday` fills it. -/
structure Timeval where
  tvSec : Int64
  tvUsec : Int64
  nonneg : 0 ≤ tvUsec.toInt
  lt : tvUsec.toInt < 1000000

/-- `struct timespec` -/
structure Timespec where
  tvSec : Int64
  tvNsec : Int64
deriving DecidableEq

/-- `GetCurrentTime`, at the reading `now`. -/
def getCurrentTime (now : Timeval) : TimeValue :=
  now.tvSec.toUInt64 * 1000 + (now.tvUsec / 1000).toUInt64

/-- `if (timeout.tv_nsec >= 1000000)`: a second more, if the field, which counts microseconds here, makes
    one. -/
def Timespec.carry (timeout : Timespec) : Option Timespec :=
  if 1000000 ≤ timeout.tvNsec then do
    let tvSec ← checked (timeout.tvSec.toInt + 1)
    return ⟨tvSec, timeout.tvNsec % 1000000⟩
  else some timeout

/-- The timespec that `TimeWait` builds at the reading `now`; `none`: an addition or a multiplication has
    overflown. -/
def timeWait (now : Timeval) (delay : TimeValue) : Option Timespec := do
  let tvSec ← checked (now.tvSec.toInt + (delay / 1000).toInt64.toInt)
  let part ← checked ((delay % 1000).toInt64.toInt * 1000)
  let tvNsec ← checked (now.tvUsec.toInt + part.toInt)
  let timeout ← Timespec.carry ⟨tvSec, tvNsec⟩
  let tvNsec ← checked (timeout.tvNsec.toInt * 1000)
  return { timeout with tvNsec := tvNsec }

/-! ## Exact times -/

/-- Microseconds since the Epoch. -/
def Timeval.us (r : Timeval) : ℤ := r.tvSec.toInt * 10 ^ 6 + r.tvUsec.toInt

/-- Whole milliseconds. -/
def Timeval.ms (r : Timeval) : ℤ := r.us / 1000

def Timespec.ns (t : Timespec) : ℤ := t.tvSec.toInt * 10 ^ 9 + t.tvNsec.toInt

/-- What `pthread_cond_timedwait` asks for. -/
def Timespec.Normalized (t : Timespec) : Prop := 0 ≤ t.tvNsec.toInt ∧ t.tvNsec.toInt < 10 ^ 9

variable {r r₁ r₂ r₃ : Timeval} {delay deadline : TimeValue} {timeout : Timespec}

/-- `GetCurrentTime` counts milliseconds, modulo `2 ^ 64`. -/
theorem toNat_getCurrentTime (r : Timeval) : ((getCurrentTime r).toNat : ℤ) = r.ms % 2 ^ 64 := by
  have hdiv : (r.tvUsec / 1000).toInt = r.tvUsec.toInt / 1000 := by
    rw [Int64.toInt_div_of_ne_right _ _ (by decide)]
    exact Int.tdiv_eq_ediv_of_nonneg r.nonneg
  have hms : r.ms = r.tvSec.toInt * 1000 + r.tvUsec.toInt / 1000 := by
    unfold Timeval.ms Timeval.us
    omega
  have hthousand : ((1000 : UInt64).toNat : ℤ) = 1000 := rfl
  rw [getCurrentTime, toNat_add, toNat_mul, toNat_toUInt64, toNat_toUInt64 (r.tvUsec / 1000), hdiv, hms, hthousand]
  omega

theorem toInt_div_thousand (delay : TimeValue) : (delay / 1000).toInt64.toInt = delay.toNat / 1000 := by
  have hlt := delay.toNat_lt
  have hdiv : (delay / 1000).toNat = delay.toNat / 1000 := UInt64.toNat_div ..
  rw [toInt_toInt64_of_lt (by omega), hdiv, Int.natCast_ediv]
  rfl

theorem toInt_mod_thousand (delay : TimeValue) : (delay % 1000).toInt64.toInt = delay.toNat % 1000 := by
  have hmod : (delay % 1000).toNat = delay.toNat % 1000 := UInt64.toNat_mod ..
  rw [toInt_toInt64_of_lt (by omega), hmod, Int.natCast_emod]
  rfl

/-- The carry keeps the time, and leaves less than a second. -/
theorem carry_eq {timeout : Timespec} (hsec : timeout.tvSec.toInt < 2 ^ 63 - 1) (hlo : 0 ≤ timeout.tvNsec.toInt)
    (hhi : timeout.tvNsec.toInt < 2000000) :
    ∃ carried, timeout.carry = some carried ∧ 0 ≤ carried.tvNsec.toInt ∧ carried.tvNsec.toInt < 1000000 ∧
      carried.tvSec.toInt * 10 ^ 6 + carried.tvNsec.toInt =
        timeout.tvSec.toInt * 10 ^ 6 + timeout.tvNsec.toInt := by
  have hle : 1000000 ≤ timeout.tvNsec ↔ 1000000 ≤ timeout.tvNsec.toInt := Int64.le_iff_toInt_le
  unfold Timespec.carry
  split_ifs with hcarry
  · have hmod : (timeout.tvNsec % 1000000).toInt = timeout.tvNsec.toInt % 1000000 := by
      rw [Int64.toInt_mod]
      exact Int.tmod_eq_emod_of_nonneg hlo
    have hmin := timeout.tvSec.le_toInt
    obtain ⟨tvSec, hs, hs'⟩ : ∃ c, checked (timeout.tvSec.toInt + 1) = some c ∧ _ :=
      exists_checked (by omega) (by omega)
    rw [hle] at hcarry
    refine ⟨⟨tvSec, timeout.tvNsec % 1000000⟩, by rw [hs]; rfl, ?_, ?_, ?_⟩
    · rw [hmod]; omega
    · rw [hmod]; omega
    · rw [hmod, hs']; omega
  · rw [hle] at hcarry
    exact ⟨timeout, rfl, hlo, by omega, rfl⟩

/-- `TimeWait` builds the time of the reading plus the delay. -/
theorem timeWait_eq (hr : r.tvSec.toInt < 2 ^ 62) :
    ∃ timeout, timeWait r delay = some timeout ∧ timeout.Normalized ∧
      timeout.ns = r.us * 1000 + delay.toNat * 10 ^ 6 := by
  have hlt := delay.toNat_lt
  have hmin := r.tvSec.le_toInt
  have hnonneg := r.nonneg
  have husec := r.lt
  have hdiv := toInt_div_thousand delay
  have hmod := toInt_mod_thousand delay
  obtain ⟨tvSec, hsec, hsec'⟩ : ∃ c, checked (r.tvSec.toInt + (delay / 1000).toInt64.toInt) = some c ∧ _ :=
    exists_checked (by omega) (by omega)
  obtain ⟨part, hpart, hpart'⟩ : ∃ c, checked ((delay % 1000).toInt64.toInt * 1000) = some c ∧ _ :=
    exists_checked (by omega) (by omega)
  obtain ⟨tvNsec, hus, hus'⟩ : ∃ c, checked (r.tvUsec.toInt + part.toInt) = some c ∧ _ :=
    exists_checked (by omega) (by omega)
  obtain ⟨timeout, hcarry, hlo, hhi, hexact⟩ := @carry_eq ⟨tvSec, tvNsec⟩ (by simp only; omega)
    (by simp only; omega) (by simp only; omega)
  obtain ⟨ns, hns, hns'⟩ : ∃ c, checked (timeout.tvNsec.toInt * 1000) = some c ∧ _ :=
    exists_checked (by omega) (by omega)
  refine ⟨{ timeout with tvNsec := ns }, ?_, ⟨?_, ?_⟩, ?_⟩
  · simp only [timeWait, hsec, hpart, hus, hcarry, hns, Option.bind_eq_bind, Option.bind_some]
    rfl
  · show 0 ≤ ns.toInt
    omega
  · show ns.toInt < 10 ^ 9
    omega
  · show timeout.tvSec.toInt * 10 ^ 9 + ns.toInt = r.us * 1000 + delay.toNat * 10 ^ 6
    simp only at hexact
    unfold Timeval.us
    omega

/-! ## Deadlines -/

/-- What `GetCurrentTime` has dropped at the reading: a multiple of `2 ^ 64` milliseconds, 0 from the Epoch up
    to the first `2 ^ 64`. -/
def Timeval.dropped (r : Timeval) : ℤ := r.ms / 2 ^ 64 * 2 ^ 64

theorem dropped_nonneg (hr : 0 ≤ r.tvSec.toInt) : 0 ≤ r.dropped := by
  have hnonneg := r.nonneg
  unfold Timeval.dropped Timeval.ms Timeval.us
  omega

/-- The difference may be taken at an earlier reading than the sum: the sum is not before the deadline. -/
theorem timeWait_deadline (hle : r₁.us ≤ r₂.us) (hr : r₂.tvSec.toInt < 2 ^ 62)
    (hwait : timeWait r₂ (deadline - getCurrentTime r₁) = some timeout) :
    (deadline.toNat + r₁.dropped) * 10 ^ 6 ≤ timeout.ns := by
  obtain ⟨timeout', hwait', -, hns⟩ := @timeWait_eq r₂ (deadline - getCurrentTime r₁) hr
  obtain rfl : timeout' = timeout := Option.some.inj (hwait'.symm.trans hwait)
  have hlt := deadline.toNat_lt
  have hsub := toNat_sub deadline (getCurrentTime r₁)
  rw [toNat_getCurrentTime] at hsub
  rw [hns]
  unfold Timeval.dropped Timeval.ms at *
  omega

/-- At a reading that is not before that time `GetCurrentTime` is not before the deadline. -/
theorem getCurrentTime_deadline (hns : (deadline.toNat + r₁.dropped) * 10 ^ 6 ≤ r₃.us * 1000)
    (hdrop : r₃.dropped = r₁.dropped) : deadline ≤ getCurrentTime r₃ := by
  have hlt := deadline.toNat_lt
  have hnow := toNat_getCurrentTime r₃
  rw [UInt64.le_iff_toNat_le, ← Int.ofNat_le, hnow]
  unfold Timeval.dropped Timeval.ms at *
  omega

/-- The handler then fires the task: it does not wait again. -/
theorem next_due {h : Handler} {ts : Tasks} {task : TimerPtr} {now clock : TimeValue} {e : DoRunEnd}
    (hpc : h.pc = .isRequestCancel task now deadline) (hdue : deadline ≤ now) :
    h.next ts clock e = some (h.goto (.popMin task true), ts) ∨
      h.next ts clock e = some (h.goto (.isIntervalTask task now), ts) := by
  simp only [Handler.next, hpc]
  split_ifs with hreq
  · exact .inl rfl
  · exact .inr rfl

/-- Otherwise it waits. -/
theorem next_not_due {h : Handler} {ts : Tasks} {task : TimerPtr} {now clock : TimeValue} {e : DoRunEnd}
    (hpc : h.pc = .isRequestCancel task now deadline) (hreq : (ts.get task).base.isRequestCancel = false)
    (hlate : ¬ deadline ≤ now) : h.next ts clock e = some (h.goto (.timedWait now deadline false), ts) := by
  simp only [Handler.next, hpc, hreq, if_neg hlate]
  rfl

/-- `TimeWait` adds the delay to the reading exactly and without overflow; if the delay is what a handler has left
    to a deadline at a reading that is not later, the sum is not before the deadline; and once it has passed,
    `GetCurrentTime` says so, unless it drops another multiple of `2 ^ 64`, and the handler fires. -/
theorem timed_wait_reaches :
    (∀ r : Timeval, ∀ delay, r.tvSec.toInt < 2 ^ 62 → ∃ timeout, timeWait r delay = some timeout ∧
      timeout.Normalized ∧ timeout.ns = r.us * 1000 + delay.toNat * 10 ^ 6) ∧
    ∀ r₁ r₂ : Timeval, ∀ deadline timeout, r₁.us ≤ r₂.us → r₂.tvSec.toInt < 2 ^ 62 →
      timeWait r₂ (deadline - getCurrentTime r₁) = some timeout →
      (deadline.toNat + r₁.dropped) * 10 ^ 6 ≤ timeout.ns ∧
      (0 ≤ r₁.tvSec.toInt → deadline.toNat * 10 ^ 6 ≤ timeout.ns) ∧
      ∀ r₃ : Timeval, timeout.ns ≤ r₃.us * 1000 → r₃.dropped = r₁.dropped →
        deadline ≤ getCurrentTime r₃ ∧
        ∀ (h : Handler) ts task clock e, h.pc = .isRequestCancel task (getCurrentTime r₃) deadline →
          h.next ts clock e = some (h.goto (.popMin task true), ts) ∨
            h.next ts clock e = some (h.goto (.isIntervalTask task (getCurrentTime r₃)), ts) := by
  refine ⟨fun r delay => timeWait_eq, fun r₁ r₂ deadline timeout hle hr hwait => ?_⟩
  have htarget := timeWait_deadline hle hr hwait
  refine ⟨htarget, fun hsec => ?_, fun r₃ hns hdrop => ?_⟩
  · have hdropped := dropped_nonneg hsec
    omega
  · have hdue := getCurrentTime_deadline (Int.le_trans htarget hns) hdrop
    exact ⟨hdue, fun h ts task clock e hpc => next_due hpc hdue⟩

/-- A second of delay: 1700000000.000999, then 1700000000.500000 with what is left to the deadline, and the end of
    that wait. -/
theorem timed_wait_reaches_second :
    ∃ r₁ r₂ r₃ : Timeval, ∃ deadline timeout, getCurrentTime r₁ < deadline ∧ r₁.us < r₂.us ∧
      timeWait r₂ (deadline - getCurrentTime r₁) = some timeout ∧ timeout.Normalized ∧
      timeout.ns = r₂.us * 1000 + 10 ^ 9 ∧ deadline.toNat * 10 ^ 6 ≤ timeout.ns ∧ timeout.ns ≤ r₃.us * 1000 ∧
      deadline ≤ getCurrentTime r₃ := by
  let r₁ : Timeval := ⟨1700000000, 999, by decide, by decide⟩
  let r₂ : Timeval := ⟨1700000000, 500000, by decide, by decide⟩
  let r₃ : Timeval := ⟨1700000001, 500000, by decide, by decide⟩
  obtain ⟨hexact, hreach⟩ := timed_wait_reaches
  obtain ⟨timeout, hwait, hnorm, hns⟩ := hexact r₂ (1700000001000 - getCurrentTime r₁) (by decide)
  have hus : r₂.us * 1000 + 10 ^ 9 = r₃.us * 1000 := by decide
  have hdelay : (1700000001000 - getCurrentTime r₁).toNat = 1000 := by decide
  rw [hdelay] at hns
  have hns' : timeout.ns = r₂.us * 1000 + 10 ^ 9 := by omega
  obtain ⟨-, htarget, hfire⟩ := hreach r₁ r₂ 1700000001000 timeout (by decide) (by decide) hwait
  have hle : timeout.ns ≤ r₃.us * 1000 := Int.le_of_eq (hns'.trans hus)
  exact ⟨r₁, r₂, r₃, 1700000001000, timeout, by decide, by decide, hwait, hnorm, hns', htarget (by decide), hle,
    (hfire r₃ hle (by decide)).1⟩

/-- The count wraps to 0 while a handler waits: 616 milliseconds before `2 ^ 64` it takes what is left to the last
    deadline before it, it waits a millisecond later, and at the end of the wait it waits again. -/
theorem timed_wait_wraps :
    ∃ r₁ r₂ r₃ : Timeval, ∃ deadline timeout, 0 ≤ r₁.tvSec.toInt ∧ r₃.tvSec.toInt < 2 ^ 62 ∧
      getCurrentTime r₁ < deadline ∧ r₁.us ≤ r₂.us ∧
      timeWait r₂ (deadline - getCurrentTime r₁) = some timeout ∧ timeout.ns = r₃.us * 1000 ∧
      ¬ deadline ≤ getCurrentTime r₃ ∧
      ∀ (h : Handler) ts task clock e, h.pc = .isRequestCancel task (getCurrentTime r₃) deadline →
        (ts.get task).base.isRequestCancel = false →
        h.next ts clock e = some (h.goto (.timedWait (getCurrentTime r₃) deadline false), ts) := by
  let r₁ : Timeval := ⟨18446744073709551, 0, by decide, by decide⟩
  let r₂ : Timeval := ⟨18446744073709551, 1000, by decide, by decide⟩
  let r₃ : Timeval := ⟨18446744073709551, 616000, by decide, by decide⟩
  obtain ⟨timeout, hwait, -, hns⟩ := @timeWait_eq r₂ (18446744073709551615 - getCurrentTime r₁) (by decide)
  exact ⟨r₁, r₂, r₃, 18446744073709551615, timeout, by decide, by decide, by decide, by decide, hwait,
    hns.trans (by decide), by decide, fun h ts task clock e hpc hreq => next_not_due hpc hreq (by decide)⟩

end Empool
