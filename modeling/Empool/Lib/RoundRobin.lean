/-
  Round robin: a counter that goes up by one at each turn, and a turn that
  goes to the remainder of the counter modulo `n`.

  `share n i a m` is how many of the `m` turns from the counter value `a` on go
  to `i`.  The shares of any two of the `n` places differ by at most one,
  whatever `a` and `m` are (`share_le`).
-/
import Mathlib.Data.Int.CardIntervalMod

namespace RoundRobin

variable {n i j a m : ℕ}

def share (n i a m : ℕ) : ℕ := Nat.count (fun k => (a + k) % n = i) m

@[simp] theorem share_zero : share n i a 0 = 0 := Nat.count_zero _

theorem share_succ : share n i a (m + 1) = share n i a m + if (a + m) % n = i then 1 else 0 :=
  Nat.count_succ _ m

/-- Turns that are counted from 0 on. -/
theorem share_add : share n i 0 (a + m) = share n i 0 a + share n i a m := by
  simp only [share, Nat.zero_add]
  exact Nat.count_add (fun k => k % n = i) a m

theorem share_zero_left (hi : i < n) : share n i 0 m = m / n + if i < m % n then 1 else 0 := by
  have hcount := Nat.count_modEq_card m (Nat.zero_lt_of_lt hi) i
  rw [Nat.mod_eq_of_lt hi] at hcount
  rw [← hcount]
  simp only [share, Nat.zero_add, Nat.ModEq, Nat.mod_eq_of_lt hi]

theorem share_le (hi : i < n) (hj : j < n) : share n i a m ≤ share n j a m + 1 := by
  have hsi := share_add (n := n) (i := i) (a := a) (m := m)
  have hsj := share_add (n := n) (i := j) (a := a) (m := m)
  rw [share_zero_left hi, share_zero_left hi] at hsi
  rw [share_zero_left hj, share_zero_left hj] at hsj
  -- of the turns before the counter value, and of those up to the last, `i` has one more if it lies below the
  -- remainder
  split_ifs at hsi hsj <;> omega

end RoundRobin
