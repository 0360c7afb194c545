/-
  Arithmetic on 64-bit integers in terms of exact integers.

  `checked x` is the signed number `x` if there is one, and `none` if `x`
  overflows; the conversions between signed and unsigned numbers are remainders
  modulo `2 ^ 64`.
-/
import Mathlib.Algebra.Order.Ring.Int
import Mathlib.Tactic.SplitIfs

namespace Checked

variable {x : ℤ} {a b c : Int64} {u : UInt64}

def checked (x : ℤ) : Option Int64 := if -2 ^ 63 ≤ x ∧ x < 2 ^ 63 then some (.ofInt x) else none

theorem checked_eq_some : checked x = some c ↔ c.toInt = x := by
  unfold checked
  split_ifs with hx
  · have heq : (Int64.ofInt x).toInt = x := Int64.toInt_ofInt_of_le hx.1 hx.2
    rw [Option.some.injEq, ← Int64.toInt_inj, heq, eq_comm]
  · refine ⟨nofun, ?_⟩
    rintro rfl
    exact absurd ⟨c.le_toInt, c.toInt_lt⟩ hx

theorem exists_checked (hlo : -2 ^ 63 ≤ x) (hhi : x < 2 ^ 63) : ∃ c, checked x = some c ∧ c.toInt = x := by
  have heq : (Int64.ofInt x).toInt = x := Int64.toInt_ofInt_of_le hlo hhi
  exact ⟨.ofInt x, checked_eq_some.2 heq, heq⟩

/-- A signed number is the unsigned one of the same bits, from the middle of the range. -/
theorem toInt_eq_bmod (a : Int64) : a.toInt = (a.toUInt64.toNat : ℤ).bmod (2 ^ 64) :=
  BitVec.toInt_eq_toNat_bmod a.toBitVec

theorem toNat_toUInt64 (a : Int64) : (a.toUInt64.toNat : ℤ) = a.toInt % 2 ^ 64 := by
  have hlt := a.toUInt64.toNat_lt
  have hmod : (a.toUInt64.toNat : ℤ).bmod (2 ^ 64) % (2 ^ 64 : ℕ) = a.toUInt64.toNat % (2 ^ 64 : ℕ) :=
    Int.bmod_emod
  rw [← toInt_eq_bmod] at hmod
  omega

theorem toInt_toInt64_of_lt (hu : u.toNat < 2 ^ 63) : u.toInt64.toInt = u.toNat := by
  rw [toInt_eq_bmod, UInt64.toUInt64_toInt64]
  exact Int.bmod_eq_of_le (by omega) (by omega)

theorem toNat_add (u v : UInt64) : ((u + v).toNat : ℤ) = (u.toNat + v.toNat : ℤ) % 2 ^ 64 := by
  rw [UInt64.toNat_add]
  omega

theorem toNat_mul (u v : UInt64) : ((u * v).toNat : ℤ) = (u.toNat * v.toNat : ℤ) % 2 ^ 64 := by
  rw [UInt64.toNat_mul, Int.natCast_emod, Int.natCast_mul]
  rfl

theorem toNat_sub (u v : UInt64) : ((u - v).toNat : ℤ) = (u.toNat - v.toNat : ℤ) % 2 ^ 64 := by
  have hu := u.toNat_lt
  have hv := v.toNat_lt
  rw [UInt64.toNat_sub]
  omega

end Checked
