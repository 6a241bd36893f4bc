import Mathlib.Algebra.Group.Int.Defs
import Mathlib.Algebra.Group.Nat.Defs
import Mathlib.Data.Int.Init
import Mathlib.Tactic.Common

/-!
# Seminars.Lib.CInt — integers of C

Conversions to `int` (32 bits), `intptr_t` (64 bits) and `size_t` as gcc makes them: reduction modulo the power of
two.  A value in range is left alone.
-/

namespace Seminars.Lib

/-- Conversion to `int`. -/
def int (x : ℤ) : ℤ := x.bmod (2 ^ 32)

/-- Conversion to `intptr_t`. -/
def intptr (x : ℤ) : ℤ := x.bmod (2 ^ 64)

/-- Conversion to `size_t`. -/
def sizeT (x : ℤ) : ℕ := (x % (2 ^ 64 : ℕ)).toNat

theorem int_eq {x : ℤ} (h : -2 ^ 31 ≤ x ∧ x < 2 ^ 31) : int x = x := by
  unfold int
  rw [Int.bmod_def]
  split_ifs <;> omega

theorem int_int (x : ℤ) : int (int x) = int x := Int.bmod_bmod

theorem intptr_eq {x : ℤ} (h : -2 ^ 63 ≤ x ∧ x < 2 ^ 63) : intptr x = x := by
  unfold intptr
  rw [Int.bmod_def]
  split_ifs <;> omega

theorem sizeT_eq {n : ℕ} (h : n < 2 ^ 64) : sizeT n = n := by
  unfold sizeT
  omega

end Seminars.Lib
