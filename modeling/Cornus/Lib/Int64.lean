import Mathlib.Algebra.Group.Nat.Defs
import Mathlib.Data.Int.Basic

/-!
# Sums of 64-bit integers

A sum of `int64` values is the balanced remainder of the exact sum modulo 2^64.
-/

namespace Cornus.Lib

/-- What an `int64` expression of the exact value `n` gives. -/
@[irreducible]
def int64 (n : Nat) : Int :=
  Int.bmod n (2 ^ 64)

variable {n : Nat}

theorem int64_of_lt (fits : n < 2 ^ 63) : int64 n = n := by
  unfold int64
  apply Int.bmod_eq_of_le <;> omega

theorem min_int64 (fits : n < 2 ^ 63) (m : Nat) : (min (int64 n) (m : Int)).toNat = min n m := by
  rw [int64_of_lt fits]
  omega

theorem int64_neg (overflows : 2 ^ 63 ≤ n) (once : n < 2 ^ 64) : int64 n < 0 := by
  unfold int64
  rw [Int.bmod_def]
  split_ifs <;> omega

end Cornus.Lib
