import Mathlib.Init

/-!
# C integer conversions

A value of an unsigned type is a `Nat` below its bound, of a signed type an `Int`.
-/

namespace GenOS

/-- Conversion of a `uint32_t` to `int32_t`. -/
def toInt32 (n : Nat) : Int := if n < 2147483648 then n else (n : Int) - 4294967296

/-- Conversion of a `size_t` to `int64_t`. -/
def toInt64 (n : Nat) : Int :=
  if n < 9223372036854775808 then n else (n : Int) - 18446744073709551616

theorem toInt32_of_lt {n : Nat} (h : n < 2147483648) : toInt32 n = n := if_pos h

theorem toInt32_lt {n : Nat} (h : n < 4294967296) : toInt32 n < 2147483648 := by
  unfold toInt32
  split <;> omega

/-- An `int32_t` is not negative when its top bit is clear. -/
theorem toInt32_nonneg_iff {n : Nat} (h : n < 4294967296) : 0 ≤ toInt32 n ↔ n < 2147483648 := by
  unfold toInt32
  split <;> omega

end GenOS
