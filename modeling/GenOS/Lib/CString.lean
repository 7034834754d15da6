import Mathlib.Data.BitVec

/-!
# C strings

A C string is the list of its bytes without the terminator.
-/

namespace GenOS

/-- The bytes of a `char*` up to the terminator. -/
abbrev CString : Type := List (BitVec 8)

/-- `str_eq`. -/
def strEq : CString → CString → Bool
  | a :: as, b :: bs => if a ≠ b then false else strEq as bs
  | [], [] => true
  | _, _ => false

/-- `for (i = 0; s[i] && i < n; i++) dst[i] = s[i]; dst[i] = 0;` -/
def copyString : (n : Nat) → CString → CString
  | 0, _ => []
  | _, [] => []
  | n + 1, c :: s => c :: copyString n s

theorem strEq_iff {a b : CString} : strEq a b = true ↔ a = b := by
  fun_induction strEq a b with
  | case1 a as b bs h =>
    simp only [Bool.false_eq_true, false_iff, List.cons.injEq, not_and]
    exact fun he => absurd he h
  | case2 a as b bs h ih =>
    obtain rfl : a = b := not_not.mp h
    rw [ih, List.cons.injEq, and_iff_right rfl]
  | case3 => simp
  | case4 a b h1 h2 =>
    simp only [Bool.false_eq_true, false_iff]
    rintro rfl
    cases a with
    | nil => exact h2 rfl rfl
    | cons c s => exact h1 c s c s rfl rfl

theorem copyString_eq (n : Nat) (s : CString) : copyString n s = s.take n := by
  fun_induction copyString n s with
  | case1 s => rw [List.take_zero]
  | case2 n h => rw [List.take_nil]
  | case3 n c s ih => rw [List.take_succ_cons, ih]

/-- A short string is copied as a whole. -/
theorem copyString_of_le {n : Nat} {s : CString} (h : s.length ≤ n) : copyString n s = s := by
  rw [copyString_eq, List.take_of_length_le h]

theorem length_copyString_le (n : Nat) (s : CString) : (copyString n s).length ≤ n := by
  rw [copyString_eq]
  exact List.length_take_le n s

end GenOS
