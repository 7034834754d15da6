import Mathlib.Data.BitVec
import Mathlib.Logic.Function.Iterate

/-!
# Mixing of words

The steps that word generators are composed of lose nothing: `x ^ (x << k)`, `x ^ (x >> k)`, the
product with a unit and the rotation are injective at every width. An injective transition that
keeps one state leads to it from that state only.
-/

namespace GenOS.XorShift

variable {w k : Nat} {x c d : BitVec w}

/-! ## Shifts -/

theorem shiftLeft_fixed (h : x <<< k = x) (n : Nat) : x <<< (k * n) = x := by
  induction n with
  | zero => simp
  | succ n ih => rw [Nat.mul_succ, BitVec.shiftLeft_add, ih, h]

theorem shiftRight_fixed (h : x >>> k = x) (n : Nat) : x >>> (k * n) = x := by
  induction n with
  | zero => simp
  | succ n ih => rw [Nat.mul_succ, BitVec.shiftRight_add, ih, h]

/-- Only zero is its own shift. -/
theorem eq_zero_of_shiftLeft (hk : 0 < k) (h : x <<< k = x) : x = 0#w := by
  have hfix := shiftLeft_fixed h w
  rw [BitVec.shiftLeft_eq_zero (Nat.le_mul_of_pos_left w hk)] at hfix
  exact hfix.symm

theorem eq_zero_of_shiftRight (hk : 0 < k) (h : x >>> k = x) : x = 0#w := by
  have hfix := shiftRight_fixed h w
  rw [BitVec.ushiftRight_eq_zero (Nat.le_mul_of_pos_left w hk)] at hfix
  exact hfix.symm

/-- A linear map without fixed points but zero, added to the identity. -/
theorem xor_injective {f : BitVec w → BitVec w} (hadd : ∀ x y, f (x ^^^ y) = f x ^^^ f y)
    (hfix : ∀ x, f x = x → x = 0#w) : Function.Injective fun x => x ^^^ f x := by
  intro x y h
  have hxy : f (x ^^^ y) = x ^^^ y := by
    have hsum : (x ^^^ f x) ^^^ (y ^^^ f y) = 0#w := BitVec.xor_eq_zero_iff.mpr h
    rw [hadd]
    refine (BitVec.xor_eq_zero_iff.mp ?_).symm
    rw [← hsum]
    ac_rfl
  exact BitVec.xor_eq_zero_iff.mp (hfix _ hxy)

theorem xor_shiftLeft_injective (hk : 0 < k) :
    Function.Injective fun x : BitVec w => x ^^^ x <<< k :=
  xor_injective (fun x y => BitVec.shiftLeft_xor_distrib x y k) fun _ => eq_zero_of_shiftLeft hk

theorem xor_shiftRight_injective (hk : 0 < k) :
    Function.Injective fun x : BitVec w => x ^^^ x >>> k :=
  xor_injective (fun x y => BitVec.ushiftRight_xor_distrib x y k) fun _ => eq_zero_of_shiftRight hk

/-! ## Products and rotations -/

/-- A factor with an inverse. -/
theorem mul_injective (h : c * d = 1#w) : Function.Injective fun x : BitVec w => x * c := by
  intro x y hxy
  have hd := congrArg (· * d) hxy
  simpa only [BitVec.mul_assoc, h, BitVec.mul_one] using hd

/-- The bits of a rotation are those of the word. -/
theorem getLsbD_rotate (hk : k < w) (x : BitVec w) (i : Nat) (hi : i < w) :
    x.getLsbD i = (x <<< k ||| x >>> (w - k)).getLsbD (if i + k < w then i + k else i + k - w) := by
  rw [BitVec.getLsbD_or, BitVec.getLsbD_shiftLeft, BitVec.getLsbD_ushiftRight]
  split
  · next h =>
    have hhigh : x.getLsbD (w - k + (i + k)) = false := BitVec.getLsbD_of_ge _ _ (by omega)
    simp [h, hhigh, show ¬ i + k < k by omega]
  · next h =>
    simp [show i + k - w < k by omega, show w - k + (i + k - w) = i by omega]

theorem rotate_injective (hk : k < w) :
    Function.Injective fun x : BitVec w => x <<< k ||| x >>> (w - k) := by
  intro x y h
  refine BitVec.eq_of_getLsbD_eq fun i hi => ?_
  rw [getLsbD_rotate hk x i hi, getLsbD_rotate hk y i hi]
  exact congrArg (fun z : BitVec w => z.getLsbD _) h

/-! ## Runs -/

/-- A state that only itself leads to is not reached from another. -/
theorem iterate_ne {α : Type*} {f : α → α} {z x : α} (hf : Function.Injective f) (hz : f z = z)
    (hx : x ≠ z) (n : Nat) : f^[n] x ≠ z := by
  intro h
  refine hx (hf.iterate n ?_)
  rw [h, Function.iterate_fixed hz]

end GenOS.XorShift
