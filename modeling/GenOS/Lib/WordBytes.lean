import Mathlib.Data.BitVec
import GenOS.Lib.Cells

/-!
# Bytes of words

A block of 64-bit words, seen as bytes in little-endian order. `get f i` is byte `i` of the block
`f`, `set` writes one byte, `write` a list of bytes, and `copy n` the first `n` bytes of another
block.
-/

namespace WordBytes

abbrev Block : Type := Nat → BitVec 64

/-- Byte `k` of a word. -/
def byte (w : BitVec 64) (k : Nat) : BitVec 8 := w.extractLsb' (8 * k) 8

/-- The low `n` bytes of `a`, the others of `b`. -/
def splice (n : Nat) (a b : BitVec 64) : BitVec 64 :=
  a &&& BitVec.ofNat 64 (2 ^ (8 * n) - 1) ||| b &&& ~~~BitVec.ofNat 64 (2 ^ (8 * n) - 1)

/-- Byte `k` of a word is replaced. -/
def setByte (w : BitVec 64) (k : Nat) (b : BitVec 8) : BitVec 64 :=
  w &&& ~~~(BitVec.ofNat 64 255 <<< (8 * k)) ||| b.setWidth 64 <<< (8 * k)

def get (f : Block) (i : Nat) : BitVec 8 := byte (f (i / 8)) (i % 8)

def set (f : Block) (i : Nat) (b : BitVec 8) : Block :=
  Cells.set f (i / 8) (setByte (f (i / 8)) (i % 8) b)

/-- The bytes of a list, from byte `i` on. -/
def write (f : Block) : Nat → List (BitVec 8) → Block
  | _, [] => f
  | i, b :: l => write (set f i b) (i + 1) l

/-- The first `n` bytes of `src` over those of `dst`. -/
def copy (dst src : Block) (n : Nat) : Block := fun i => splice (n - 8 * i) (src i) (dst i)

variable {f g : Block} {i j k n : Nat} {b : BitVec 8}

theorem getLsbD_byte (w : BitVec 64) (k : Nat) {i : Nat} (hi : i < 8) :
    (byte w k).getLsbD i = w.getLsbD (8 * k + i) := by
  simp [byte, hi]

theorem getLsbD_mask (n : Nat) {i : Nat} (hi : i < 64) :
    (BitVec.ofNat 64 (2 ^ n - 1)).getLsbD i = decide (i < n) := by
  rw [BitVec.getLsbD_ofNat, Nat.testBit_two_pow_sub_one]
  simp [hi]

theorem byte_splice (a b : BitVec 64) (hk : k < 8) :
    byte (splice n a b) k = if k < n then byte a k else byte b k := by
  apply BitVec.eq_of_getLsbD_eq
  intro i hi
  have hlt : 8 * k + i < 64 := by omega
  rw [getLsbD_byte _ _ hi]
  unfold splice
  rw [BitVec.getLsbD_or, BitVec.getLsbD_and, BitVec.getLsbD_and, BitVec.getLsbD_not,
    getLsbD_mask _ hlt]
  split
  · have h : 8 * k + i < 8 * n := by omega
    rw [getLsbD_byte _ _ hi]
    simp [h]
  · have h : ¬ 8 * k + i < 8 * n := by omega
    rw [getLsbD_byte _ _ hi]
    simp [h, hlt]

/-- **A copy**, byte by byte. -/
theorem get_copy (dst src : Block) (n i : Nat) :
    get (copy dst src n) i = if i < n then get src i else get dst i := by
  unfold get copy
  rw [byte_splice _ _ (Nat.mod_lt _ (by decide))]
  have h : i % 8 < n - 8 * (i / 8) ↔ i < n := by omega
  simp only [h]

theorem byte_setByte (w : BitVec 64) (b : BitVec 8) (hk : k < 8) (hj : j < 8) :
    byte (setByte w k b) j = if j = k then b else byte w j := by
  apply BitVec.eq_of_getLsbD_eq
  intro i hi
  have hlt : 8 * j + i < 64 := by omega
  have hff : ∀ m < 64, (BitVec.ofNat 64 255).getLsbD m = decide (m < 8) := fun m hm =>
    getLsbD_mask 8 hm
  rw [getLsbD_byte _ _ hi]
  unfold setByte
  rw [BitVec.getLsbD_or, BitVec.getLsbD_and, BitVec.getLsbD_not, BitVec.getLsbD_shiftLeft,
    BitVec.getLsbD_shiftLeft, BitVec.getLsbD_setWidth]
  split
  · next he =>
    subst he
    have hsub : 8 * j + i - 8 * j = i := by omega
    have hi64 : i < 64 := by omega
    have hge : ¬ 8 * j + i < 8 * j := by omega
    rw [hsub, hff i hi64]
    simp [hlt, hi, hge, hi64]
  · next hne =>
    rw [getLsbD_byte _ _ hi]
    by_cases hjk : j < k
    · have h : 8 * j + i < 8 * k := by omega
      simp [hlt, h]
    · have h : ¬ 8 * j + i < 8 * k := by omega
      have h8 : ¬ 8 * j + i - 8 * k < 8 := by omega
      have hm : 8 * j + i - 8 * k < 64 := by omega
      rw [hff _ hm, BitVec.getLsbD_of_ge b _ (by omega)]
      simp [hlt, h8]

theorem get_set (f : Block) (i j : Nat) (b : BitVec 8) :
    get (set f i b) j = if j = i then b else get f j := by
  unfold get set
  by_cases hw : j / 8 = i / 8
  · rw [hw, Cells.set_self,
      byte_setByte _ _ (Nat.mod_lt _ (by decide)) (Nat.mod_lt _ (by decide))]
    have h : j % 8 = i % 8 ↔ j = i := by omega
    simp only [h]
  · rw [Cells.set_of_ne hw, if_neg fun he => hw (by rw [he])]

/-- **A list of bytes**, written from byte `i` on. -/
theorem get_write (l : List (BitVec 8)) : ∀ (f : Block) (i j : Nat),
    get (write f i l) j = if i ≤ j ∧ j < i + l.length then l.getD (j - i) 0 else get f j := by
  induction l with
  | nil =>
    intro f i j
    rw [if_neg (by simp only [List.length_nil]; omega)]
    rfl
  | cons b l ih =>
    intro f i j
    rw [write, ih, get_set, List.length_cons]
    by_cases he : j = i
    · subst he
      rw [if_neg (by omega), if_pos rfl, if_pos ⟨Nat.le_refl j, by omega⟩, Nat.sub_self,
        List.getD_cons_zero]
    · by_cases hin : i + 1 ≤ j ∧ j < i + 1 + l.length
      · have hs : j - i = j - (i + 1) + 1 := by omega
        rw [if_pos hin, if_pos (by omega), hs, List.getD_cons_succ]
      · rw [if_neg hin, if_neg he, if_neg (by omega)]

@[simp] theorem get_zero (i : Nat) : get (fun _ => 0#64) i = 0#8 := by
  simp [get, byte]

end WordBytes
