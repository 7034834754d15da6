import Mathlib.Data.BitVec
import GenOS.Lib.Cells

/-!
# Byte memory

A memory gives a byte for each address. `load m a n` is the little-endian value of `n` bytes,
`store m a n v` writes it, and `copy m dst src n` is a byte loop. `read` and `write` take the bytes
as a list. `Outside m m' a n` says that two memories differ at most in `n` bytes from `a` on.
-/

namespace Bytes

abbrev Mem : Type := Nat → BitVec 8

/-- The little-endian value of `n` bytes. -/
def load (m : Mem) : (a n : Nat) → Nat
  | _, 0 => 0
  | a, n + 1 => (m a).toNat + 256 * load m (a + 1) n

/-- Write the low `n` bytes of `v`. -/
def store (m : Mem) : (a n v : Nat) → Mem
  | _, 0, _ => m
  | a, n + 1, v => store (Cells.set m a (BitVec.ofNat 8 v)) (a + 1) n (v / 256)

/-- `for (i = 0; i < n; i++) dst[i] = src[i];` -/
def copy (m : Mem) (dst src : Nat) : Nat → Mem
  | 0 => m
  | n + 1 => Cells.set (copy m dst src n) (dst + n) (copy m dst src n (src + n))

/-- The `n` bytes at `a`. -/
def read (m : Mem) (a n : Nat) : List (BitVec 8) := (List.range n).map fun i => m (a + i)

/-- Write the bytes of a list. -/
def write (m : Mem) (a : Nat) (l : List (BitVec 8)) : Mem := fun x =>
  if a ≤ x ∧ x < a + l.length then l.getD (x - a) 0 else m x

/-- The `n` bytes at `a` and the `k` bytes at `b` have no byte in common. -/
def Apart (a n b k : Nat) : Prop := a + n ≤ b ∨ b + k ≤ a

/-- The memories agree outside the `n` bytes from `a` on. -/
def Outside (m m' : Mem) (a n : Nat) : Prop := ∀ x, x < a ∨ a + n ≤ x → m' x = m x

variable {m m' m'' : Mem} {a b n k : Nat}

theorem load_congr (h : ∀ x, a ≤ x → x < a + n → m' x = m x) : load m' a n = load m a n := by
  induction n generalizing a with
  | zero => rfl
  | succ n ih =>
    rw [load, load, h a (Nat.le_refl _) (by omega), ih fun x h1 h2 => h x (by omega) (by omega)]

theorem load_lt (m : Mem) (a n : Nat) : load m a n < 256 ^ n := by
  induction n generalizing a with
  | zero => exact Nat.one_pos
  | succ n ih =>
    have h1 := ih (a + 1)
    have h2 : (m a).toNat < 256 := (m a).isLt
    rw [load, Nat.pow_succ]
    omega

namespace Outside

theorem refl : Outside m m a n := fun _ _ => rfl

theorem trans (h : Outside m m' a n) (h' : Outside m' m'' a n) : Outside m m'' a n :=
  fun x hx => (h' x hx).trans (h x hx)

theorem mono (h : Outside m m' a n) (h1 : b ≤ a) (h2 : a + n ≤ b + k) : Outside m m' b k :=
  fun x hx => h x (by omega)

theorem load_eq (h : Outside m m' a n) (hd : b + k ≤ a ∨ a + n ≤ b) : load m' b k = load m b k :=
  load_congr fun x h1 h2 => h x (by omega)

end Outside

theorem store_outside (m : Mem) (a n v : Nat) : Outside m (store m a n v) a n := by
  induction n generalizing m a v with
  | zero => exact .refl
  | succ n ih =>
    intro x hx
    rw [store, ih _ (a + 1) (v / 256) x (by omega), Cells.set_of_ne (by omega)]

theorem load_store (m : Mem) (a n v : Nat) : load (store m a n v) a n = v % 256 ^ n := by
  induction n generalizing m a v with
  | zero => rw [load, Nat.pow_zero, Nat.mod_one]
  | succ n ih =>
    rw [load, store, ih, store_outside _ (a + 1) n _ a (by omega), Cells.set_self,
      BitVec.toNat_ofNat]
    change v % 256 + 256 * (v / 256 % 256 ^ n) = v % 256 ^ (n + 1)
    rw [Nat.pow_succ, Nat.mul_comm (256 ^ n) 256, Nat.mod_mul]

theorem load_store_lt {v : Nat} (h : v < 256 ^ n) : load (store m a n v) a n = v := by
  rw [load_store, Nat.mod_eq_of_lt h]

theorem copy_outside (m : Mem) (dst src n : Nat) : Outside m (copy m dst src n) dst n := by
  induction n with
  | zero => exact .refl
  | succ n ih =>
    intro x hx
    rw [copy, Cells.set_of_ne (by omega), ih x (by omega)]

/-- A copy between disjoint ranges. -/
theorem copy_apply {dst src : Nat} (hd : src + n ≤ dst ∨ dst + n ≤ src) {i : Nat} (hi : i < n) :
    copy m dst src n (dst + i) = m (src + i) := by
  induction n with
  | zero => omega
  | succ n ih =>
    rw [copy]
    rcases Nat.lt_or_eq_of_le (Nat.le_of_lt_succ hi) with hlt | rfl
    · rw [Cells.set_of_ne (by omega), ih (by omega) hlt]
    · rw [Cells.set_self, copy_outside m dst src i _ (by omega)]

/-! ## Lists of bytes -/

@[simp] theorem length_read (m : Mem) (a n : Nat) : (read m a n).length = n := by
  rw [read, List.length_map, List.length_range]

theorem getElem_read {i : Nat} (h : i < (read m a n).length) : (read m a n)[i] = m (a + i) := by
  simp only [read, List.getElem_map, List.getElem_range]

theorem read_congr {c : Nat} (h : ∀ i < n, m' (b + i) = m (c + i)) : read m' b n = read m c n :=
  List.map_congr_left fun i hi => h i (List.mem_range.mp hi)

theorem Outside.read_eq (h : Outside m m' a n) (hd : Apart a n b k) : read m' b k = read m b k :=
  read_congr fun i hi => h (b + i) (by unfold Apart at hd; omega)

theorem read_add (m : Mem) (a n k : Nat) : read m a (n + k) = read m a n ++ read m (a + n) k := by
  rw [read, List.range_add, List.map_append, List.map_map]
  congr 1
  refine List.map_congr_left fun i _ => ?_
  change m (a + (n + i)) = m (a + n + i)
  rw [Nat.add_assoc]

theorem take_read (m : Mem) (a : Nat) (h : k ≤ n) : (read m a n).take k = read m a k := by
  obtain ⟨j, rfl⟩ := Nat.exists_eq_add_of_le h
  rw [read_add, List.take_left' (length_read ..)]

theorem write_outside (m : Mem) (a : Nat) (l : List (BitVec 8)) :
    Outside m (write m a l) a l.length := fun _ hx => if_neg (by omega)

theorem write_apply {l : List (BitVec 8)} {i : Nat} (hi : i < l.length) :
    write m a l (a + i) = l.getD i 0 := by
  rw [write, if_pos (by omega), Nat.add_sub_cancel_left]

theorem read_write (m : Mem) (a : Nat) (l : List (BitVec 8)) :
    read (write m a l) a l.length = l := by
  apply List.ext_getElem (length_read ..)
  intro i h1 h2
  simp only [read, List.getElem_map, List.getElem_range]
  rw [write_apply h2, List.getD_eq_getElem?_getD, List.getElem?_eq_getElem h2, Option.getD_some]

theorem read_write_of_length {l : List (BitVec 8)} (h : l.length = n) :
    read (write m a l) a n = l := h ▸ read_write m a l

/-- A second write of the same length replaces the first. -/
theorem write_write {l l' : List (BitVec 8)} (h : l.length = l'.length) :
    write (write m a l) a l' = write m a l' := by
  funext x
  unfold write
  split
  · rfl
  · rw [if_neg (by omega)]

theorem read_copy {dst src : Nat} (hd : Apart src n dst n) :
    read (copy m dst src n) dst n = read m src n :=
  read_congr fun _ hi => copy_apply hd hi

end Bytes
