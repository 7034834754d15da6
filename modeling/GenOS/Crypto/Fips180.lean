import Mathlib.Analysis.SpecialFunctions.Pow.NthRootLemmas
import GenOS.Lib.Blocks
import GenOS.Crypto.Sha256

/-!
# SHA-256 as FIPS 180-4 states it

The message schedule is a recursion, a rotation is a rotation, the constants are bits of roots of
primes, and the digest of a message is a fold of the compression function over the blocks of the
padded message.
-/

namespace GenOS.Fips180

open Blocks

/-! ## Functions and constants -/

def bigSigma0 (x : BitVec 32) : BitVec 32 :=
  x.rotateRight 2 ^^^ x.rotateRight 13 ^^^ x.rotateRight 22

def bigSigma1 (x : BitVec 32) : BitVec 32 :=
  x.rotateRight 6 ^^^ x.rotateRight 11 ^^^ x.rotateRight 25

def smallSigma0 (x : BitVec 32) : BitVec 32 := x.rotateRight 7 ^^^ x.rotateRight 18 ^^^ x >>> 3

def smallSigma1 (x : BitVec 32) : BitVec 32 := x.rotateRight 17 ^^^ x.rotateRight 19 ^^^ x >>> 10

def ch (x y z : BitVec 32) : BitVec 32 := (x &&& y) ^^^ (~~~x &&& z)

def maj (x y z : BitVec 32) : BitVec 32 := (x &&& y) ^^^ (x &&& z) ^^^ (y &&& z)

/-- The first 32 bits of the fractional part of the root of `p` of degree `r`. -/
def rootBits (r p : Nat) : BitVec 32 := BitVec.ofNat 32 (Nat.nthRoot r (p * 2 ^ (32 * r)))

/-- The first 64 primes. -/
def primes : List Nat := [
  2, 3, 5, 7, 11, 13, 17, 19, 23, 29, 31, 37, 41, 43, 47, 53, 59, 61, 67, 71, 73, 79, 83, 89, 97,
  101, 103, 107, 109, 113, 127, 131, 137, 139, 149, 151, 157, 163, 167, 173, 179, 181, 191, 193,
  197, 199, 211, 223, 227, 229, 233, 239, 241, 251, 257, 263, 269, 271, 277, 281, 283, 293, 307,
  311]

/-- The constant of a round. -/
def constant (t : Nat) : BitVec 32 := rootBits 3 (primes.getD t 0)

/-- The initial hash value. -/
def initial : Sha256Words where
  a := rootBits 2 2
  b := rootBits 2 3
  c := rootBits 2 5
  d := rootBits 2 7
  e := rootBits 2 11
  f := rootBits 2 13
  g := rootBits 2 17
  h := rootBits 2 19

/-! ## Compression -/

/-- The words of a block, each of four bytes. -/
def messageWord (block : List (BitVec 8)) (t : Nat) : BitVec 32 :=
  block.getD (4 * t) 0 ++ block.getD (4 * t + 1) 0 ++ block.getD (4 * t + 2) 0 ++
    block.getD (4 * t + 3) 0

/-- The message schedule. -/
def schedule (m : Nat → BitVec 32) (t : Nat) : BitVec 32 :=
  if t < 16 then m t
  else smallSigma1 (schedule m (t - 2)) + schedule m (t - 7) + smallSigma0 (schedule m (t - 15)) +
    schedule m (t - 16)
termination_by t

def round (w : Nat → BitVec 32) (v : Sha256Words) (t : Nat) : Sha256Words :=
  let t1 := v.h + bigSigma1 v.e + ch v.e v.f v.g + constant t + w t
  let t2 := bigSigma0 v.a + maj v.a v.b v.c
  { a := t1 + t2, b := v.a, c := v.b, d := v.c, e := v.d + t1, f := v.e, g := v.f, h := v.g }

def compress (s : Sha256Words) (block : List (BitVec 8)) : Sha256Words :=
  let v := (List.range 64).foldl (round (schedule (messageWord block))) s
  { a := s.a + v.a, b := s.b + v.b, c := s.c + v.c, d := s.d + v.d,
    e := s.e + v.e, f := s.f + v.f, g := s.g + v.g, h := s.h + v.h }

/-! ## Padding and digest -/

/-- The number of zero bytes after `0x80`: the least with which eight more bytes end a block. -/
def zeros (len : Nat) : Nat := (119 - len % 64) % 64

/-- The eight bytes of a bit length, the highest first. -/
def lengthBytes (bits : Nat) : List (BitVec 8) :=
  (List.range 8).map fun i => BitVec.ofNat 8 (bits / 256 ^ (7 - i))

def pad (m : List (BitVec 8)) : List (BitVec 8) :=
  m ++ [0x80] ++ List.replicate (zeros m.length) 0 ++ lengthBytes (8 * m.length)

/-- The four bytes of a word, the highest first. -/
def bytes (x : BitVec 32) : List (BitVec 8) :=
  (List.range 4).map fun i => x.extractLsb' (24 - 8 * i) 8

def digest (s : Sha256Words) : List (BitVec 8) :=
  [s.a, s.b, s.c, s.d, s.e, s.f, s.g, s.h].flatMap bytes

def sha256 (m : List (BitVec 8)) : List (BitVec 8) :=
  digest ((blocks 64 (pad m)).foldl compress initial)

/-! ## The constants -/

/-- The bits below the integer part `q`. -/
theorem rootBits_eq {r p q : Nat} {k : BitVec 32}
    (h1 : (q * 2 ^ 32 + k.toNat) ^ r ≤ p * 2 ^ (32 * r))
    (h2 : p * 2 ^ (32 * r) < (q * 2 ^ 32 + k.toNat + 1) ^ r) : rootBits r p = k := by
  apply BitVec.eq_of_toNat_eq
  rw [rootBits, Nat.nthRoot_eq_of_le_of_lt h1 h2, BitVec.toNat_ofNat, Nat.mul_add_mod_self_right,
    Nat.mod_eq_of_lt k.isLt]

/-- The table is the constants. -/
theorem constant_eq : ∀ i < 64, constant i = sha256K i := by
  have h : ∀ i < 64, ∃ q < 7,
      (q * 2 ^ 32 + (sha256K i).toNat) ^ 3 ≤ primes.getD i 0 * 2 ^ (32 * 3) ∧
      primes.getD i 0 * 2 ^ (32 * 3) < (q * 2 ^ 32 + (sha256K i).toNat + 1) ^ 3 := by
    decide
  intro i hi
  obtain ⟨q, -, h1, h2⟩ := h i hi
  exact rootBits_eq h1 h2

/-- `sha256_init` sets the initial hash value. -/
theorem init_state (ctx : Sha256Ctx) : (sha256Init ctx).state = initial := by
  have h {p q : Nat} {k : BitVec 32}
      (h : (q * 2 ^ 32 + k.toNat) ^ 2 ≤ p * 2 ^ (32 * 2) ∧
        p * 2 ^ (32 * 2) < (q * 2 ^ 32 + k.toNat + 1) ^ 2) : rootBits 2 p = k :=
    rootBits_eq h.1 h.2
  unfold initial
  rw [h (q := 1) (k := 0x6a09e667) (by decide), h (q := 1) (k := 0xbb67ae85) (by decide),
    h (q := 2) (k := 0x3c6ef372) (by decide), h (q := 2) (k := 0xa54ff53a) (by decide),
    h (q := 3) (k := 0x510e527f) (by decide), h (q := 3) (k := 0x9b05688c) (by decide),
    h (q := 4) (k := 0x1f83d9ab) (by decide), h (q := 4) (k := 0x5be0cd19) (by decide)]
  rfl

/-- The bytes that `sha256_final` stores. -/
theorem digest_eq (s : Sha256Words) : s.digest = digest s := by
  unfold Sha256Words.digest
  rfl

/-! ## The padding -/

theorem length_lengthBytes (bits : Nat) : (lengthBytes bits).length = 8 := by
  unfold lengthBytes
  rw [List.length_map, List.length_range]

theorem blocks_pad (m : List (BitVec 8)) :
    blocks 64 (pad m) = blocks 64 m ++ blocks 64 (rest 64 m ++ [0x80] ++
      List.replicate (zeros m.length) 0 ++ lengthBytes (8 * m.length)) := by
  unfold pad
  rw [List.append_assoc, List.append_assoc, blocks_append (by decide), ← List.append_assoc,
    ← List.append_assoc]

/-- The length fits the block of the marker. -/
theorem blocks_pad_of_lt {m : List (BitVec 8)} (h : m.length % 64 < 56) :
    blocks 64 (pad m) = blocks 64 m ++ [rest 64 m ++ [0x80] ++
      List.replicate (56 - (m.length % 64 + 1)) 0 ++ lengthBytes (8 * m.length)] := by
  have hz : zeros m.length = 56 - (m.length % 64 + 1) := by
    unfold zeros
    omega
  have hlast : (rest 64 m ++ [0x80] ++ List.replicate (56 - (m.length % 64 + 1)) 0 ++
      lengthBytes (8 * m.length)).length = 64 := by
    rw [List.length_append, List.length_append, List.length_append, length_rest,
      List.length_singleton, List.length_replicate, length_lengthBytes]
    omega
  rw [blocks_pad, hz, blocks_of_eq (by decide) hlast]

/-- The length takes a block of its own. -/
theorem blocks_pad_of_ge {m : List (BitVec 8)} (h : 56 ≤ m.length % 64) :
    blocks 64 (pad m) = blocks 64 m ++ [rest 64 m ++ [0x80] ++
        List.replicate (64 - (m.length % 64 + 1)) 0,
      [] ++ List.replicate (56 - 0) 0 ++ lengthBytes (8 * m.length)] := by
  have hz : List.replicate (zeros m.length) (0 : BitVec 8) =
      List.replicate (64 - (m.length % 64 + 1)) 0 ++ List.replicate 56 0 := by
    rw [List.replicate_append_replicate]
    unfold zeros
    congr 1
    omega
  have hfirst : (rest 64 m ++ [0x80] ++
      List.replicate (64 - (m.length % 64 + 1)) 0).length = 64 := by
    rw [List.length_append, List.length_append, length_rest, List.length_singleton,
      List.length_replicate]
    omega
  have hrest : rest 64 (rest 64 m ++ [0x80] ++
      List.replicate (64 - (m.length % 64 + 1)) 0) = [] := by
    apply List.eq_nil_of_length_eq_zero
    rw [length_rest, hfirst]
  have hlast : (List.replicate 56 (0 : BitVec 8) ++ lengthBytes (8 * m.length)).length = 64 := by
    rw [List.length_append, List.length_replicate, length_lengthBytes]
  rw [blocks_pad, hz, ← List.append_assoc, List.append_assoc _ (List.replicate 56 0),
    blocks_append (by decide), blocks_of_eq (by decide) hfirst, hrest, List.nil_append,
    blocks_of_eq (by decide) hlast]
  rfl

end GenOS.Fips180
