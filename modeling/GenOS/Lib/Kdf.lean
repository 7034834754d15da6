import Mathlib.Data.BitVec

/-!
# Keyed hashing and key derivation

HMAC as RFC 2104 states it, for a hash `H` with blocks of `B` bytes, and the blocks of PBKDF2 as
RFC 8018 states them, for a pseudorandom function.
-/

namespace Kdf

abbrev Byte : Type := BitVec 8

/-- `K'`: a key longer than a block is hashed, and zeros fill the block. -/
def blockKey (H : List Byte → List Byte) (B : Nat) (key : List Byte) : List Byte :=
  let k := if B < key.length then H key else key
  k ++ List.replicate (B - k.length) 0

/-- `H((K' xor opad) || H((K' xor ipad) || m))`. -/
def hmac (H : List Byte → List Byte) (B : Nat) (key m : List Byte) : List Byte :=
  H ((blockKey H B key).map (· ^^^ 0x5c) ++ H ((blockKey H B key).map (· ^^^ 0x36) ++ m))

def xorBytes (a b : List Byte) : List Byte := List.zipWith (· ^^^ ·) a b

/-- `U_1` is the function of `s`, and each further one is that of the one before: `U_(n+1)`. -/
def chain (prf : List Byte → List Byte) (s : List Byte) : Nat → List Byte
  | 0 => prf s
  | n + 1 => prf (chain prf s n)

/-- `U_1 xor ... xor U_(n+1)`. -/
def xorChain (prf : List Byte → List Byte) (s : List Byte) : Nat → List Byte
  | 0 => chain prf s 0
  | n + 1 => xorBytes (xorChain prf s n) (chain prf s (n + 1))

/-- `INT (i)`: the four bytes of a block index, the highest first. -/
def blockIndex (i : BitVec 32) : List Byte :=
  [(i >>> 24).setWidth 8, (i >>> 16).setWidth 8, (i >>> 8).setWidth 8, i.setWidth 8]

/-- `T_i`: the block of index `i` with `c` iterations. -/
def block (prf : List Byte → List Byte) (salt : List Byte) (c : Nat) (i : BitVec 32) : List Byte :=
  xorChain prf (salt ++ blockIndex i) (c - 1)

variable {H : List Byte → List Byte} {B : Nat} {prf : List Byte → List Byte}

/-- A padded key, byte by byte. -/
theorem map_xor_blockKey (H : List Byte → List Byte) (B : Nat) (key : List Byte) (x : Byte) :
    (blockKey H B key).map (· ^^^ x) =
      (if B < key.length then H key else key).map (· ^^^ x) ++
        List.replicate (B - (if B < key.length then H key else key).length) x := by
  rw [blockKey, List.map_append, List.map_replicate,
    show (0 : Byte) ^^^ x = x from BitVec.zero_xor ..]

theorem length_xorBytes (a b : List Byte) : (xorBytes a b).length = min a.length b.length :=
  List.length_zipWith ..

theorem getElem_xorBytes {a b : List Byte} {i : Nat} (h : i < (xorBytes a b).length)
    (ha : i < a.length) (hb : i < b.length) : (xorBytes a b)[i] = a[i] ^^^ b[i] :=
  List.getElem_zipWith ..

end Kdf
