import Mathlib.Data.BitVec
import Mathlib.Data.Fin.VecNotation
import GenOS.Lib.CInt

/-!
# AES-256-CBC

`crypto/aes.c`. A loop over the 16 bytes of a block builds them all, the round keys are the list of
the bytes generated so far, and an output buffer is the list of the bytes written to it from its
start. Input and output do not overlap.
-/

namespace GenOS

/-! ## Tables -/

def sboxTable : List (BitVec 8) := [
  0x63, 0x7c, 0x77, 0x7b, 0xf2, 0x6b, 0x6f, 0xc5, 0x30, 0x01, 0x67, 0x2b, 0xfe, 0xd7, 0xab, 0x76,
  0xca, 0x82, 0xc9, 0x7d, 0xfa, 0x59, 0x47, 0xf0, 0xad, 0xd4, 0xa2, 0xaf, 0x9c, 0xa4, 0x72, 0xc0,
  0xb7, 0xfd, 0x93, 0x26, 0x36, 0x3f, 0xf7, 0xcc, 0x34, 0xa5, 0xe5, 0xf1, 0x71, 0xd8, 0x31, 0x15,
  0x04, 0xc7, 0x23, 0xc3, 0x18, 0x96, 0x05, 0x9a, 0x07, 0x12, 0x80, 0xe2, 0xeb, 0x27, 0xb2, 0x75,
  0x09, 0x83, 0x2c, 0x1a, 0x1b, 0x6e, 0x5a, 0xa0, 0x52, 0x3b, 0xd6, 0xb3, 0x29, 0xe3, 0x2f, 0x84,
  0x53, 0xd1, 0x00, 0xed, 0x20, 0xfc, 0xb1, 0x5b, 0x6a, 0xcb, 0xbe, 0x39, 0x4a, 0x4c, 0x58, 0xcf,
  0xd0, 0xef, 0xaa, 0xfb, 0x43, 0x4d, 0x33, 0x85, 0x45, 0xf9, 0x02, 0x7f, 0x50, 0x3c, 0x9f, 0xa8,
  0x51, 0xa3, 0x40, 0x8f, 0x92, 0x9d, 0x38, 0xf5, 0xbc, 0xb6, 0xda, 0x21, 0x10, 0xff, 0xf3, 0xd2,
  0xcd, 0x0c, 0x13, 0xec, 0x5f, 0x97, 0x44, 0x17, 0xc4, 0xa7, 0x7e, 0x3d, 0x64, 0x5d, 0x19, 0x73,
  0x60, 0x81, 0x4f, 0xdc, 0x22, 0x2a, 0x90, 0x88, 0x46, 0xee, 0xb8, 0x14, 0xde, 0x5e, 0x0b, 0xdb,
  0xe0, 0x32, 0x3a, 0x0a, 0x49, 0x06, 0x24, 0x5c, 0xc2, 0xd3, 0xac, 0x62, 0x91, 0x95, 0xe4, 0x79,
  0xe7, 0xc8, 0x37, 0x6d, 0x8d, 0xd5, 0x4e, 0xa9, 0x6c, 0x56, 0xf4, 0xea, 0x65, 0x7a, 0xae, 0x08,
  0xba, 0x78, 0x25, 0x2e, 0x1c, 0xa6, 0xb4, 0xc6, 0xe8, 0xdd, 0x74, 0x1f, 0x4b, 0xbd, 0x8b, 0x8a,
  0x70, 0x3e, 0xb5, 0x66, 0x48, 0x03, 0xf6, 0x0e, 0x61, 0x35, 0x57, 0xb9, 0x86, 0xc1, 0x1d, 0x9e,
  0xe1, 0xf8, 0x98, 0x11, 0x69, 0xd9, 0x8e, 0x94, 0x9b, 0x1e, 0x87, 0xe9, 0xce, 0x55, 0x28, 0xdf,
  0x8c, 0xa1, 0x89, 0x0d, 0xbf, 0xe6, 0x42, 0x68, 0x41, 0x99, 0x2d, 0x0f, 0xb0, 0x54, 0xbb, 0x16]

def invSboxTable : List (BitVec 8) := [
  0x52, 0x09, 0x6a, 0xd5, 0x30, 0x36, 0xa5, 0x38, 0xbf, 0x40, 0xa3, 0x9e, 0x81, 0xf3, 0xd7, 0xfb,
  0x7c, 0xe3, 0x39, 0x82, 0x9b, 0x2f, 0xff, 0x87, 0x34, 0x8e, 0x43, 0x44, 0xc4, 0xde, 0xe9, 0xcb,
  0x54, 0x7b, 0x94, 0x32, 0xa6, 0xc2, 0x23, 0x3d, 0xee, 0x4c, 0x95, 0x0b, 0x42, 0xfa, 0xc3, 0x4e,
  0x08, 0x2e, 0xa1, 0x66, 0x28, 0xd9, 0x24, 0xb2, 0x76, 0x5b, 0xa2, 0x49, 0x6d, 0x8b, 0xd1, 0x25,
  0x72, 0xf8, 0xf6, 0x64, 0x86, 0x68, 0x98, 0x16, 0xd4, 0xa4, 0x5c, 0xcc, 0x5d, 0x65, 0xb6, 0x92,
  0x6c, 0x70, 0x48, 0x50, 0xfd, 0xed, 0xb9, 0xda, 0x5e, 0x15, 0x46, 0x57, 0xa7, 0x8d, 0x9d, 0x84,
  0x90, 0xd8, 0xab, 0x00, 0x8c, 0xbc, 0xd3, 0x0a, 0xf7, 0xe4, 0x58, 0x05, 0xb8, 0xb3, 0x45, 0x06,
  0xd0, 0x2c, 0x1e, 0x8f, 0xca, 0x3f, 0x0f, 0x02, 0xc1, 0xaf, 0xbd, 0x03, 0x01, 0x13, 0x8a, 0x6b,
  0x3a, 0x91, 0x11, 0x41, 0x4f, 0x67, 0xdc, 0xea, 0x97, 0xf2, 0xcf, 0xce, 0xf0, 0xb4, 0xe6, 0x73,
  0x96, 0xac, 0x74, 0x22, 0xe7, 0xad, 0x35, 0x85, 0xe2, 0xf9, 0x37, 0xe8, 0x1c, 0x75, 0xdf, 0x6e,
  0x47, 0xf1, 0x1a, 0x71, 0x1d, 0x29, 0xc5, 0x89, 0x6f, 0xb7, 0x62, 0x0e, 0xaa, 0x18, 0xbe, 0x1b,
  0xfc, 0x56, 0x3e, 0x4b, 0xc6, 0xd2, 0x79, 0x20, 0x9a, 0xdb, 0xc0, 0xfe, 0x78, 0xcd, 0x5a, 0xf4,
  0x1f, 0xdd, 0xa8, 0x33, 0x88, 0x07, 0xc7, 0x31, 0xb1, 0x12, 0x10, 0x59, 0x27, 0x80, 0xec, 0x5f,
  0x60, 0x51, 0x7f, 0xa9, 0x19, 0xb5, 0x4a, 0x0d, 0x2d, 0xe5, 0x7a, 0x9f, 0x93, 0xc9, 0x9c, 0xef,
  0xa0, 0xe0, 0x3b, 0x4d, 0xae, 0x2a, 0xf5, 0xb0, 0xc8, 0xeb, 0xbb, 0x3c, 0x83, 0x53, 0x99, 0x61,
  0x17, 0x2b, 0x04, 0x7e, 0xba, 0x77, 0xd6, 0x26, 0xe1, 0x69, 0x14, 0x63, 0x55, 0x21, 0x0c, 0x7d]

/-- `sbox[x]`. -/
def sbox (x : BitVec 8) : BitVec 8 := sboxTable.getD x.toNat 0

/-- `inv_sbox[x]`. -/
def invSbox (x : BitVec 8) : BitVec 8 := invSboxTable.getD x.toNat 0

/-- `rcon`. -/
def rcon : List (BitVec 8) := [0x01, 0x02, 0x04, 0x08, 0x10, 0x20, 0x40, 0x80, 0x1b, 0x36]

/-! ## Multiplication -/

def xtime (x : BitVec 8) : BitVec 8 := x <<< 1 ^^^ (x >>> 7 &&& 1) * 0x1b

/-- The loop of `gf_mul`: `n` turns. -/
def gfMulLoop : (n : Nat) → (a b p : BitVec 8) → BitVec 8
  | 0, _, _, p => p
  | n + 1, a, b, p =>
    let p := if b &&& 1 = 0 then p else p ^^^ a
    let hi := a &&& 0x80
    let a := a <<< 1
    let a := if hi = 0 then a else a ^^^ 0x1b
    gfMulLoop n a (b >>> 1) p

/-- `gf_mul`. -/
def gfMul (a b : BitVec 8) : BitVec 8 := gfMulLoop 8 a b 0

/-! ## Keys -/

/-- `uint8_t key[32]`. -/
abbrev AesKey : Type := Vector (BitVec 8) 32

/-- The four bytes `tmp` before the last loop of a turn, and `rcon_idx`. -/
def keyWord (rk : List (BitVec 8)) (rconIdx : Nat) : (Fin 4 → BitVec 8) × Nat :=
  let n := rk.length
  let tmp := fun i : Fin 4 => rk.getD (n - 4 + i) 0
  if n % 32 = 0 then
    (![sbox (tmp 1) ^^^ rcon.getD rconIdx 0, sbox (tmp 2), sbox (tmp 3), sbox (tmp 0)],
      rconIdx + 1)
  else if n % 32 = 16 then (fun i => sbox (tmp i), rconIdx)
  else (tmp, rconIdx)

/-- `while (bytes_generated < 240)`. -/
def keyExpansionLoop (rk : List (BitVec 8)) (rconIdx : Nat) : List (BitVec 8) :=
  if rk.length < 240 then
    let r := keyWord rk rconIdx
    keyExpansionLoop (rk ++ List.ofFn fun i : Fin 4 => rk.getD (rk.length - 32 + i) 0 ^^^ r.1 i) r.2
  else rk
termination_by 240 - rk.length
decreasing_by
  rw [List.length_append, List.length_ofFn]
  omega

/-- `key_expansion`. -/
def keyExpansion (key : AesKey) : List (BitVec 8) := keyExpansionLoop key.toList 0

/-! ## The steps of a round -/

/-- `uint8_t state[16]`. -/
abbrev AesState : Type := Vector (BitVec 8) 16

/-- `add_round_key(state, rk + r * 16)`. -/
def addRoundKey (rk : List (BitVec 8)) (r : Nat) (s : AesState) : AesState :=
  Vector.ofFn fun i => s[i] ^^^ rk.getD (r * 16 + i) 0

/-- `sub_bytes`. -/
def subBytes (s : AesState) : AesState := Vector.ofFn fun i => sbox s[i]

/-- `inv_sub_bytes`. -/
def invSubBytes (s : AesState) : AesState := Vector.ofFn fun i => invSbox s[i]

/-- `shift_rows`. -/
def shiftRows (s : AesState) : AesState :=
  let t := s[1]
  let s := s.set 1 s[5]
  let s := s.set 5 s[9]
  let s := s.set 9 s[13]
  let s := s.set 13 t
  let t := s[2]
  let s := s.set 2 s[10]
  let s := s.set 10 t
  let t := s[6]
  let s := s.set 6 s[14]
  let s := s.set 14 t
  let t := s[15]
  let s := s.set 15 s[11]
  let s := s.set 11 s[7]
  let s := s.set 7 s[3]
  s.set 3 t

/-- `inv_shift_rows`. -/
def invShiftRows (s : AesState) : AesState :=
  let t := s[13]
  let s := s.set 13 s[9]
  let s := s.set 9 s[5]
  let s := s.set 5 s[1]
  let s := s.set 1 t
  let t := s[2]
  let s := s.set 2 s[10]
  let s := s.set 10 t
  let t := s[6]
  let s := s.set 6 s[14]
  let s := s.set 14 t
  let t := s[3]
  let s := s.set 3 s[7]
  let s := s.set 7 s[11]
  let s := s.set 11 s[15]
  s.set 15 t

/-- The four bytes of a column. -/
abbrev Column : Type := Fin 4 → BitVec 8

/-- A step on the bytes of a column, as a map of columns. -/
def onColumn (f : (a0 a1 a2 a3 : BitVec 8) → Column) (v : Column) : Column :=
  f (v 0) (v 1) (v 2) (v 3)

/-- A column that becomes `f a0 a1 a2 a3`, for each of the four columns. -/
def mapColumns (f : (a0 a1 a2 a3 : BitVec 8) → Fin 4 → BitVec 8) (s : AesState) : AesState :=
  Vector.ofFn fun k =>
    let i := k.val / 4 * 4
    f s[i] s[i + 1] s[i + 2] s[i + 3] (Fin.ofNat 4 k.val)

/-- The new bytes of a column in `mix_columns`. -/
def mixColumn (a0 a1 a2 a3 : BitVec 8) : Fin 4 → BitVec 8 :=
  ![xtime a0 ^^^ xtime a1 ^^^ a1 ^^^ a2 ^^^ a3,
    a0 ^^^ xtime a1 ^^^ xtime a2 ^^^ a2 ^^^ a3,
    a0 ^^^ a1 ^^^ xtime a2 ^^^ xtime a3 ^^^ a3,
    xtime a0 ^^^ a0 ^^^ a1 ^^^ a2 ^^^ xtime a3]

/-- The new bytes of a column in `inv_mix_columns`. -/
def invMixColumn (a0 a1 a2 a3 : BitVec 8) : Fin 4 → BitVec 8 :=
  ![gfMul a0 0x0e ^^^ gfMul a1 0x0b ^^^ gfMul a2 0x0d ^^^ gfMul a3 0x09,
    gfMul a0 0x09 ^^^ gfMul a1 0x0e ^^^ gfMul a2 0x0b ^^^ gfMul a3 0x0d,
    gfMul a0 0x0d ^^^ gfMul a1 0x09 ^^^ gfMul a2 0x0e ^^^ gfMul a3 0x0b,
    gfMul a0 0x0b ^^^ gfMul a1 0x0d ^^^ gfMul a2 0x09 ^^^ gfMul a3 0x0e]

/-- `mix_columns`. -/
def mixColumns : AesState → AesState := mapColumns mixColumn

/-- `inv_mix_columns`. -/
def invMixColumns : AesState → AesState := mapColumns invMixColumn

/-! ## Blocks -/

/-- A turn of the loop of `aes256_encrypt_block`. -/
def encryptRound (rk : List (BitVec 8)) (s : AesState) (r : Nat) : AesState :=
  addRoundKey rk r (mixColumns (shiftRows (subBytes s)))

/-- A turn of the loop of `aes256_decrypt_block`. -/
def decryptRound (rk : List (BitVec 8)) (s : AesState) (r : Nat) : AesState :=
  invMixColumns (addRoundKey rk r (invSubBytes (invShiftRows s)))

/-- The rounds 1 to 13. -/
def innerRounds : List Nat := List.range' 1 13

/-- `aes256_encrypt_block`. -/
def aes256EncryptBlock (key : AesKey) (input : AesState) : AesState :=
  let rk := keyExpansion key
  let s := addRoundKey rk 0 input
  let s := innerRounds.foldl (encryptRound rk) s
  addRoundKey rk 14 (shiftRows (subBytes s))

/-- `aes256_decrypt_block`. -/
def aes256DecryptBlock (key : AesKey) (input : AesState) : AesState :=
  let rk := keyExpansion key
  let s := addRoundKey rk 14 input
  let s := innerRounds.reverse.foldl (decryptRound rk) s
  addRoundKey rk 0 (invSubBytes (invShiftRows s))

/-! ## Chaining -/

/-- The 16 bytes at `p + offset`. -/
def blockAt (p : List (BitVec 8)) (offset : Nat) : AesState :=
  Vector.ofFn fun i => p.getD (offset + i) 0

/-- `block[i] ^= prev[i]`. -/
def xorBlock (b prev : AesState) : AesState := Vector.ofFn fun i => b[i] ^^^ prev[i]

/-- `block` of a turn of `aes256_cbc_encrypt`, with its padding. -/
def paddedBlock (pt : List (BitVec 8)) (paddedLen offset : Nat) : AesState :=
  Vector.ofFn fun i =>
    let idx := offset + i
    if idx < pt.length then pt.getD idx 0 else BitVec.ofNat 8 (paddedLen - pt.length)

/-- `while (offset < padded_len)`. -/
def cbcEncryptLoop (key : AesKey) (pt : List (BitVec 8)) (paddedLen offset : Nat)
    (prev : AesState) (ct : List (BitVec 8)) : List (BitVec 8) :=
  if offset < paddedLen then
    let c := aes256EncryptBlock key (xorBlock (paddedBlock pt paddedLen offset) prev)
    cbcEncryptLoop key pt paddedLen (offset + 16) c (ct ++ c.toList)
  else ct
termination_by paddedLen - offset

/-- `padded_len`. -/
def paddedLength (ptLen : Nat) : Nat := (ptLen / 16 + 1) * 16 % 18446744073709551616

/-- `aes256_cbc_encrypt`: what it returns, and what it writes. -/
def aes256CbcEncrypt (key : AesKey) (iv : AesState) (pt : List (BitVec 8)) (outMax : Nat) :
    Int × List (BitVec 8) :=
  let paddedLen := paddedLength pt.length
  if outMax < paddedLen then (-1, [])
  else (toInt32 (paddedLen % 4294967296), cbcEncryptLoop key pt paddedLen 0 iv [])

/-- `for (offset = 0; offset < ct_len; offset += 16)`. -/
def cbcDecryptLoop (key : AesKey) (ct : List (BitVec 8)) (offset : Nat) (prev : AesState)
    (pt : List (BitVec 8)) : List (BitVec 8) :=
  if offset < ct.length then
    let block := xorBlock (aes256DecryptBlock key (blockAt ct offset)) prev
    cbcDecryptLoop key ct (offset + 16) (blockAt ct offset) (pt ++ block.toList)
  else pt
termination_by ct.length - offset

/-- The last `n` bytes of the `len` bytes at `pt` are all `padVal`. -/
def checkPadding (pt : List (BitVec 8)) (len : Nat) (padVal : BitVec 8) (n : Nat) : Bool :=
  (List.range n).all fun i => pt.getD (len - 1 - i) 0 == padVal

/-- `aes256_cbc_decrypt`: what it returns, and what it writes. -/
def aes256CbcDecrypt (key : AesKey) (iv : AesState) (ct : List (BitVec 8)) (outMax : Nat) :
    Int × List (BitVec 8) :=
  if ct.length = 0 ∨ ct.length % 16 ≠ 0 then (-1, [])
  else if outMax < ct.length then (-1, [])
  else
    let pt := cbcDecryptLoop key ct 0 iv []
    let padVal := pt.getD (ct.length - 1) 0
    if padVal = 0 ∨ 16 < padVal.toNat then (-1, pt)
    else if checkPadding pt ct.length padVal padVal.toNat then
      (toInt32 ((ct.length - padVal.toNat) % 4294967296), pt)
    else (-1, pt)

end GenOS
