import Mathlib.Data.BitVec
import Mathlib.Logic.Function.Basic

/-!
# SHA-256

`crypto/sha256.c`, and the hash system call of `cpu/syscall_crypto.c`. A buffer is a function from
its indices, and the `len` bytes at a pointer are a list: `p += n` drops its first bytes.
-/

namespace GenOS

/-! ## The compression function -/

/-- `K`. -/
def sha256Table : List (BitVec 32) := [
  0x428a2f98, 0x71374491, 0xb5c0fbcf, 0xe9b5dba5,
  0x3956c25b, 0x59f111f1, 0x923f82a4, 0xab1c5ed5,
  0xd807aa98, 0x12835b01, 0x243185be, 0x550c7dc3,
  0x72be5d74, 0x80deb1fe, 0x9bdc06a7, 0xc19bf174,
  0xe49b69c1, 0xefbe4786, 0x0fc19dc6, 0x240ca1cc,
  0x2de92c6f, 0x4a7484aa, 0x5cb0a9dc, 0x76f988da,
  0x983e5152, 0xa831c66d, 0xb00327c8, 0xbf597fc7,
  0xc6e00bf3, 0xd5a79147, 0x06ca6351, 0x14292967,
  0x27b70a85, 0x2e1b2138, 0x4d2c6dfc, 0x53380d13,
  0x650a7354, 0x766a0abb, 0x81c2c92e, 0x92722c85,
  0xa2bfe8a1, 0xa81a664b, 0xc24b8b70, 0xc76c51a3,
  0xd192e819, 0xd6990624, 0xf40e3585, 0x106aa070,
  0x19a4c116, 0x1e376c08, 0x2748774c, 0x34b0bcb5,
  0x391c0cb3, 0x4ed8aa4a, 0x5b9cca4f, 0x682e6ff3,
  0x748f82ee, 0x78a5636f, 0x84c87814, 0x8cc70208,
  0x90befffa, 0xa4506ceb, 0xbef9a3f7, 0xc67178f2]

/-- `K[i]`. -/
def sha256K (i : Nat) : BitVec 32 := sha256Table.getD i 0

/-- `ROTR`. -/
def rotr (x : BitVec 32) (n : Nat) : BitVec 32 := x >>> n ||| x <<< (32 - n)

/-- `CH`. -/
def ch (x y z : BitVec 32) : BitVec 32 := (x &&& y) ^^^ (~~~x &&& z)

/-- `MAJ`. -/
def maj (x y z : BitVec 32) : BitVec 32 := (x &&& y) ^^^ (x &&& z) ^^^ (y &&& z)

/-- `EP0`. -/
def ep0 (x : BitVec 32) : BitVec 32 := rotr x 2 ^^^ rotr x 13 ^^^ rotr x 22

/-- `EP1`. -/
def ep1 (x : BitVec 32) : BitVec 32 := rotr x 6 ^^^ rotr x 11 ^^^ rotr x 25

/-- `SIG0`. -/
def sig0 (x : BitVec 32) : BitVec 32 := rotr x 7 ^^^ rotr x 18 ^^^ x >>> 3

/-- `SIG1`. -/
def sig1 (x : BitVec 32) : BitVec 32 := rotr x 17 ^^^ rotr x 19 ^^^ x >>> 10

/-- The words `state[0]` to `state[7]`, or the working variables `a` to `h`. -/
structure Sha256Words where
  a : BitVec 32
  b : BitVec 32
  c : BitVec 32
  d : BitVec 32
  e : BitVec 32
  f : BitVec 32
  g : BitVec 32
  h : BitVec 32
  deriving DecidableEq

/-- `W[i]` of the first loop. -/
def blockWord (block : Nat → BitVec 8) (i : Nat) : BitVec 32 :=
  (block (i * 4)).setWidth 32 <<< 24 ||| (block (i * 4 + 1)).setWidth 32 <<< 16 |||
    (block (i * 4 + 2)).setWidth 32 <<< 8 ||| (block (i * 4 + 3)).setWidth 32

/-- The second loop, from `i = 16` on: `n` turns. -/
def extendWords : (n : Nat) → List (BitVec 32) → List (BitVec 32)
  | 0, w => w
  | n + 1, w =>
    let w := extendWords n w
    let i := 16 + n
    w ++ [sig1 (w.getD (i - 2) 0) + w.getD (i - 7) 0 + sig0 (w.getD (i - 15) 0) + w.getD (i - 16) 0]

/-- A turn of the third loop. -/
def sha256Round (w : List (BitVec 32)) (v : Sha256Words) (i : Nat) : Sha256Words :=
  let t1 := v.h + ep1 v.e + ch v.e v.f v.g + sha256K i + w.getD i 0
  let t2 := ep0 v.a + maj v.a v.b v.c
  { h := v.g, g := v.f, f := v.e, e := v.d + t1, d := v.c, c := v.b, b := v.a, a := t1 + t2 }

/-- `sha256_transform`; the array `W` is the list of the words set so far. -/
def sha256Transform (state : Sha256Words) (block : Nat → BitVec 8) : Sha256Words :=
  let w := extendWords 48 ((List.range 16).map (blockWord block))
  let v := (List.range 64).foldl (sha256Round w) state
  { a := state.a + v.a, b := state.b + v.b, c := state.c + v.c, d := state.d + v.d,
    e := state.e + v.e, f := state.f + v.f, g := state.g + v.g, h := state.h + v.h }

/-! ## The context -/

/-- `sha256_ctx_t`. -/
structure Sha256Ctx where
  state : Sha256Words
  bitcount : BitVec 64
  buffer : Nat → BitVec 8
  buflen : Nat

/-- `sha256_init`; the buffer stays as it is. -/
def sha256Init (ctx : Sha256Ctx) : Sha256Ctx :=
  { ctx with
    state := { a := 0x6a09e667, b := 0xbb67ae85, c := 0x3c6ef372, d := 0xa54ff53a,
               e := 0x510e527f, f := 0x9b05688c, g := 0x1f83d9ab, h := 0x5be0cd19 }
    bitcount := 0
    buflen := 0 }

/-- `for (i = 0; i < n; i++) buffer[start + i] = p[i];` -/
def fillBuffer (buffer : Nat → BitVec 8) (start : Nat) (p : List (BitVec 8)) :
    (n : Nat) → Nat → BitVec 8
  | 0 => buffer
  | n + 1 => Function.update (fillBuffer buffer start p n) (start + n) (p.getD n 0)

/-- `while (len >= 64)`. -/
def transformBlocks (state : Sha256Words) (p : List (BitVec 8)) :
    Sha256Words × List (BitVec 8) :=
  if 64 ≤ p.length then
    transformBlocks (sha256Transform state fun i => p.getD i 0) (p.drop 64)
  else (state, p)
termination_by p.length
decreasing_by
  rw [List.length_drop]
  omega

/-- The part of `sha256_update` after the buffered block. -/
def updateBlocks (ctx : Sha256Ctx) (p : List (BitVec 8)) : Sha256Ctx :=
  let r := transformBlocks ctx.state p
  { ctx with
    state := r.1, buffer := fillBuffer ctx.buffer 0 r.2 r.2.length, buflen := r.2.length }

/-- `sha256_update`. -/
def sha256Update (ctx : Sha256Ctx) (data : List (BitVec 8)) : Sha256Ctx :=
  let ctx := { ctx with bitcount := ctx.bitcount + BitVec.ofNat 64 data.length * 8 }
  if 0 < ctx.buflen then
    let need := 64 - ctx.buflen
    if data.length < need then
      { ctx with
        buffer := fillBuffer ctx.buffer ctx.buflen data data.length
        buflen := ctx.buflen + data.length }
    else
      let buffer := fillBuffer ctx.buffer ctx.buflen data need
      updateBlocks { ctx with state := sha256Transform ctx.state buffer, buffer := buffer,
                              buflen := 0 } (data.drop need)
  else updateBlocks ctx data

/-! ## The digest -/

/-- `while (pad_start < stop) buffer[pad_start++] = 0;` -/
def zeroBuffer (buffer : Nat → BitVec 8) (start stop : Nat) : Nat → BitVec 8 :=
  (List.range' start (stop - start)).foldl (fun b i => Function.update b i 0) buffer

/-- `buffer[56]` to `buffer[63]`. -/
def storeBits (buffer : Nat → BitVec 8) (bits : BitVec 64) : Nat → BitVec 8 :=
  (List.range 8).foldl
    (fun b i => Function.update b (56 + i) ((bits >>> (56 - 8 * i)).setWidth 8)) buffer

/-- The bytes of a word, the highest first. -/
def wordBytes (x : BitVec 32) : List (BitVec 8) :=
  [(x >>> 24).setWidth 8, (x >>> 16).setWidth 8, (x >>> 8).setWidth 8, x.setWidth 8]

/-- The bytes of `digest`. -/
def Sha256Words.digest (s : Sha256Words) : List (BitVec 8) :=
  wordBytes s.a ++ wordBytes s.b ++ wordBytes s.c ++ wordBytes s.d ++
    wordBytes s.e ++ wordBytes s.f ++ wordBytes s.g ++ wordBytes s.h

/-- The part of `sha256_final` after the padding byte's block. -/
def finalBlock (ctx : Sha256Ctx) (padStart : Nat) : List (BitVec 8) :=
  let buffer := storeBits (zeroBuffer ctx.buffer padStart 56) ctx.bitcount
  (sha256Transform ctx.state buffer).digest

/-- `sha256_final`. -/
def sha256Final (ctx : Sha256Ctx) : List (BitVec 8) :=
  let ctx := { ctx with buffer := Function.update ctx.buffer ctx.buflen 0x80 }
  let padStart := ctx.buflen + 1
  if 56 < padStart then
    let buffer := zeroBuffer ctx.buffer padStart 64
    finalBlock { ctx with state := sha256Transform ctx.state buffer, buffer := buffer } 0
  else finalBlock ctx padStart

/-- `sha256_hash`; `ctx` is what the local context holds before. -/
def sha256Hash (ctx : Sha256Ctx) (data : List (BitVec 8)) : List (BitVec 8) :=
  sha256Final (sha256Update (sha256Init ctx) data)

/-! ## The system call -/

/-- The loop of `sys_user_sha256` from `offset` on: `read offset chunk` is what `copy_from_user`
copies, if it does not fail. -/
def sha256UserLoop (read : Nat → Nat → Option (List (BitVec 8))) (len : Nat) (offset : Nat)
    (ctx : Sha256Ctx) : Option Sha256Ctx :=
  if offset < len then
    let chunk := if 1024 < len - offset then 1024 else len - offset
    match read offset chunk with
    | none => none
    | some buffer => sha256UserLoop read len (offset + chunk) (sha256Update ctx buffer)
  else some ctx
termination_by len - offset
decreasing_by
  split <;> omega

/-- `sys_user_sha256`: the digest that it copies to the user, if both ranges are accessible and
nothing fails. -/
def sysUserSha256 (ctx : Sha256Ctx) (accessOk : Bool)
    (read : Nat → Nat → Option (List (BitVec 8))) (len : Nat) : Option (List (BitVec 8)) :=
  if accessOk then (sha256UserLoop read len 0 (sha256Init ctx)).map sha256Final else none

end GenOS
