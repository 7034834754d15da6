import Mathlib.Data.Finmap
import GenOS.Lib.CString
import GenOS.Lib.Slots
import GenOS.Crypto.AesCbc
import GenOS.Crypto.Hmac

/-!
# The keystore

`security/keystore.c`. What `random_bytes` writes to `iv` is a parameter of `keystoreSet`; names and
values are never null pointers. `KeyMap` says what the keystore is for: a finite map from names to
values, once it is initialised.
-/

namespace GenOS

open Bytes

/-- `keystore_entry_t`. -/
structure KeystoreEntry where
  name : CString
  encrypted : List (BitVec 8)
  encLen : Int
  iv : AesState
  active : Bool

/-- The static data of `keystore.c`. -/
structure Keystore where
  entries : List KeystoreEntry
  masterKey : AesKey
  initialized : Bool

/-! ## The code -/

/-- `"GenOS_Keystore_Salt_v1"`. -/
def keystoreSalt : List (BitVec 8) :=
  "GenOS_Keystore_Salt_v1".toList.map fun c => BitVec.ofNat 8 c.toNat

/-- The `master_key` of a passphrase: passphrase, salt, the locals of the callee and the output lie
one behind the other. -/
def masterKeyOf (passphrase : CString) : AesKey :=
  let n := passphrase.length
  let l := keystoreSalt.length
  let m := write (write (fun _ => 0) 0 passphrase) n keystoreSalt
  let m := pbkdf2HmacSha256 zeroCtx m (n + l) 0 n n l 10 (n + l + 196) 32
  Vector.ofFn fun i => m (n + l + 196 + i)

/-- Static storage before the first call. -/
def keystoreZero : Keystore where
  entries := List.replicate 16 ⟨[], List.replicate 256 0, 0, Vector.replicate 16 0, false⟩
  masterKey := Vector.replicate 32 0
  initialized := false

/-- `keystore_init`. -/
def keystoreInit (k : Keystore) (passphrase : CString) : Keystore where
  entries := k.entries.map fun e => { e with active := false }
  masterKey := masterKeyOf passphrase
  initialized := true

/-- The entry that `keystore_set` writes over `e`, which is active once the length is not
negative. -/
def setEntry (key : AesKey) (e : KeystoreEntry) (name : CString) (value : List (BitVec 8))
    (iv : AesState) : KeystoreEntry :=
  let (encLen, ct) := aes256CbcEncrypt key iv value 256
  { name := copyString 31 name
    encrypted := ct ++ e.encrypted.drop ct.length
    encLen := encLen
    iv := iv
    active := if encLen < 0 then e.active else true }

/-- `keystore_set`. -/
def keystoreSet (k : Keystore) (name : CString) (value : List (BitVec 8)) (iv : AesState) :
    Int × Keystore :=
  if !k.initialized then (-1, k)
  else if 256 - 16 < value.length then (-1, k)
  else
    let found : Option Nat := k.entries.findIdx? fun e => e.active && strEq e.name name
    let idx : Option Nat :=
      if found.isSome then found else k.entries.findIdx? fun e => !e.active
    match idx with
    | none => (-1, k)
    | some i =>
      let entries := k.entries.modify i fun e => setEntry k.masterKey e name value iv
      let encLen := (entries[i]?.map KeystoreEntry.encLen).getD 0
      (if encLen < 0 then -1 else 0, { k with entries := entries })

/-- `keystore_get`: what it returns, `*out_len` if it returns 0, and what it writes to `out_buf`. -/
def keystoreGet (k : Keystore) (name : CString) (outMax : Nat) : Int × Int × List (BitVec 8) :=
  if !k.initialized then (-1, 0, [])
  else match k.entries.find? fun e => e.active && strEq e.name name with
    | none => (-1, 0, [])
    | some e =>
      let encLen := (e.encLen % 18446744073709551616).toNat
      let (ptLen, out) := aes256CbcDecrypt k.masterKey e.iv (e.encrypted.take encLen) outMax
      if ptLen < 0 then (-1, 0, out) else (0, ptLen, out)

/-- `keystore_delete`. -/
def keystoreDelete (k : Keystore) (name : CString) : Int × Keystore :=
  if !k.initialized then (-1, k)
  else match k.entries.findIdx? fun e => e.active && strEq e.name name with
    | none => (-1, k)
    | some i =>
      (0, { k with entries := k.entries.modify i fun e =>
        { e with
          encrypted := List.replicate 256 0, iv := Vector.replicate 16 0, active := false } })

/-! ## Calls -/

inductive KeystoreOp where
  | init (passphrase : CString)
  | set (name : CString) (value : List (BitVec 8)) (iv : AesState)
  | get (name : CString) (outMax : Nat)
  | delete (name : CString)

/-- What the caller sees: the result, and after a successful `keystore_get` the length and the bytes
of that number in the buffer. -/
structure KeystoreReply where
  result : Int
  length : Int := 0
  value : List (BitVec 8) := []
  deriving DecidableEq

def keystoreCall (k : Keystore) : KeystoreOp → KeystoreReply × Keystore
  | .init passphrase => (⟨0, 0, []⟩, keystoreInit k passphrase)
  | .set name value iv =>
    let (r, k) := keystoreSet k name value iv
    (⟨r, 0, []⟩, k)
  | .get name outMax =>
    let (r, n, out) := keystoreGet k name outMax
    (if r = 0 then ⟨0, n, out.take n.toNat⟩ else ⟨r, 0, []⟩, k)
  | .delete name =>
    let (r, k) := keystoreDelete k name
    (⟨r, 0, []⟩, k)

/-- The state after a sequence of calls. -/
def keystoreRun (k : Keystore) (ops : List KeystoreOp) : Keystore :=
  ops.foldl (fun k op => (keystoreCall k op).2) k

/-! ## The map -/

/-- A finite map from names to values, or nothing before the initialisation. -/
abbrev KeyMap : Type := Option (Finmap fun _ : CString => List (BitVec 8))

/-- The same calls on a map of at most 16 names. -/
def KeyMap.call : KeyMap → KeystoreOp → KeystoreReply × KeyMap
  | _, .init _ => (⟨0, 0, []⟩, some ∅)
  | none, .set .. | none, .get .. | none, .delete .. => (⟨-1, 0, []⟩, none)
  | some m, .set name value _ =>
    if name ∈ m ∨ m.keys.card < 16 then (⟨0, 0, []⟩, some (m.insert name value))
    else (⟨-1, 0, []⟩, some m)
  | some m, .get name outMax =>
    match m.lookup name with
    | some value =>
      -- the buffer takes the padding too
      if paddedLength value.length ≤ outMax then (⟨0, value.length, value⟩, some m)
      else (⟨-1, 0, []⟩, some m)
    | none => (⟨-1, 0, []⟩, some m)
  | some m, .delete name =>
    if name ∈ m then (⟨0, 0, []⟩, some (m.erase name)) else (⟨-1, 0, []⟩, some m)

def KeyMap.run (m : KeyMap) (ops : List KeystoreOp) : KeyMap :=
  ops.foldl (fun m op => (m.call op).2) m

/-- Names of at most 31 characters, values of at most 240 bytes. -/
def KeystoreOp.Within : KeystoreOp → Prop
  | .init _ => True
  | .set name value _ => name.length ≤ 31 ∧ value.length ≤ 240
  | .get name _ => name.length ≤ 31
  | .delete name => name.length ≤ 31

end GenOS
