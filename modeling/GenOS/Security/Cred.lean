import GenOS.Lib.CInt
import GenOS.Lib.CString
import GenOS.Lib.Slots
import GenOS.Crypto.Hmac

/-!
# The credential table

`security/cred.c`. What `random_bytes` writes is a parameter of each call. The log lines on the
serial port are left out.
-/

namespace GenOS

open Bytes

/-- `user_account_t`. -/
structure UserAccount where
  username : CString
  uid : Nat
  gid : Nat
  salt : List (BitVec 8)
  passwordHash : List (BitVec 8)
  active : Bool

/-- `users` and `next_uid`. -/
structure CredTable where
  users : List UserAccount
  nextUid : Nat

/-! ## The code -/

/-- `hash_password`: the password, the salt, the locals of the callee and the output lie one behind
the other. -/
def hashPassword (password salt : List (BitVec 8)) : List (BitVec 8) :=
  let n := password.length
  let m := write (write (fun _ => 0) 0 password) n salt
  read (pbkdf2HmacSha256 zeroCtx m (n + 16) 0 n n 16 10 (n + 212) 32) (n + 212) 32

/-- `secure_compare`. -/
def secureCompare (a b : List (BitVec 8)) (len : Nat) : Bool :=
  (List.range len).foldl (fun diff i => diff ||| a.getD i 0 ^^^ b.getD i 0) 0 == 0

/-- The account that `create_user_at` makes. -/
def newAccount (username password : CString) (uid gid : Nat) (salt : List (BitVec 8)) :
    UserAccount where
  username := copyString 31 username
  uid := uid
  gid := gid
  salt := salt
  passwordHash := hashPassword password salt
  active := true

/-- `create_user_at`. -/
def createUserAt (users : List UserAccount) (idx : Nat) (username password : CString)
    (uid gid : Nat) (salt : List (BitVec 8)) : List UserAccount :=
  users.set idx (newAccount username password uid gid salt)

/-- The static table before `cred_init`: zeros, and `next_uid`. -/
def credZero : CredTable := ⟨List.replicate 8 ⟨[], 0, 0, [], [], false⟩, 1001⟩

/-- `"root"`, `"mandor"` and `"genos"`. -/
def rootName : CString := [0x72, 0x6f, 0x6f, 0x74]
def mandorName : CString := [0x6d, 0x61, 0x6e, 0x64, 0x6f, 0x72]
def mandorPassword : CString := [0x67, 0x65, 0x6e, 0x6f, 0x73]

/-- `cred_init`. -/
def credInit (c : CredTable) (salt₀ salt₁ : List (BitVec 8)) : CredTable :=
  let users := c.users.map fun u => { u with active := false }
  let users := createUserAt users 0 rootName rootName 0 0 salt₀
  { c with users := createUserAt users 1 mandorName mandorPassword 1000 1000 salt₁ }

/-- The loop of `cred_authenticate`. -/
def authLoop (username password : CString) : List UserAccount → Int
  | [] => -1
  | u :: users =>
    if !u.active then authLoop username password users
    else if !strEq u.username username then authLoop username password users
    else if secureCompare (hashPassword password u.salt) u.passwordHash 32 then toInt32 u.uid
    else -1

/-- `cred_authenticate`. -/
def credAuthenticate (c : CredTable) (username password : CString) : Int :=
  authLoop username password c.users

/-- `cred_get_username`. -/
def credGetUsername (c : CredTable) (uid : Nat) : Option CString :=
  (c.users.find? fun u => u.active && u.uid == uid).map (·.username)

/-- `cred_change_password`; `salt` is the new one. -/
def credChangePassword (c : CredTable) (uid : Nat) (newPassword : CString)
    (salt : List (BitVec 8)) : Int × CredTable :=
  match c.users.findIdx? fun u => u.active && u.uid == uid with
  | none => (-1, c)
  | some i => (0, { c with users := c.users.modify i fun u =>
      { u with salt := salt, passwordHash := hashPassword newPassword salt } })

/-- `cred_create_user`; `salt` is the one of the new account. -/
def credCreateUser (c : CredTable) (username password : CString) (gid : Nat)
    (salt : List (BitVec 8)) : Int × CredTable :=
  match c.users.findIdx? fun u => u.active && strEq u.username username with
  | some _ => (-1, c)
  | none =>
    match c.users.findIdx? fun u => !u.active with
    | none => (-1, c)
    | some i => (toInt32 c.nextUid,
        ⟨createUserAt c.users i username password c.nextUid gid salt, (c.nextUid + 1) % 4294967296⟩)

/-- A call that changes the table. -/
inductive CredOp where
  | createUser (username password : CString) (gid : Nat) (salt : List (BitVec 8))
  | changePassword (uid : Nat) (newPassword : CString) (salt : List (BitVec 8))

/-- What a call returns, and the table after it. -/
def credCall (c : CredTable) : CredOp → Int × CredTable
  | .createUser username password gid salt => credCreateUser c username password gid salt
  | .changePassword uid newPassword salt => credChangePassword c uid newPassword salt

/-- The table after a sequence of calls. -/
def credRun (c : CredTable) (ops : List CredOp) : CredTable :=
  ops.foldl (fun c op => (credCall c op).2) c

end GenOS
