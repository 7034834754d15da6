import Mathlib.Data.Nat.Digits.Defs
import GenOS.Fs.Vfs
import GenOS.Lib.Cursor
import GenOS.Security.Cred

/-!
# The security terminal

`shell/shell.c`: the helpers that format lines, the command handlers that use them, and the loop of
`_start`. A C string is the list of its bytes before the terminator. What a handler does is a list
of events: the stores to its local buffers, each with the size of the buffer and the index, and the
lines that it hands to `terminal_print`. What the system calls return is a `System`.

Drawing, the scroll buffer and the handlers that only print fixed lines or format no line with these
helpers (`help`, `clear`, `info`, `read`, `run`, `shm`, `random`, `hash`, `encrypt`, and the power
commands) are left out.
-/

namespace GenOS.Shell

open Cursor

/-- A C string. -/
abbrev Text : Type := List UInt8

/-- A string literal. -/
def str (s : String) : Text := s.toList.map fun c => UInt8.ofNat c.toNat

/-- The colours of the theme. -/
inductive Color where
  | text | prompt | error | warn | success | info | header | dim | accent
  deriving DecidableEq, Repr

/-- What a handler does. -/
inductive Event where
  /-- A store to a local buffer of `size` bytes. -/
  | store (size index : Nat)
  | print (line : Text) (color : Color)
  deriving DecidableEq, Repr

/-- The store is inside its buffer. -/
def Event.InBounds : Event → Prop
  | .store size index => index < size
  | .print _ _ => True

instance (e : Event) : Decidable e.InBounds :=
  match e with
  | .store size index => inferInstanceAs (Decidable (index < size))
  | .print _ _ => inferInstanceAs (Decidable True)

/-- A local `char line[n]`. -/
abbrev line (n : Nat) : Buffer UInt8 := .new n

/-! ## Formatting -/

/-- `str_append`. -/
def strAppend (b : Buffer UInt8) (s : Text) : Buffer UInt8 := b.appendUpTo 120 s

/-- The digits that `u64_to_str` leaves in `tmp`, the last one first. -/
def tmpDigits (val : UInt64) : Text :=
  if val = 0 then [48] else (Nat.digits 10 val.toNat).map fun d => UInt8.ofNat (48 + d)

/-- `u64_to_str`. -/
def u64ToStr (b : Buffer UInt8) (val : UInt64) : Buffer UInt8 :=
  let tmp := (line 24).append (tmpDigits val)
  (b.also tmp.stores).append tmp.text.reverse

/-- `i32_to_str`. -/
def i32ToStr (b : Buffer UInt8) (val : Int) : Buffer UInt8 :=
  u64ToStr (if val < 0 then b.put 45 else b) (UInt64.ofNat (val.natAbs % 4294967296))

/-- The stores that a buffer has received. -/
def stores (b : Buffer UInt8) : List Event := b.stores.map fun p => .store p.1 p.2

/-- `line[j] = 0; terminal_print(line, color);` -/
def finish (b : Buffer UInt8) (color : Color) : List Event :=
  stores b.close ++ [.print b.text color]

/-! ## The system calls -/

/-- `struct genos_system_info`. -/
structure SystemInfo where
  detectedCpus : UInt32
  onlineCpus : UInt32
  currentCpu : UInt32
  pciDevices : UInt32
  ps2Mouse : UInt32
  freeBytes : UInt64
  switches : Nat → UInt64

/-- `cache_stats_t`. -/
structure CacheStats where
  hits : UInt64
  misses : UInt64
  evictions : UInt64
  usedBlocks : UInt32
  totalBlocks : UInt32

/-- What the system calls return while one key is handled. -/
structure System where
  /-- `crypto_whoami`: the name that it writes, and the user. -/
  userName : Text
  uid : Int
  openFile : Text → Int → Int
  /-- The entries that `readdir` finds, with their sizes. -/
  entries : List (Text × Int)
  /-- `read`: the result, and the bytes. -/
  read : Int → Nat → Int × Text
  write : Int → Text → Int
  unlink : Text → Int
  login : Text → Text → Int
  /-- The keys typed at the password prompt, up to Enter. -/
  passwordKeys : Text
  fork : Int
  systemInfo : Option SystemInfo
  cacheStats : Option CacheStats
  /-- A user name has less than `USERNAME_MAX` bytes, and so has one that is accepted. -/
  userName_le : userName.length ≤ 31
  login_le : ∀ user password, 0 ≤ login user password → user.length ≤ 31
  entries_le : ∀ e ∈ entries, e.1.length ≤ 99
  read_le : ∀ fd n, (read fd n).1 ≤ n

/-- System call 25, `unlink`. -/
def sysUnlink (s : Vfs) (filename : Text) : Int :=
  if 99 < filename.length then -1 else (s.vfsUnlink filename).2

/-- System call 41, `crypto_login`: `USERNAME_MAX` is 32 and `USER_STRING_MAX` is 4096. -/
def sysLogin (c : CredTable) (username password : Text) : Int :=
  if 31 < username.length ∨ 4095 < password.length then -1
  else credAuthenticate c (username.map UInt8.toBitVec) (password.map UInt8.toBitVec)

/-- System call 42, `crypto_whoami`: the name that it writes. -/
def sysWhoami (c : CredTable) (uid : Nat) : Text :=
  match credGetUsername c uid with
  | some name => (copyString 31 name).map UInt8.ofBitVec
  | none => str "unknown"

/-- The calls that look at names are those of the kernel with the files of `s` and the accounts
of `c`. -/
def System.ofKernel (sys : System) (s : Vfs) (c : CredTable) (uid : Nat) : System :=
  { sys with
    userName := sysWhoami c uid
    uid := uid
    unlink := sysUnlink s
    login := sysLogin c
    userName_le := by
      unfold sysWhoami
      split
      · rw [List.length_map]
        exact length_copyString_le 31 _
      · decide
    login_le := fun user password h => by
      unfold sysLogin at h
      split at h
      · cases h
      · omega }

variable (sys : System)

/-! ## The handlers -/

/-- `cmd_hwinfo`. -/
def cmdHwinfo : List Event :=
  match sys.systemInfo with
  | none => [.print (str "Cannot read system status") .error]
  | some info =>
    let l := strAppend (line 160) (str "CPUs online/detected: ")
    let l := u64ToStr l info.onlineCpus.toUInt64
    let l := strAppend l (str "/")
    let l := u64ToStr l info.detectedCpus.toUInt64
    let l := strAppend l (str "  Shell CPU: ")
    let l := u64ToStr l info.currentCpu.toUInt64
    let r := strAppend (line 160) (str "Free RAM KiB: ")
    let r := u64ToStr r (info.freeBytes / 1024)
    let r := strAppend r (str "  PCI devices: ")
    let r := u64ToStr r info.pciDevices.toUInt64
    finish l .info ++ finish r .text ++
      [.print (str (if info.ps2Mouse ≠ 0 then "PS/2 mouse: ready" else "PS/2 mouse: unavailable"))
        .text] ++
      (List.range info.detectedCpus.toNat).flatMap fun i =>
        let c := strAppend (line 160) (str "CPU ")
        let c := u64ToStr c (UInt64.ofNat i)
        let c := strAppend c (str " scheduler selections: ")
        finish (u64ToStr c (info.switches i)) .dim

/-- The line of `cmd_ls` for one entry. -/
def lsLine (e : Text × Int) : List Event :=
  let l := strAppend (line 200) (str "  ")
  let l := strAppend l e.1
  let l := l.pad 30 32
  let l := u64ToStr l (UInt64.ofInt e.2)
  finish (strAppend l (str " bytes")) .text

/-- `cmd_ls`. -/
def cmdLs : List Event :=
  .print (str "=== File Listing ===") .info ::
    if sys.openFile (str "/") 0 < 0 then [.print (str "[ERROR] Cannot open ramdisk!") .error]
    else sys.entries.flatMap lsLine

/-- `cmd_cat`. -/
def cmdCat (fname : Text) : List Event :=
  let fd := sys.openFile fname 0
  if fd < 0 then
    finish (strAppend (strAppend (line 128) (str "[ERROR] File not found: ")) fname) .error
  else
    let (bytes, content) := sys.read fd 511
    if 0 < bytes then [.store 512 bytes.toNat, .print content .text]
    else [.print (str "[INFO] File is empty") .dim]

/-- The loop of `cmd_write` that copies the name, and the rest of the arguments. -/
def copyName (b : Buffer UInt8) : Text → Buffer UInt8 × Text
  | [] => (b, [])
  | c :: args => if c ≠ 32 ∧ b.text.length < 63 then copyName (b.put c) args else (b, c :: args)

/-- `cmd_write`. -/
def cmdWrite (args : Text) : List Event :=
  let (fname, args) := copyName (line 64) args
  let args := if args.head? = some 32 then args.tail else args
  stores fname.close ++
    if fname.text = [] then [.print (str "Usage: write <filename> <text>") .error]
    else
      let fd := sys.openFile fname.text 4
      if fd < 0 then [.print (str "[ERROR] Cannot create file") .error]
      else
        let written := sys.write fd args
        if 0 < written then
          let l := strAppend (line 128) (str "[OK] Wrote ")
          let l := i32ToStr l written
          let l := strAppend l (str " bytes to ")
          finish (strAppend l fname.text) .success
        else [.print (str "[ERROR] Write failed") .error]

/-- `cmd_rm`. -/
def cmdRm (fname : Text) : List Event :=
  if sys.unlink fname = 0 then
    finish (strAppend (strAppend (line 80) (str "[OK] Deleted: ")) fname) .success
  else [.print (str "[ERROR] Cannot delete (only tmpfs)") .error]

/-- `cmd_cache`. -/
def cmdCache : List Event :=
  .print (str "=== Buffer Cache Statistics ===") .info ::
    match sys.cacheStats with
    | none => [.print (str "[ERROR] Failed!") .error]
    | some cs =>
      let total := cs.hits + cs.misses
      let b := u64ToStr (strAppend (line 128) (str "  Blocks:     ")) cs.usedBlocks.toUInt64
      let b := u64ToStr (strAppend b (str " / ")) cs.totalBlocks.toUInt64
      let r := strAppend (line 128) (str "  Hit Rate:   ")
      let r := if 0 < total then (u64ToStr r (cs.hits * 100 / total)).put 37
        else strAppend r (str "N/A")
      finish (u64ToStr (strAppend (line 128) (str "  Hits:       ")) cs.hits) .success ++
      finish (u64ToStr (strAppend (line 128) (str "  Misses:     ")) cs.misses) .accent ++
      finish (u64ToStr (strAppend (line 128) (str "  Evictions:  ")) cs.evictions) .error ++
      finish b .text ++ finish r .header

/-- `cmd_fork`, in the parent and in the child. -/
def cmdFork : List Event :=
  .print (str "=== Fork Demo ===") .info ::
    if sys.fork < 0 then [.print (str "[ERROR] fork() failed!") .error]
    else if sys.fork = 0 then
      [.print (str "[CHILD] I am the cloned process!") .success,
        .print (str "[CHILD] Exiting...") .success]
    else
      finish (i32ToStr (strAppend (line 80) (str "[PARENT] Child PID: ")) sys.fork) .text ++
        [.print (str "[PARENT] Child finished.") .dim]

/-- `cmd_whoami`. -/
def cmdWhoami : List Event :=
  let l := strAppend (line 80) (str "[*] User: ")
  let l := strAppend l sys.userName
  let l := strAppend l (str "  (UID ")
  finish ((i32ToStr l sys.uid).put 41) .success

/-- The loop of `cmd_login` that reads the password. -/
def readPassword (b : Buffer UInt8) : Text → Buffer UInt8
  | [] => b
  | k :: keys =>
    if k = 10 then b
    else if k = 8 ∧ 0 < b.text.length then readPassword b.back keys
    else if k ≠ 0 ∧ k ≠ 8 ∧ b.text.length < 63 then readPassword (b.put k) keys
    else readPassword b keys

/-- `cmd_login`. -/
def cmdLogin (uname : Text) : List Event :=
  let pass := readPassword (line 64) sys.passwordKeys
  let uid := sys.login uname pass.text
  .print (str "Password: ") .dim :: stores pass.close ++
    if 0 ≤ uid then
      let l := strAppend (line 80) (str "[OK] Authenticated as ")
      let l := strAppend l uname
      let l := strAppend l (str " (UID ")
      finish ((i32ToStr l uid).put 41) .success
    else [.print (str "[FAIL] Authentication failed!") .error]

/-! ## The main loop -/

/-- The prompt in a buffer of `n` bytes. -/
def prompt (n : Nat) : Buffer UInt8 :=
  strAppend ((line n).appendUpTo 28 sys.userName) (str "@GenOS:~$ ")

/-- `print_prompt`. -/
def printPrompt : List Event := stores (prompt sys 64).close

/-- The commands that take no arguments, or get none. -/
def plainCommand (cmd : Text) : Option (List Event) :=
  if cmd = str "hwinfo" then some (cmdHwinfo sys)
  else if cmd = str "ls" then some (cmdLs sys)
  else if cmd = str "cache" then some (cmdCache sys)
  else if cmd = str "fork" then some (cmdFork sys)
  else if cmd = str "whoami" then some (cmdWhoami sys)
  else if cmd = str "hash" then some [.print (str "Usage: hash <text>") .warn]
  else if cmd = str "encrypt" then some [.print (str "Usage: encrypt <text>") .warn]
  else if cmd = str "login" then some [.print (str "Usage: login <username>") .warn]
  else if cmd = str "cat" then some [.print (str "Usage: cat <filename>") .warn]
  else if cmd = str "write" then some [.print (str "Usage: write <filename> <text>") .warn]
  else if cmd = str "rm" then some [.print (str "Usage: rm <filename>") .warn]
  else if cmd ∈ [str "help", str "clear", str "info", str "read", str "run", str "shm",
      str "random", str "shutdown", str "restart"] then some []
  else none

/-- The dispatch of a command line that is not empty. -/
def dispatch (cmd : Text) : List Event :=
  match plainCommand sys cmd with
  | some events => events
  | none =>
    if (str "cat ").isPrefixOf cmd then cmdCat sys (cmd.drop 4)
    else if (str "write ").isPrefixOf cmd then cmdWrite sys (cmd.drop 6)
    else if (str "rm ").isPrefixOf cmd then cmdRm sys (cmd.drop 3)
    else if (str "login ").isPrefixOf cmd then cmdLogin sys (cmd.drop 6)
    else if (str "hash ").isPrefixOf cmd then []
    else if (str "encrypt ").isPrefixOf cmd then []
    else finish (strAppend (strAppend (line 128) (str "[?] Unknown command: ")) cmd) .error

/-- The Enter key: the command line is terminated, echoed and executed. -/
def enter (cmd : Text) : List Event :=
  .store 256 cmd.length :: finish (strAppend (prompt sys 200) cmd) .prompt ++
    (if cmd = [] then [] else dispatch sys cmd) ++ printPrompt sys

/-- A key that `read_key` returns, whether the prompt is drawn again because the view is back at the
bottom, and what the system calls return meanwhile. -/
structure Press where
  key : UInt8
  redraw : Bool
  sys : System

/-- One turn of the loop of `_start`: the command line before the cursor, and the events. -/
def press (cmd : Text) (p : Press) : Text × List Event :=
  if p.key = 0 then (cmd, [])
  else
    let drawn := if p.redraw then printPrompt p.sys else []
    -- KEY_PGUP and KEY_PGDN
    if p.key = 0x84 ∨ p.key = 0x85 then (cmd, drawn)
    else if p.key = 10 then ([], drawn ++ enter p.sys cmd)
    else if p.key = 8 then (cmd.dropLast, drawn)
    -- KEY_UP, KEY_DOWN, KEY_LEFT and KEY_RIGHT
    else if p.key = 0x80 ∨ p.key = 0x81 ∨ p.key = 0x82 ∨ p.key = 0x83 then (cmd, drawn)
    else if cmd.length < 254 then (cmd ++ [p.key], drawn ++ [.store 256 cmd.length])
    else (cmd, drawn)

/-- The keys of a line and Enter, while the calls return what `sys` says. -/
def typed (line : Text) : List Press := (line ++ [10]).map fun key => ⟨key, false, sys⟩

/-- A session: the events of a sequence of keys. -/
def session (cmd : Text) : List Press → List Event
  | [] => []
  | p :: ps => (press cmd p).2 ++ session (press cmd p).1 ps

/-- `_start`: the first prompt, then the keys. -/
def start (ps : List Press) : List Event := printPrompt sys ++ session [] ps

/-- The command lines of a session, each with what its system calls return. -/
def accepted (cmd : Text) : List Press → List (System × Text)
  | [] => []
  | p :: ps =>
    if p.key = 10 then (p.sys, cmd) :: accepted (press cmd p).1 ps
    else accepted (press cmd p).1 ps

end GenOS.Shell
