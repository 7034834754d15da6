import GenOS.Fs.Cache
import GenOS.Fs.Tmpfs

/-!
# The virtual file system

`fs/vfs.c`. Each task has its own table of descriptors; `task_fork` and `task_clone` copy it. The
TAR archive is a parameter: what `tar_read_file` finds under a name. `NULL` arguments are left out,
and `fd` and `whence` are what the caller passes. A sum of `int64_t` wraps.
-/

namespace GenOS

/-- `VFS_MAX_FDS`. -/
abbrev vfsMaxFds : Nat := 16

/-- `O_CREATE`. -/
abbrev oCreate : BitVec 32 := 4

/-- `vfs_type_t`. -/
inductive VfsType where
  | none
  | file
  | dir
  deriving DecidableEq, Repr

/-- `vfs_fd_t`. -/
structure VfsFd where
  type : VfsType := .none
  name : List UInt8 := []
  data : Option (Nat → UInt8) := none
  size : Nat := 0
  offset : Nat := 0
  writable : Bool := false
  tmpfsIdx : Option Nat := none

/-- The files, the cache, and the descriptor table of each task. -/
structure Vfs where
  files : Tmpfs
  cache : Cache
  fds : Nat → Nat → VfsFd

/-- A file of the archive. -/
structure TarFile where
  data : Nat → UInt8
  size : Nat

/-- `tar_read_file`. -/
abbrev TarRead : Type := List UInt8 → Option TarFile

namespace Vfs

/-- `vfs_init`, before the first task. -/
def init : Vfs where
  files := Tmpfs.init
  cache := Cache.cacheInit
  fds _ _ := {}

/-- Store to one descriptor of the task `p`. -/
def setFd (s : Vfs) (p i : Nat) (f : VfsFd) : Vfs :=
  { s with fds := Function.update s.fds p (Function.update (s.fds p) i f) }

/-- The first free descriptor. -/
def freeFd (s : Vfs) (p : Nat) : Option Nat :=
  (List.range vfsMaxFds).find? fun i => decide ((s.fds p i).type = .none)

/-- What follows the choice of the backend in `vfs_open`: a free descriptor gets its fields. -/
def install (s : Vfs) (p : Nat) (f : VfsFd) : Vfs × Option Nat :=
  match s.freeFd p with
  | some i => (s.setFd p i f, some i)
  | none => (s, none)

/-- `vfs_open`. -/
def vfsOpen (tar : TarRead) (s : Vfs) (p : Nat) (filename : List UInt8) (flags : BitVec 32)
    (alloc : HeapBlockBytes) : Vfs × Option Nat :=
  if filename = [47] then
    s.install p { type := .dir, name := [47] }
  else
    match s.files.tmpfsOpen filename with
    | some tidx =>
      s.install p
        { type := .file
          writable := true
          tmpfsIdx := some tidx
          size := match s.files.tmpfsGetEntry tidx with
            | some (_, size) => size
            | none => 0
          name := filename.take 99 }
    | none =>
      match tar filename with
      | none =>
        if flags &&& oCreate ≠ 0 then
          match s.files.tmpfsCreate filename alloc with
          | (_, none) => (s, none)
          | (files, some tidx) =>
            { s with files }.install p
              { type := .file, writable := true, tmpfsIdx := some tidx, name := filename.take 99 }
        else (s, none)
      | some file =>
        s.install p
          { type := .file
            name := filename.take 99
            data := some file.data
            size := file.size }

/-- `vfs_read`: what it returns, and the bytes that it stores in `buf`. -/
def vfsRead (s : Vfs) (p : Nat) (fd : Int) (count : Nat) : Vfs × Int × List UInt8 :=
  if fd < 0 ∨ (vfsMaxFds : Int) ≤ fd then (s, -1, [])
  else
    let f := s.fds p fd.toNat
    if f.type ≠ .file then (s, -1, [])
    else if f.size ≤ f.offset then (s, 0, [])
    else
      let (s, result) := match f.tmpfsIdx with
        | some idx => (s, s.files.tmpfsRead idx f.offset count)
        | none =>
          match f.data with
          | some src =>
            let (cache, result) := s.cache.cacheRead ⟨f.name, src, f.size⟩ f.offset count
            ({ s with cache }, result)
          | none => (s, -1, [])
      if 0 < result.1 then
        (s.setFd p fd.toNat
          { f with offset := (f.offset + result.1.toNat) % 18446744073709551616 }, result)
      else (s, result)

/-- `vfs_close`. -/
def vfsClose (s : Vfs) (p : Nat) (fd : Int) : Vfs × Int :=
  if fd < 0 ∨ (vfsMaxFds : Int) ≤ fd then (s, -1)
  else if (s.fds p fd.toNat).type = .none then (s, -1)
  else
    (s.setFd p fd.toNat
      { s.fds p fd.toNat with type := .none, writable := false, tmpfsIdx := none }, 0)

/-- `vfs_seek`. -/
def vfsSeek (s : Vfs) (p : Nat) (fd offset whence : Int) : Vfs × Int :=
  if fd < 0 ∨ (vfsMaxFds : Int) ≤ fd then (s, -1)
  else
    let f := s.fds p fd.toNat
    if f.type ≠ .file then (s, -1)
    else
      let base : Option Int :=
        if whence = 0 then some 0
        else if whence = 1 then some (toInt64 f.offset)
        else if whence = 2 then some (toInt64 f.size)
        else none
      match base with
      | none => (s, -1)
      | some base =>
        let newPos := (base + offset).bmod 18446744073709551616
        let newPos := if newPos < 0 then 0 else newPos
        let newPos := if toInt64 f.size < newPos then toInt64 f.size else newPos
        let pos := (newPos % 18446744073709551616).toNat
        (s.setFd p fd.toNat { f with offset := pos }, toInt32 (pos % 4294967296))

/-- `vfs_write`; `src` has `count` bytes. -/
def vfsWrite (s : Vfs) (p : Nat) (fd : Int) (src : List UInt8) (alloc : HeapBlockBytes) :
    Vfs × Int :=
  if fd < 0 ∨ (vfsMaxFds : Int) ≤ fd then (s, -1)
  else
    let f := s.fds p fd.toNat
    if f.type ≠ .file then (s, -1)
    else if f.writable = false then (s, -1)
    else
      match f.tmpfsIdx with
      | none => (s, -1)
      | some idx =>
        match s.files.tmpfsWrite idx f.offset src alloc with
        | (files, result) =>
          if 0 < result then
            ({ s with files }.setFd p fd.toNat
              { f with
                offset := (f.offset + result.toNat) % 18446744073709551616
                size := match files.tmpfsGetEntry idx with
                  | some (_, size) => size
                  | none => 0 }, result)
          else ({ s with files }, result)

/-- `vfs_create`. -/
def vfsCreate (s : Vfs) (filename : List UInt8) (alloc : HeapBlockBytes) : Vfs × Int :=
  match s.files.tmpfsCreate filename alloc with
  | (files, idx) => ({ s with files }, if idx.isSome then 0 else -1)

/-- `vfs_unlink`. -/
def vfsUnlink (s : Vfs) (filename : List UInt8) : Vfs × Int :=
  match s.files.tmpfsUnlink filename with
  | (files, result) => ({ s with files }, result)

/-- The empty table that `task_alloc` gives a new task. -/
def newFds (s : Vfs) (p : Nat) : Vfs :=
  { s with fds := Function.update s.fds p fun _ => {} }

/-- The copy of the table in `task_fork` and `task_clone`. -/
def copyFds (s : Vfs) (parent child : Nat) : Vfs :=
  { s with fds := Function.update s.fds child (s.fds parent) }

end Vfs

/-! ## Runs -/

/-- A call that a task makes, or the start of a task. -/
inductive VfsOp where
  | open (p : Nat) (filename : List UInt8) (flags : BitVec 32) (alloc : HeapBlockBytes)
  | read (p : Nat) (fd : Int) (count : Nat)
  | write (p : Nat) (fd : Int) (src : List UInt8) (alloc : HeapBlockBytes)
  | seek (p : Nat) (fd offset whence : Int)
  | close (p : Nat) (fd : Int)
  | create (filename : List UInt8) (alloc : HeapBlockBytes)
  | unlink (filename : List UInt8)
  | newTask (p : Nat)
  | copyTask (parent child : Nat)

/-- The state after an operation. -/
def Vfs.exec (tar : TarRead) (s : Vfs) : VfsOp → Vfs
  | .open p filename flags alloc => (s.vfsOpen tar p filename flags alloc).1
  | .read p fd count => (s.vfsRead p fd count).1
  | .write p fd src alloc => (s.vfsWrite p fd src alloc).1
  | .seek p fd offset whence => (s.vfsSeek p fd offset whence).1
  | .close p fd => (s.vfsClose p fd).1
  | .create filename alloc => (s.vfsCreate filename alloc).1
  | .unlink filename => (s.vfsUnlink filename).1
  | .newTask p => s.newFds p
  | .copyTask parent child => s.copyFds parent child

/-- The state after operations from boot. -/
def Vfs.after (tar : TarRead) (ops : List VfsOp) : Vfs := ops.foldl (Vfs.exec tar) Vfs.init

end GenOS
