import Mathlib.Logic.Function.Basic
import Mathlib.Data.List.Basic
import GenOS.Lib.CInt

/-!
# The memory file system

`fs/tmpfs.c`. A C string is the list of its bytes without the terminator, an index that may be `-1`
is an `Option`. What the heap does is a parameter: `none` when it has no room, else the bytes of the
block that it returns. `krealloc` keeps the bytes that the file has, whatever else is in the block.
-/

namespace GenOS

/-- `TMPFS_MAX_FILES`. -/
abbrev tmpfsMaxFiles : Nat := 32

/-- `TMPFS_MAX_SIZE`. -/
abbrev tmpfsMaxSize : Nat := 65536

/-- `TMPFS_INITIAL_CAP`. -/
abbrev tmpfsInitialCap : Nat := 4096

/-- `tmpfs_file_t`. -/
structure TmpfsFile where
  inUse : Bool := false
  name : List UInt8 := []
  data : Nat → UInt8 := fun _ => 0
  size : Nat := 0
  capacity : Nat := 0

/-- `files`. -/
abbrev Tmpfs : Type := Nat → TmpfsFile

/-- The bytes of a block that the heap may return. -/
abbrev HeapBlockBytes : Type := Option (Nat → UInt8)

namespace TmpfsFile

/-- The loop that doubles the capacity; it makes 16 turns at most. -/
def growCap (endPos : Nat) : (fuel cap : Nat) → Nat
  | 0, cap => cap
  | fuel + 1, cap => if cap < endPos then growCap endPos fuel (min (cap * 2) tmpfsMaxSize) else cap

/-- The growth of the buffer in `tmpfs_write`. -/
def grow (f : TmpfsFile) (endPos : Nat) (alloc : HeapBlockBytes) : Option TmpfsFile :=
  if f.capacity < endPos then
    let newCap := growCap endPos 16 f.capacity
    match alloc with
    | none => none
    | some block => some { f with
        data := fun b => if b < f.capacity then f.data b else if b < newCap then 0 else block b
        capacity := newCap }
  else some f

/-- `for (i = 0; i < count; i++) f->data[offset + i] = src[i];` -/
def storeBytes (data : Nat → UInt8) : (offset : Nat) → List UInt8 → Nat → UInt8
  | _, [] => data
  | offset, b :: src =>
    storeBytes (Function.update data (offset % 18446744073709551616) b) (offset + 1) src

/-- The bytes that a file holds. -/
def content (f : TmpfsFile) : List UInt8 := (List.range f.size).map f.data

theorem drop_take_content (f : TmpfsFile) (o count : Nat) :
    (f.content.drop o).take count =
      (List.range (min count (f.size - o))).map fun i => f.data (o + i) := by
  refine List.ext_getElem ?_ fun i h1 h2 => ?_
  · simp [content]
  · simp [content]

end TmpfsFile

namespace Tmpfs

/-- `tmpfs_init`. -/
def init : Tmpfs := fun _ => {}

/-- `tmpfs_open`. -/
def tmpfsOpen (fs : Tmpfs) (name : List UInt8) : Option Nat :=
  (List.range tmpfsMaxFiles).find? fun i => (fs i).inUse && decide ((fs i).name = name)

/-- `tmpfs_create`. -/
def tmpfsCreate (fs : Tmpfs) (name : List UInt8) (alloc : HeapBlockBytes) : Tmpfs × Option Nat :=
  match fs.tmpfsOpen name with
  | some existing => (fs, some existing)
  | none =>
    match (List.range tmpfsMaxFiles).find? fun i => !(fs i).inUse with
    | none => (fs, none)
    | some i =>
      match alloc with
      | none => (fs, none)
      | some block =>
        (Function.update fs i
          { name := name.take 99
            data := fun b => if b < tmpfsInitialCap then 0 else block b
            size := 0
            capacity := tmpfsInitialCap
            inUse := true }, some i)

/-- `tmpfs_write`; `src` has `count` bytes. -/
def tmpfsWrite (fs : Tmpfs) (index offset : Nat) (src : List UInt8) (alloc : HeapBlockBytes) :
    Tmpfs × Int :=
  if tmpfsMaxFiles ≤ index then (fs, -1)
  else if (fs index).inUse = false then (fs, -1)
  else
    let f := fs index
    let endPos := (offset + src.length) % 18446744073709551616
    let count :=
      if tmpfsMaxSize < endPos then (if offset < tmpfsMaxSize then tmpfsMaxSize - offset else 0)
      else src.length
    let endPos :=
      if tmpfsMaxSize < endPos then (offset + count) % 18446744073709551616 else endPos
    if count = 0 then (fs, 0)
    else
      match f.grow endPos alloc with
      | none => (fs, -1)
      | some f =>
        (Function.update fs index
          { f with
            data := TmpfsFile.storeBytes f.data offset (src.take count)
            size := if f.size < endPos then endPos else f.size }, toInt32 (count % 4294967296))

/-- `tmpfs_read`: what it returns, and the bytes that it stores in `buf`. -/
def tmpfsRead (fs : Tmpfs) (index offset count : Nat) : Int × List UInt8 :=
  if tmpfsMaxFiles ≤ index then (-1, [])
  else if (fs index).inUse = false then (-1, [])
  else
    let f := fs index
    if f.size ≤ offset then (0, [])
    else
      let remaining := f.size - offset
      let count := if remaining < count then remaining else count
      (toInt32 (count % 4294967296), (List.range count).map fun i => f.data (offset + i))

/-- `tmpfs_unlink`. -/
def tmpfsUnlink (fs : Tmpfs) (name : List UInt8) : Tmpfs × Int :=
  match fs.tmpfsOpen name with
  | some i => (Function.update fs i
      { fs i with data := fun _ => 0, size := 0, capacity := 0, inUse := false }, 0)
  | none => (fs, -1)

/-- `tmpfs_get_entry`. -/
def tmpfsGetEntry (fs : Tmpfs) (index : Nat) : Option (List UInt8 × Nat) :=
  if tmpfsMaxFiles ≤ index then none
  else if (fs index).inUse = false then none
  else some ((fs index).name.take 99, (fs index).size)

end Tmpfs

end GenOS
