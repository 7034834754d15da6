import Mathlib.Data.BitVec
import Mathlib.Data.List.Basic
import GenOS.Lib.Cells

/-!
# The physical memory manager

`mm/pmm.c`: one bit and one 32-bit reference count per 4 KiB frame, both stored in the first usable
region that can hold them. `Pmm` is the file's static state; each function keeps the source's name.
A pointer is a `Nat`, `0` is `NULL`, and a frame is named by its index or by its physical address
(`index * 4096`, `PAGE_SIZE` is `4096` throughout). The counters are `Nat`s; the sums that can wrap
(`base + length`, the rounding of the highest address) carry their `% 2 ^ 64`.
-/

namespace GenOS

/-- `UINT32_MAX`: the count of a reserved frame. -/
abbrev uint32Max : Nat := 4294967295

/-- `LIMINE_MEMMAP_USABLE`. -/
abbrev limineMemmapUsable : Nat := 0
/-- `LIMINE_MEMMAP_BOOTLOADER_RECLAIMABLE`. -/
abbrev limineMemmapBootloaderReclaimable : Nat := 5
/-- `LIMINE_MEMMAP_KERNEL_AND_MODULES`. -/
abbrev limineMemmapKernelAndModules : Nat := 6

/-- `struct limine_memmap_entry`. -/
structure MemmapEntry where
  base : UInt64
  length : UInt64
  type : UInt64
  deriving DecidableEq, Repr

/-- `base + length`, in 64 bits. -/
def MemmapEntry.top (e : MemmapEntry) : Nat := (e.base.toNat + e.length.toNat) % 2 ^ 64

/-- The static variables of `pmm.c`. -/
structure Pmm where
  bitmap : Nat → BitVec 8
  bitmapSize : Nat
  totalPages : Nat
  freePages : Nat
  refcounts : Nat → Nat
  lastAllocIndex : Nat

namespace Pmm

def bitmapSet (s : Pmm) (bit : Nat) : Pmm :=
  { s with bitmap := Cells.set s.bitmap (bit / 8) (s.bitmap (bit / 8) ||| 1#8 <<< (bit % 8)) }

def bitmapClear (s : Pmm) (bit : Nat) : Pmm :=
  { s with bitmap :=
      Cells.set s.bitmap (bit / 8) (s.bitmap (bit / 8) &&& ~~~(1#8 <<< (bit % 8))) }

def bitmapTest (s : Pmm) (bit : Nat) : Bool := s.bitmap (bit / 8) &&& 1#8 <<< (bit % 8) != 0#8

/-- `refcounts[page] = n`. -/
def setRef (s : Pmm) (page n : Nat) : Pmm :=
  { s with refcounts := Cells.set s.refcounts page n }

/-! ## Initialisation -/

/-- One round of the loop that computes `highest_address`, over the entries that hold RAM. -/
def raiseHighest (highest : Nat) (e : MemmapEntry) : Nat :=
  let type := e.type.toNat % 2 ^ 32  -- the source narrows it to `int`
  if type = limineMemmapUsable ∨ type = limineMemmapBootloaderReclaimable ∨
      type = limineMemmapKernelAndModules then
    if e.top > highest then e.top else highest
  else highest

def highestAddress (entries : List MemmapEntry) : Nat := entries.foldl raiseHighest 0

/-- `(bytes + PAGE_SIZE - 1) / PAGE_SIZE`, in 64 bits. -/
def pagesFor (bytes : Nat) : Nat := (bytes + 4096 - 1) % 2 ^ 64 / 4096

/-- The first whole page of an entry. Page `0` is skipped: `NULL` is the allocation failure. -/
def firstPage (e : MemmapEntry) : Nat :=
  let first := pagesFor e.base.toNat
  if first = 0 then 1 else first

/-- Where `pmm_init` puts its metadata: the first page of the first usable entry that holds
`pages` whole pages, as an address; `0` if there is none. -/
def metadataPhys (pages : Nat) : List MemmapEntry → Nat
  | [] => 0
  | e :: entries =>
    if e.type.toNat ≠ limineMemmapUsable then metadataPhys pages entries
    else
      let start := firstPage e * 4096
      let fin := e.top / 4096 * 4096
      if start ≤ fin ∧ pages * 4096 ≤ fin - start then start
      else metadataPhys pages entries

/-- The frame count of a memory map. -/
def mapPages (entries : List MemmapEntry) : Nat := pagesFor (highestAddress entries)

/-- The pages of the bitmap and, from the next multiple of four bytes on, the counts. -/
def metadataPages (entries : List MemmapEntry) : Nat :=
  let bitmapSize := (mapPages entries + 7) / 8
  let refsOffset := (bitmapSize + 3) / 4 * 4
  pagesFor (refsOffset + mapPages entries * 4)

/-- The fill loops: every frame set and reserved. -/
def reserveAll (s : Pmm) (totalPages : Nat) : Pmm :=
  { s with
    totalPages, bitmapSize := (totalPages + 7) / 8, freePages := 0
    bitmap := fun i => if i < (totalPages + 7) / 8 then 0xFF#8 else s.bitmap i
    refcounts := fun i => if i < totalPages then uint32Max else s.refcounts i }

/-- The body of the usable-page loop. -/
def markUsable (s : Pmm) (page : Nat) : Pmm :=
  let s := if s.bitmapTest page then { s with freePages := s.freePages + 1 } else s
  (s.bitmapClear page).setRef page 0

/-- The body of the metadata loop. -/
def markMetadata (s : Pmm) (page : Nat) : Pmm :=
  let s := (s.bitmapSet page).setRef page uint32Max
  { s with freePages := s.freePages - 1 }

/-- The pages the usable-page loop visits for one entry. -/
def usablePages (e : MemmapEntry) : List Nat :=
  if e.type.toNat ≠ limineMemmapUsable then []
  else List.range' (firstPage e) (e.top / 4096 - firstPage e)

/-- `pmm_init` on the boot-time statics `s` and a memory map; `none` is the halt after
`insufficient metadata memory`. `s.bitmap` and `s.refcounts` hold whatever the metadata pages
held before. -/
def pmmInit (s : Pmm) : Option (List MemmapEntry) → Option Pmm
  | none => some s
  | some entries =>
    let phys := metadataPhys (metadataPages entries) entries
    if phys = 0 then none
    else
      let s := (entries.flatMap usablePages).foldl markUsable (s.reserveAll (mapPages entries))
      some ((List.range' (phys / 4096) (metadataPages entries)).foldl markMetadata s)

/-- The statics before `pmm_init`, over arbitrary memory contents. -/
def boot (bitmap : Nat → BitVec 8) (refcounts : Nat → Nat) : Pmm :=
  { bitmap, refcounts, bitmapSize := 0, totalPages := 0, freePages := 0, lastAllocIndex := 0 }

/-! ## Allocation -/

/-- `pmm_alloc_page`: the first clear bit from the rotating hint on. -/
def pmmAllocPage (s : Pmm) : Nat × Pmm :=
  match (List.range s.totalPages).find? fun i =>
      !s.bitmapTest ((s.lastAllocIndex + i) % s.totalPages) with
  | none => (0, s)
  | some i =>
    let idx := (s.lastAllocIndex + i) % s.totalPages
    let s := (s.bitmapSet idx).setRef idx 1
    (idx * 4096, { s with freePages := s.freePages - 1, lastAllocIndex := idx + 1 })

/-- The scan of `pmm_alloc_contiguous_pages`: `left` bits remain from bit `i`, the last `run` of
them were clear, from `start` on. Returns the start of the first run of `count` clear bits. -/
def findRun (s : Pmm) (count : Nat) : (left i run start : Nat) → Option Nat
  | 0, _, _, _ => none
  | left + 1, i, run, start =>
    if !s.bitmapTest i then
      let start := if run = 0 then i else start
      if run + 1 = count then some start else findRun s count left (i + 1) (run + 1) start
    else findRun s count left (i + 1) 0 start

/-- The inner loop: take one frame of the run. -/
def takeFrame (s : Pmm) (idx : Nat) : Pmm := (s.bitmapSet idx).setRef idx 1

def pmmAllocContiguousPages (s : Pmm) (count : Nat) : Nat × Pmm :=
  if count = 0 ∨ count > s.freePages then (0, s)
  else if count = 1 then s.pmmAllocPage
  else
    match findRun s count s.totalPages 0 0 0 with
    | none => (0, s)
    | some start =>
      let s := (List.range' start count).foldl takeFrame s
      (start * 4096, { s with freePages := s.freePages - count })

/-! ## References -/

def allocatedFrame (s : Pmm) (phys : Nat) : Bool :=
  let page := phys / 4096
  phys != 0 && phys % 4096 == 0 && decide (page < s.totalPages) && s.bitmapTest page &&
    s.refcounts page != 0 && s.refcounts page != uint32Max

def pmmFreePage (s : Pmm) (phys : Nat) : Pmm :=
  if !s.allocatedFrame phys then s
  else
    let page := phys / 4096
    let s := s.setRef page (s.refcounts page - 1)
    if s.refcounts page ≠ 0 then s
    else
      let s := s.bitmapClear page
      { s with freePages := s.freePages + 1 }

def pmmRefPage (s : Pmm) (phys : Nat) : Bool × Pmm :=
  if !s.allocatedFrame phys then (false, s)
  else
    let page := phys / 4096
    if s.refcounts page = uint32Max - 1 then (false, s)
    else (true, s.setRef page (s.refcounts page + 1))

def pmmGetRefcount (s : Pmm) (phys : Nat) : Nat :=
  if s.allocatedFrame phys then s.refcounts (phys / 4096) else 0

/-! ## Runs -/

/-- A call of the allocator, with arbitrary arguments. -/
inductive Op where
  | allocPage
  | allocContiguous (count : Nat)
  | refPage (phys : Nat)
  | freePage (phys : Nat)
  deriving DecidableEq, Repr

/-- The state after a call. -/
def step (s : Pmm) : Op → Pmm
  | .allocPage => s.pmmAllocPage.2
  | .allocContiguous count => (s.pmmAllocContiguousPages count).2
  | .refPage phys => (s.pmmRefPage phys).2
  | .freePage phys => s.pmmFreePage phys

/-- The state after a sequence of calls. -/
def run (s : Pmm) (ops : List Op) : Pmm := ops.foldl step s

end Pmm

end GenOS
