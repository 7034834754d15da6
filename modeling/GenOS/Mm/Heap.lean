import GenOS.Lib.Bytes
import GenOS.Mm.Vmm

/-!
# The kernel heap

`mm/heap.c`. A `struct heap_block` is 32 bytes of the kernel's virtual memory: `size` at offset 0,
`free` at 8, `next` at 16, then padding. `Heap.bytes` is that memory, by virtual address; the frames
behind it are mapped and unmapped through `Phys`. `HEAP_INITIAL_SIZE` and `HEAP_GROW_SIZE` are both
65536 bytes, 16 pages. The list walks take fuel, and `none` says that it ran out.
-/

namespace GenOS

/-- `HEAP_START_VIRTUAL`. -/
abbrev heapStart : Nat := 0xFFFFC00000000000

/-- The static variables of `heap.c`, and the memory they live in. -/
structure Heap where
  phys : Phys
  bytes : Bytes.Mem
  head : Nat
  fin : Nat

/-! ## Block headers -/

namespace HeapBlock

/-- `block->size`. -/
def size (m : Bytes.Mem) (block : Nat) : Nat := Bytes.load m block 8
/-- `block->free`, as a truth value. -/
def free (m : Bytes.Mem) (block : Nat) : Bool := Bytes.load m (block + 8) 4 != 0
/-- `block->next`. -/
def next (m : Bytes.Mem) (block : Nat) : Nat := Bytes.load m (block + 16) 8

def setSize (m : Bytes.Mem) (block v : Nat) : Bytes.Mem := Bytes.store m block 8 v
def setFree (m : Bytes.Mem) (block v : Nat) : Bytes.Mem := Bytes.store m (block + 8) 4 v
def setNext (m : Bytes.Mem) (block v : Nat) : Bytes.Mem := Bytes.store m (block + 16) 8 v

/-! ## Writes to the list -/

/-- `p->size += sizeof(struct heap_block) + c->size; p->next = c->next;` -/
def absorb (m : Bytes.Mem) (p c : Nat) : Bytes.Mem :=
  let m := setSize m p (size m p + 32 + size m c)
  setNext m p (next m c)

/-- The forward coalescing of `kfree`. -/
def coalesceNext (m : Bytes.Mem) (block : Nat) : Bytes.Mem :=
  if next m block ≠ 0 && free m (next m block) then absorb m block (next m block) else m

/-- What `kmalloc` writes into the block it takes. -/
def takeBlock (m : Bytes.Mem) (curr want : Nat) : Bytes.Mem :=
  let m :=
    if size m curr > want + 32 then
      let new := curr + 32 + want
      let m := setFree m new 1
      let m := setSize m new (size m curr - want - 32)
      let m := setNext m new (next m curr)
      let m := setSize m curr want
      setNext m curr new
    else m
  setFree m curr 0

/-- What `heap_grow` writes once the pages are there. -/
def appendBlock (m : Bytes.Mem) (last new : Nat) : Bytes.Mem :=
  let m := setNext (setFree (setSize m new (65536 - 32)) new 1) new 0
  let m := setNext m last new
  if free m last then setNext (setSize m last (size m last + 32 + size m new)) last 0 else m

/-! ## List walks -/

/-- The first free block of at least `want` bytes. -/
def findFit (m : Bytes.Mem) (want : Nat) : (fuel curr : Nat) → Option Nat
  | 0, _ => none
  | fuel + 1, curr =>
    if curr = 0 then some 0
    else if free m curr && decide (want ≤ size m curr) then some curr
    else findFit m want fuel (next m curr)

/-- The last block. -/
def findLast (m : Bytes.Mem) : (fuel last : Nat) → Option Nat
  | 0, _ => none
  | fuel + 1, last => if next m last = 0 then some last else findLast m fuel (next m last)

/-- The block before `block`. -/
def findPrev (m : Bytes.Mem) (block : Nat) : (fuel prev walk : Nat) → Option Nat
  | 0, _, _ => none
  | fuel + 1, prev, walk =>
    if walk = 0 ∨ walk = block then some prev else findPrev m block fuel walk (next m walk)

end HeapBlock

namespace Heap

open HeapBlock

/-- More steps than there are blocks. -/
def fuel (h : Heap) : Nat := h.fin - heapStart + 1

/-! ## Growth -/

/-- The loop that obtains and maps pages, `left` of them from page `i` of the new range on. The
result is the page that failed. -/
def growLoop (fin : Nat) : (left i : Nat) → Phys → Option Nat × Phys
  | 0, _, s => (none, s)
  | left + 1, i, s =>
    let (frame, s) := s.allocFrame
    if frame = 0 then (some i, s)
    else
      let (ok, s) := s.vmmMapPage (fin + i * 4096) (BitVec.ofNat 64 frame) 3#64
      if ok then growLoop fin left (i + 1) s else (some i, s.freeFrame frame)

/-- The `rollback` of `heap_grow`: unmap and free the first `i` pages, the last one first. -/
def growRollback (fin : Nat) : (i : Nat) → Phys → Phys
  | 0, s => s
  | i + 1, s =>
    let (phys, s) := s.vmmUnmapPage (fin + i * 4096)
    growRollback fin i (if phys ≠ 0#64 then s.freeFrame phys.toNat else s)

def heapGrow (h : Heap) : Option (Bool × Heap) :=
  if h.fin > 2 ^ 64 - 1 - 65536 then some (false, h)
  else do
    let last ← findLast h.bytes h.fuel h.head
    match growLoop h.fin 16 0 h.phys with
    | (some i, phys) => some (false, { h with phys := growRollback h.fin i phys })
    | (none, phys) =>
      let bytes := appendBlock h.bytes last h.fin
      some (true, { h with phys, bytes, fin := h.fin + 65536 })

/-! ## Allocation -/

/-- The `retry` loop of `kmalloc`. -/
def kmallocLoop (want : Nat) : (retries : Nat) → Heap → Option (Nat × Heap)
  | 0, _ => none
  | retries + 1, h => do
    let curr ← findFit h.bytes want h.fuel h.head
    if curr ≠ 0 then
      some (curr + 32, { h with bytes := takeBlock h.bytes curr want })
    else do
      let (grown, h) ← h.heapGrow
      if grown then kmallocLoop want retries h else some (0, h)

/-- `(size + 15) & ~15`. -/
def roundUp (size : Nat) : Nat := (size + 15) / 16 * 16

/-- One more retry than there is address space to grow into. -/
def retries (h : Heap) : Nat := (2 ^ 64 - 1 - h.fin) / 65536 + 1

def kmalloc (h : Heap) (size : Nat) : Option (Nat × Heap) :=
  if size = 0 ∨ size > 2 ^ 64 - 1 - 15 - 32 then some (0, h)
  else kmallocLoop (roundUp size) h.retries h

/-! ## Release -/

def kfree (h : Heap) (ptr : Nat) : Option Heap :=
  if ptr = 0 then some h
  else do
    let block := ptr - 32
    let m := setFree h.bytes block 1
    let prev ← findPrev m block h.fuel 0 h.head
    let (block, m) := if prev ≠ 0 && free m prev then (prev, absorb m prev block) else (block, m)
    some { h with bytes := coalesceNext m block }

def krealloc (h : Heap) (ptr newSize : Nat) : Option (Nat × Heap) :=
  if ptr = 0 then h.kmalloc newSize
  else if newSize = 0 then (h.kfree ptr).map ((0, ·))
  else
    let oldSize := size h.bytes (ptr - 32)
    if newSize ≤ oldSize then some (ptr, h)
    else do
      let (newPtr, h) ← h.kmalloc newSize
      if newPtr = 0 then some (0, h)
      else do
        let h ← { h with bytes := Bytes.copy h.bytes newPtr ptr oldSize }.kfree ptr
        some (newPtr, h)

/-- `heap_init`, over arbitrary contents of the heap's memory; `none` is the halt when a page cannot
be obtained or mapped. -/
def heapInit (phys : Phys) (bytes : Bytes.Mem) : Option Heap :=
  match growLoop heapStart 16 0 phys with
  | (some _, _) => none
  | (none, phys) =>
    let bytes := setSize bytes heapStart (65536 - 32)
    let bytes := setNext (setFree bytes heapStart 1) heapStart 0
    some { phys, bytes, head := heapStart, fin := heapStart + 65536 }

end Heap

end GenOS
