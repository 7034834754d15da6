import GenOS.Lib.WordBytes
import GenOS.Mm.HeapPhys

/-!
# The user heap

The rest of `mm/user_memory.c`: `user_alloc`, `user_free` and `user_realloc`. `UserTask` is the
owner with its blocks on the kernel heap; what the code keeps in these blocks is in `Owner`. The
state is the kernel heap with physical memory. `none` says that a walk of the kernel heap's list
never ends.
-/

namespace GenOS

/-- `USER_HEAP_BASE`. -/
abbrev userHeapBase : Nat := 0x60000000

/-- `USER_HEAP_END`. -/
abbrev userHeapEnd : Nat := 0x68000000

/-- `USER_MAX_PAGES`. -/
abbrev userMaxPages : UInt32 := 65536

/-- `USER_INLINE_PAGES`. -/
abbrev userInlinePages : Nat := 32

/-- What user memory uses of `struct task`. -/
structure UserTask extends Owner where
  isThread : Bool
  /-- The block of the record arrays, zero while they are inline. -/
  pagesBlock : Nat
  /-- The blocks of the nodes of `allocations`, in the same order. -/
  allocationBlocks : List Nat
  deriving DecidableEq, Repr

namespace Phys

/-- `memcpy` between two frames. -/
def copyFrame (s : Phys) (dst src n : Nat) : Phys :=
  { s with mem := Cells.set s.mem dst (WordBytes.copy (s.mem dst) (s.mem src) n) }

/-- The frames of the records go back, the last one first. -/
def freeRecords (s : Phys) (records : List PageRecord) : Phys :=
  records.reverse.foldl (fun s p => s.freeFrame p.phys) s

/-- The first loop of `user_alloc`: `n` more zeroed pages, recorded from address `base + i * 4096`
on. -/
def takePages (base : Nat) : (n i : Nat) → Phys → List PageRecord → Bool × Phys × List PageRecord
  | 0, _, s, records => (true, s, records)
  | n + 1, i, s, records =>
    let (phys, s) := s.allocFrame
    if phys = 0 then (false, s, records)
    else takePages base n (i + 1) (s.zeroFrame phys) (records ++ [⟨phys, base + i * 4096⟩])

/-- `user_pages[i] = user_pages[--user_page_count]`. -/
def swapRemove (records : List PageRecord) (i : Nat) (h : i < records.length) : List PageRecord :=
  (records.set i (records.getLast (List.ne_nil_of_length_pos (Nat.zero_lt_of_lt h)))).dropLast

/-- The loop of `user_free` over the records, from record `i` on. -/
def removePages (base stop i : Nat) (s : Phys) (records : List PageRecord) :
    Phys × List PageRecord :=
  if h : i < records.length then
    if records[i].vaddr < base ∨ stop ≤ records[i].vaddr then
      removePages base stop (i + 1) s records
    else removePages base stop i (s.freeFrame records[i].phys) (swapRemove records i h)
  else (s, records)
termination_by records.length - i
decreasing_by
  · omega
  · simp only [swapRemove, List.length_dropLast, List.length_set]
    omega

/-- The loop of `user_realloc`: copy `bytes` bytes, a page at a time. -/
def copyPages (s : Phys) (pml4 base replacement bytes : Nat) : Phys :=
  (List.range ((bytes + 4095) / 4096)).foldl (fun s i =>
    let offset := i * 4096
    let src := (s.vmmGetPhysicalIn pml4 (base + offset)).1.toNat
    let dst := (s.vmmGetPhysicalIn pml4 (replacement + offset)).1.toNat
    s.copyFrame dst src (if bytes - offset < 4096 then bytes - offset else 4096)) s

end Phys

/-! ## Records -/

/-- `while (capacity < count) capacity *= 2;` The capacity is never zero. -/
def doubled (count capacity : Nat) : Nat :=
  if 0 < capacity ∧ capacity < count then doubled count (capacity * 2) else capacity
termination_by count - capacity
decreasing_by omega

/-- `user_pages_reserve`. -/
def userPagesReserve (c : HeapClient) (t : UserTask) (count : Nat) :
    Option (Bool × HeapClient × UserTask) :=
  if t.isThread ∨ userMaxPages.toNat < count then some (false, c, t)
  else if count ≤ t.userPageCapacity then some (true, c, t)
  else do
    let capacity := doubled count t.userPageCapacity
    let (data, c) ← c.kmalloc (capacity * 2 * 8)
    if data = 0 then some (false, c, t)
    else do
      let c ← if t.pagesBlock ≠ 0 then c.kfree t.pagesBlock else some c
      some (true, c, { t with pagesBlock := data, userPageCapacity := capacity })

/-! ## The heap calls -/

/-- What `user_alloc` does once it has the block `a` and room for the records. -/
def userPlace (c : HeapClient) (t : UserTask) (a size base : Nat) (pages : UInt32) :
    Option (Nat × HeapClient × UserTask) :=
  let before := t.userPages.length
  let rollback (s : Phys) (records : List PageRecord) := do
    let c ← (c.setPhys (s.freeRecords (records.drop before))).kfree a
    some (0, c, t)
  match Phys.takePages base pages.toNat 0 c.phys t.userPages with
  | (false, s, records) => rollback s records
  | (true, s, records) =>
    match s.vmmMapPagesIn t.pml4 base
      ((records.drop before).map fun p => BitVec.ofNat 64 p.phys) vmmFlagsUserData with
    | (false, s) => rollback s records
    | (true, s) => some (base, c.setPhys s,
        { t with
          userPages := records
          allocations := ⟨base, size, pages⟩ :: t.allocations
          allocationBlocks := a :: t.allocationBlocks })

/-- `user_alloc`; `t` is the owner of the caller's memory. -/
def userAlloc (c : HeapClient) (t : UserTask) (size : Nat) :
    Option (Nat × HeapClient × UserTask) :=
  if t.pml4 = 0 ∨ size = 0 ∨ userHeapEnd - userHeapBase - 4096 < size then some (0, c, t)
  else
    let pages : UInt32 := .ofNat ((size + 4095) / 4096)
    if pages > userMaxPages - .ofNat t.userPages.length then some (0, c, t)
    else
      let base := c.phys.userFindFreeRange t.toOwner userHeapBase userHeapEnd pages
      if base = 0 then some (0, c, t)
      else do
        let (a, c) ← c.kmalloc 32
        if a = 0 then some (0, c, t)
        else do
          let (room, c, t) ← userPagesReserve c t (t.userPages.length + pages.toNat)
          if room then userPlace c t a size base pages
          else do
            let c ← c.kfree a
            some (0, c, t)

/-- `user_free`. -/
def userFree (c : HeapClient) (t : UserTask) (base : Nat) : Option (Int × HeapClient × UserTask) :=
  if base = 0 then some (0, c, t)
  else if t.pml4 = 0 then some (-1, c, t)
  else
    match t.allocations.findIdx? (·.base == base) with
    | none => some (-1, c, t)
    | some k => do
      let pages := (t.allocations.getD k ⟨0, 0, 0⟩).pages.toNat
      let (_, s) := c.phys.vmmUnmapPagesIn t.pml4 base pages
      let (s, records) := Phys.removePages base (base + pages * 4096) 0 s t.userPages
      let c ← (c.setPhys s).kfree (t.allocationBlocks.getD k 0)
      some (0, c,
        { t with
          userPages := records
          allocations := t.allocations.eraseIdx k
          allocationBlocks := t.allocationBlocks.eraseIdx k })

/-- `user_realloc`. -/
def userRealloc (c : HeapClient) (t : UserTask) (base size : Nat) :
    Option (Nat × HeapClient × UserTask) :=
  if base = 0 then userAlloc c t size
  else if t.pml4 = 0 then some (0, c, t)
  else
    match t.allocations.find? (·.base == base) with
    | none => some (0, c, t)
    | some a =>
      if size = 0 then do
        let (_, c, t) ← userFree c t base
        some (0, c, t)
      else if size = a.size then some (base, c, t)
      else do
        let (replacement, c, t) ← userAlloc c t size
        if replacement = 0 then some (0, c, t)
        else do
          let bytes := if size < a.size then size else a.size
          let s := c.phys.copyPages t.pml4 base replacement bytes
          let (_, c, t) ← userFree (c.setPhys s) t base
          some (replacement, c, t)

end GenOS
