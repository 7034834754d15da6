import GenOS.Mm.Pmm
import GenOS.Mm.Pte
import GenOS.Lib.Radix

/-!
# The virtual memory manager

`mm/vmm.c`: four-level page tables in physical frames. A table pointer is the physical address of
its frame (the source adds the direct-map offset, which is the same for every frame); `0` is
`NULL`. `Phys.mem f i` is word `i` of the frame at address `f`, whatever the frame is used for.

The allocator can be told to fail: `deny n` makes the `n`-th request for a frame fail, on top of
the failures of an allocator without free frames. Shootdowns and the preemption guard change no
memory and are left out.
-/

namespace GenOS

/-- Physical memory and the allocator that hands it out. -/
structure Phys where
  pmm : Pmm
  mem : Nat → Nat → Word
  kernelPml4 : Nat
  deny : Nat → Bool
  asked : Nat

namespace Phys

/-- `pmm_alloc_page`, under the failure schedule. -/
def allocFrame (s : Phys) : Nat × Phys :=
  if s.deny s.asked then (0, { s with asked := s.asked + 1 })
  else (s.pmm.pmmAllocPage.1, { s with pmm := s.pmm.pmmAllocPage.2, asked := s.asked + 1 })

/-- `pmm_free_page`. -/
def freeFrame (s : Phys) (frame : Nat) : Phys := { s with pmm := s.pmm.pmmFreePage frame }

/-- `table[i] = w`. -/
def store (s : Phys) (table i : Nat) (w : Word) : Phys :=
  { s with mem := Radix.put s.mem table i w }

/-- Set every word of a frame to zero. -/
def zeroFrame (s : Phys) (frame : Nat) : Phys :=
  { s with mem := Cells.set s.mem frame fun _ => 0#64 }

/-! ## Addresses -/

/-- A 64-bit address in one of the two halves. -/
def canonical (va : Nat) : Bool :=
  decide (va < 0x800000000000) || decide (0xFFFF800000000000 ≤ va ∧ va < 2 ^ 64)

def indexAt (va level : Nat) : Nat := va / 2 ^ (12 + 9 * level) % 512

/-- `vmm_pte_address(entry)` as a table pointer: `table_at`. -/
def tableAt (entry : Word) : Nat := (vmmPteAddress entry).toNat

/-- `count` is the source's `uint32_t`, so `count * PAGE_SIZE` does not wrap. -/
def validRange (base count : Nat) : Bool :=
  let bytes := count * 4096
  count != 0 && base % 4096 == 0 && canonical base && decide (bytes - 1 ≤ 2 ^ 64 - 1 - base) &&
    canonical (base + bytes - 1)

/-! ## Mapping -/

/-- The entry `map_page` makes for a new table. -/
def tableEntry (frame : Nat) : Word :=
  BitVec.ofNat 64 frame ||| ptePresent ||| pteWrite ||| pteUser

/-- An ancestor that `map_page` refuses: a huge leaf, or one that lacks a permission of `flags`. -/
def refused (flags entry : Word) : Bool :=
  entry.has pteLarge || (flags.has pteUser && !entry.has pteUser) ||
    (flags.has pteWrite && !entry.has pteWrite) || (!flags.has pteNx && entry.has pteNx)

/-- The loop of `map_page`, from a table of level `level` down. `created` holds the new slots, the
last one first; no table is the jump to `rollback`. -/
def mapWalk (va : Nat) (flags : Word) :
    (level table : Nat) → List (Nat × Nat) → Phys → Option Nat × List (Nat × Nat) × Phys
  | 0, table, created, s => (some table, created, s)
  | level + 1, table, created, s =>
    let slot := indexAt va (level + 1)
    if (s.mem table slot).has ptePresent then
      if refused flags (s.mem table slot) then (none, created, s)
      else mapWalk va flags level (tableAt (s.mem table slot)) created s
    else
      let (frame, s) := s.allocFrame
      if frame = 0 then (none, created, s)
      else
        let s := (s.zeroFrame frame).store table slot (tableEntry frame)
        mapWalk va flags level (tableAt (s.mem table slot)) ((table, slot) :: created) s

/-- The first loop of `rollback`: clear the new slots, the last one first. -/
def clearCreated : List (Nat × Nat) → List Nat → Phys → List Nat × Phys
  | [], retired, s => (retired, s)
  | (table, slot) :: created, retired, s =>
    clearCreated created (tableAt (s.mem table slot) :: retired) (s.store table slot 0#64)

/-- `rollback`: then free the tables they pointed to. -/
def rollback (s : Phys) (created : List (Nat × Nat)) : Phys :=
  let (retired, s) := clearCreated created [] s
  retired.foldl freeFrame s

def mapPage (s : Phys) (pml4 va : Nat) (phys flags : Word) : Bool × Phys :=
  if pml4 = 0 || !canonical va || va % 4096 != 0 || phys.has (~~~pteAddrMask) ||
      !flags.has ptePresent || flags.has (~~~pteFlagMask) ||
      (flags.has pteUser && decide (0x800000000000 ≤ va)) then (false, s)
  else
    match mapWalk va flags 3 pml4 [] s with
    | (none, created, s) => (false, s.rollback created)
    | (some table, created, s) =>
      if (s.mem table (indexAt va 0)).has ptePresent then (false, s.rollback created)
      else (true, s.store table (indexAt va 0) (phys ||| flags))

/-- `vmm_map_page_in`. -/
def vmmMapPageIn (s : Phys) (pml4 va : Nat) (phys flags : Word) : Bool × Phys :=
  s.mapPage pml4 va phys flags

/-- `vmm_map_page`. -/
def vmmMapPage (s : Phys) (va : Nat) (phys flags : Word) : Bool × Phys :=
  s.vmmMapPageIn s.kernelPml4 va phys flags

/-! ## Lookups -/

/-- Follow `va` down from a table of level `level`; `slots` collects the slots read, the last one
first. -/
def descend (s : Phys) (va : Nat) :
    (level table : Nat) → List (Nat × Nat) → Option (Nat × List (Nat × Nat))
  | 0, table, slots => some (table, slots)
  | level + 1, table, slots =>
    let slot := indexAt va (level + 1)
    if !(s.mem table slot).has ptePresent || (s.mem table slot).has pteLarge then none
    else descend s va level (tableAt (s.mem table slot)) ((table, slot) :: slots)

/-- `vmm_pte_in`: the slot of a 4 KiB leaf. -/
def vmmPteIn (s : Phys) (pml4 va : Nat) : Option (Nat × Nat) :=
  if pml4 = 0 || !canonical va then none
  else
    match s.descend va 3 pml4 [] with
    | none => none
    | some (table, _) =>
      if (s.mem table (indexAt va 0)).has ptePresent then some (table, indexAt va 0) else none

/-- `vmm_get_physical_in`: the frame address and the flags, zero where nothing is mapped. -/
def vmmGetPhysicalIn (s : Phys) (pml4 va : Nat) : Word × Word :=
  match s.vmmPteIn pml4 va with
  | none => (0#64, 0#64)
  | some (table, slot) =>
    (vmmPteAddress (s.mem table slot), s.mem table slot &&& pteFlagMask)

/-- The loop of `vmm_user_accessible`, from a table of level `level` down. -/
def userWalk (s : Phys) (va : Nat) (write : Bool) : (level table : Nat) → Bool
  | 0, table =>
    let entry := s.mem table (indexAt va 0)
    if entry &&& (ptePresent ||| pteUser) != ptePresent ||| pteUser then false
    else !(write && !entry.has (pteWrite ||| pteCow))
  | level + 1, table =>
    let entry := s.mem table (indexAt va (level + 1))
    if entry &&& (ptePresent ||| pteUser) != ptePresent ||| pteUser then false
    else if entry.has pteLarge || (write && !entry.has pteWrite) then false
    else userWalk s va write level (tableAt entry)

/-- `vmm_user_accessible`. -/
def vmmUserAccessible (s : Phys) (pml4 va : Nat) (write : Bool) : Bool :=
  if pml4 = 0 || decide (0x800000000000 ≤ va) then false else s.userWalk va write 3 pml4

/-! ## Unmapping -/

def emptyTable (s : Phys) (table : Nat) : Bool :=
  (List.range 512).all fun i => !(s.mem table i).has ptePresent

/-- The pruning loop of the two unmappers. `slots` are the slots above a cleared leaf, the last one
first; `push` puts a table into the retirement buffer. The tables of the kernel half are copied into
every address space, so the loop stops below the root slot there. -/
def prune {β : Type} (push : Nat → β → Phys → β × Phys) (va : Nat) :
    List (Nat × Nat) → β → Phys → β × Phys
  | [], retired, s => (retired, s)
  | (table, slot) :: slots, retired, s =>
    if slots.isEmpty && decide (0xFFFF800000000000 ≤ va) then (retired, s)
    else if !s.emptyTable (tableAt (s.mem table slot)) then (retired, s)
    else
      let (retired, s) := push (tableAt (s.mem table slot)) retired (s.store table slot 0#64)
      prune push va slots retired s

def releaseTables (s : Phys) (retired : List Nat) : Phys := retired.foldl freeFrame s

/-- The retirement buffer of the range unmapper: an index past the end cannot be built. -/
abbrev Retired : Type := { l : List Nat // l.length < 16 }

/-- Retire one table; a full buffer is released at once. -/
def retireTable (frame : Nat) (retired : Retired) (s : Phys) : Retired × Phys :=
  if h : retired.1.length + 1 = 16 then (⟨[], by decide⟩, s.releaseTables (frame :: retired.1))
  else (⟨frame :: retired.1, by have := retired.2; simp only [List.length_cons]; omega⟩, s)

/-- The body of the loop over the page tables of a range. -/
def pruneChunk (pml4 : Nat) (acc : Retired × Phys) (va : Nat) : Retired × Phys :=
  match acc.2.descend va 3 pml4 [] with
  | none => acc
  | some (_, slots) => prune retireTable va slots acc.1 acc.2

/-- The addresses at which the loop over the page tables runs its body: from `va` on, one for each
2 MiB, up to the one of `last`. -/
def chunks : (fuel va last : Nat) → Option (List Nat)
  | 0, _, _ => none
  | fuel + 1, va, last =>
    if va / 2 ^ 21 = last / 2 ^ 21 then some [va]
    else (chunks fuel (((va ||| (2 ^ 21 - 1)) + 1) % 2 ^ 64) last).map (va :: ·)

/-- The body of the loop that clears the leaves. -/
def clearLeaf (pml4 base : Nat) (acc : Nat × Phys) (i : Nat) : Nat × Phys :=
  match acc.2.vmmPteIn pml4 (base + i * 4096) with
  | none => acc
  | some (table, slot) => (acc.1 + 1, acc.2.store table slot 0#64)

/-- `vmm_unmap_pages_in`. The loop over the page tables needs at most `count` rounds
(`chunks_eq`). -/
def vmmUnmapPagesIn (s : Phys) (pml4 base count : Nat) : Nat × Phys :=
  if pml4 = 0 || !validRange base count then (0, s)
  else
    let (removed, s) := (List.range count).foldl (clearLeaf pml4 base) (0, s)
    if removed = 0 then (0, s)
    else
      let vas := (chunks count base (base + (count - 1) * 4096)).getD []
      let (retired, s) := vas.foldl (pruneChunk pml4) (⟨[], by decide⟩, s)
      (removed, s.releaseTables retired.1)

/-- `vmm_unmap_page_in`: the frame address of the leaf, zero if there was none. -/
def vmmUnmapPageIn (s : Phys) (pml4 va : Nat) : Word × Phys :=
  if pml4 = 0 || !canonical va || va % 4096 != 0 then (0#64, s)
  else
    match s.descend va 3 pml4 [] with
    | none => (0#64, s)
    | some (table, slots) =>
      let leaf := s.mem table (indexAt va 0)
      if !leaf.has ptePresent then (0#64, s)
      else
        let (retired, s) := prune (fun frame retired s => (frame :: retired, s)) va slots []
          (s.store table (indexAt va 0) 0#64)
        (vmmPteAddress leaf, retired.foldl freeFrame s)

/-- `vmm_unmap_page`. -/
def vmmUnmapPage (s : Phys) (va : Nat) : Word × Phys := s.vmmUnmapPageIn s.kernelPml4 va

/-- The loop of `vmm_map_pages_in`, from page `i` on; the result is the page that failed. -/
def mapLoop (pml4 base : Nat) (flags : Word) : List Word → Nat → Phys → Option Nat × Phys
  | [], _, s => (none, s)
  | phys :: pages, i, s =>
    let (ok, s) := s.mapPage pml4 (base + i * 4096) phys flags
    if ok then mapLoop pml4 base flags pages (i + 1) s else (some i, s)

/-- `vmm_map_pages_in`, `pages` being the `count` entries of the array. -/
def vmmMapPagesIn (s : Phys) (pml4 base : Nat) (pages : List Word) (flags : Word) : Bool × Phys :=
  if pml4 = 0 || !validRange base pages.length then (false, s)
  else
    match mapLoop pml4 base flags pages 0 s with
    | (none, s) => (true, s)
    | (some i, s) => (false, if i = 0 then s else (s.vmmUnmapPagesIn pml4 base i).2)

/-! ## Address spaces -/

def vmmCreateAddressSpace (s : Phys) : Nat × Phys :=
  let (phys, s) := s.allocFrame
  if phys = 0 then (0, s)
  else
    (phys, { s with mem := Cells.set s.mem phys fun i =>
      if i < 256 then 0#64 else s.mem s.kernelPml4 i })

/-- `free_tables`: the tables below `table`, then `table`. Huge leaves are skipped. -/
def freeTables : (level limit table : Nat) → Phys → Phys
  | 0, _, table, s => s.freeFrame table
  | level + 1, limit, table, s =>
    let s := (List.range limit).foldl (fun s i =>
      if !(s.mem table i).has ptePresent || (s.mem table i).has pteLarge then s
      else freeTables level 512 (tableAt (s.mem table i)) s) s
    s.freeFrame table

def vmmDestroyAddressSpace (s : Phys) (pml4 : Nat) : Phys :=
  if pml4 ≠ 0 ∧ pml4 ≠ s.kernelPml4 then freeTables 3 256 pml4 s else s

/-- `visit_table`, for a callback on any state that holds the memory. It stops at the first huge
leaf and at the first page the callback rejects. -/
def visitTable {σ : Type} (mem : σ → Nat → Nat → Word) (visit : Nat → Word → σ → Bool × σ) :
    (level limit table base : Nat) → σ → Bool × σ
  | 0, limit, table, base, x =>
    (List.range limit).foldl (fun acc i =>
      if !acc.1 then acc
      else
        let entry := mem acc.2 table i
        if !entry.has ptePresent then acc
        else visit (base ||| i * 2 ^ 12) entry acc.2) (true, x)
  | level + 1, limit, table, base, x =>
    (List.range limit).foldl (fun acc i =>
      if !acc.1 then acc
      else
        let entry := mem acc.2 table i
        if !entry.has ptePresent then acc
        else if entry.has pteLarge then (false, acc.2)
        else visitTable mem visit level 512 (tableAt entry)
          (base ||| i * 2 ^ (12 + 9 * (level + 1)))
          acc.2) (true, x)

end Phys

end GenOS
