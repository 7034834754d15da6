import GenOS.Mm.Cow
import GenOS.Mm.Shm

/-!
# Cloning an address space

The fork half of `mm/cow.c`, with `user_allocations_clone` and `user_memory_release` of
`mm/user_memory.c`. The child is not in the task list: it is an argument and a result. `none` says
that a walk of the kernel heap's list never ends, or that the commit loop follows a null pointer.
-/

namespace GenOS

open Phys

/-- The loop of `user_allocations_clone`. -/
def cloneAllocations : List UserAllocation → HeapClient → UserTask →
    Option (Bool × HeapClient × UserTask)
  | [], c, child => some (true, c, child)
  | a :: as, c, child => do
    let (copy, c) ← c.kmalloc 32
    if copy = 0 then some (false, c, child)
    else cloneAllocations as c { child with
      allocations := child.allocations ++ [a]
      allocationBlocks := child.allocationBlocks ++ [copy] }

/-- `user_allocations_clone`. -/
def userAllocationsClone (c : HeapClient) (parent : Owner) (child : UserTask) :
    Option (Bool × HeapClient × UserTask) :=
  if child.allocations ≠ [] then some (false, c, child)
  else cloneAllocations parent.allocations c child

/-- The blocks of a list go back to the kernel heap. -/
def freeBlocks : List Nat → HeapClient → Option HeapClient
  | [], c => some c
  | p :: ps, c => do
    let c ← c.kfree p
    freeBlocks ps c

/-- `user_memory_release`. -/
def userMemoryRelease (c : HeapClient) (t : UserTask) : Option (HeapClient × UserTask) :=
  if t.isThread then some (c, t)
  else do
    let c := c.setPhys ((t.userPages.map PageRecord.phys).foldl freeFrame c.phys)
    let c ← if t.pagesBlock ≠ 0 then c.kfree t.pagesBlock else some c
    let c ← freeBlocks t.allocationBlocks c
    some (c, { t with
      userPages := [], allocations := [], allocationBlocks := [], pagesBlock := 0
      userPageCapacity := userInlinePages })

/-- `pmm_ref_page`. -/
def Phys.refFrame (s : Phys) (frame : Nat) : Bool × Phys :=
  ((s.pmm.pmmRefPage frame).1, { s with pmm := (s.pmm.pmmRefPage frame).2 })

/-- The flags of a private page in the child, and in the parent after the commit. -/
def cowShare (flags : Word) : Word :=
  if flags.has (pteWrite ||| pteCow) then flags &&& ~~~pteWrite ||| pteCow else flags

/-- `clone_page`: the state is physical memory and the records of the child. -/
def clonePage (m : Shm) (owner child : Owner) (va : Nat) (entry : Word)
    (x : Phys × List PageRecord) : Bool × (Phys × List PageRecord) :=
  let phys := (vmmPteAddress entry).toNat
  let flags := entry &&& pteFlagMask
  if !flags.has pteUser then (false, x)
  else
    match privateIndex owner va phys with
    | none =>
      if flags.has pteCow ∨ shmOwnsMapping m owner va phys = false then (false, x)
      else
        let (ok, s) := x.1.vmmMapPageIn child.pml4 va (BitVec.ofNat 64 phys) flags
        (ok, s, x.2)
    | some _ =>
      if child.userPageCapacity ≤ x.2.length then (false, x)
      else
        match x.1.refFrame phys with
        | (false, s) => (false, s, x.2)
        | (true, s) =>
          match s.vmmMapPageIn child.pml4 va (BitVec.ofNat 64 phys) (cowShare flags) with
          | (false, s) => (false, s.freeFrame phys, x.2)
          | (true, s) => (true, s, x.2 ++ [⟨phys, va⟩])

/-- The commit loop of `cow_clone_address_space`. -/
def cowCommit (pml4 : Nat) : List PageRecord → Phys → Option Phys
  | [], s => some s
  | p :: ps, s =>
    match s.vmmPteIn pml4 p.vaddr with
    | none => none
    | some (table, slot) =>
      let pte := s.mem table slot
      cowCommit pml4 ps
        (if pte.has (pteWrite ||| pteCow) then s.store table slot (pte &&& ~~~pteWrite ||| pteCow)
        else s)

/-- What `cow_clone_address_space` does once the child has room for the records and its
allocations. -/
def clonePages (c : HeapClient) (m : Shm) (owner : Owner) (child : UserTask) :
    Option (Bool × HeapClient × Shm × UserTask) :=
  let (visited, s, records) := visitTable (fun x => x.1.mem) (clonePage m owner child.toOwner) 3 256
    owner.pml4 0 (c.phys, child.userPages)
  let c := c.setPhys s
  let child := { child with userPages := records }
  if !visited ∨ child.userPages.length ≠ owner.userPages.length then some (false, c, m, child)
  else
    match shmInheritAttachments c.phys m owner child.toOwner with
    | (false, m, _) => some (false, c, m, child)
    | (true, m, inherited) => do
      let s ← cowCommit owner.pml4 child.userPages c.phys
      some (true, c.setPhys s, m, { child with toOwner := inherited })

/-- `cow_clone_address_space`; `owner` is the owner of the parent's memory. -/
def cowCloneAddressSpace (c : HeapClient) (m : Shm) (owner : Option Owner) (child : UserTask) :
    Option (Bool × HeapClient × Shm × UserTask) :=
  match owner with
  | none => some (false, c, m, child)
  | some owner =>
    if owner.pml4 = 0 ∨ userMaxPages.toNat < owner.userPages.length ∨ child.pml4 = 0 ∨
        child.userPages ≠ [] then some (false, c, m, child)
    else do
      let (room, c, child) ← userPagesReserve c child owner.userPages.length
      if !room then some (false, c, m, child)
      else do
        let (cloned, c, child) ← userAllocationsClone c owner child
        if !cloned then some (false, c, m, child)
        else clonePages c m owner child

end GenOS
