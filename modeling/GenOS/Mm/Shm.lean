import GenOS.Mm.UserHeap

/-!
# Shared memory

`mm/shm.c`. A segment's `phys_pages` array is a list as long as `page_count`; its block on the
kernel heap is `block`. The owner that a call works for is an argument: the code finds it by its pid
first. `none` says that a walk of the kernel heap's list never ends.
-/

namespace GenOS

open Phys

/-- `SHM_MAX_SEGMENTS`. -/
abbrev shmMaxSegments : Nat := 32

/-- `SHM_MAX_PAGES`. -/
abbrev shmMaxPages : Nat := 4096

/-- `SHM_MAX_ATTACH`. -/
abbrev shmMaxAttach : Nat := 16

/-- `USER_SHM_BASE`. -/
abbrev userShmBase : Nat := 0x90000000

/-- `USER_SHM_END`. -/
abbrev userShmEnd : Nat := 0xd0000000

/-- `INT32_MAX`. -/
abbrev int32Max : Nat := 2147483647

/-- `shm_segment_t`, all zero as `memset` leaves it. -/
structure ShmSegment where
  inUse : Bool := false
  shmid : Int := 0
  physPages : List Nat := []
  block : Nat := 0
  size : Nat := 0
  refcount : UInt32 := 0
  creatorPid : Nat := 0
  deriving DecidableEq, Repr

/-- The static variables of `shm.c`. -/
structure Shm where
  segments : List ShmSegment
  nextShmid : Nat
  deriving DecidableEq, Repr

/-- A slot without an attachment. -/
def ShmAttach.unused : ShmAttach := ⟨-1, 0, 0⟩

namespace Shm

/-- `shm_init`. -/
def init : Shm := ⟨List.replicate shmMaxSegments {}, 1⟩

/-- `segments[i]`. -/
def segment (m : Shm) (i : Nat) : ShmSegment := m.segments.getD i {}

/-- `segments[i] = s`. -/
def setSegment (m : Shm) (i : Nat) (s : ShmSegment) : Shm :=
  { m with segments := m.segments.set i s }

/-- `find_segment`. -/
def findSegment (m : Shm) (id : Int) : Option Nat :=
  m.segments.findIdx? fun s => s.inUse && s.shmid == id

end Shm

/-- `release_segment`. -/
def releaseSegment (c : HeapClient) (m : Shm) (i : Nat) : Option (HeapClient × Shm) := do
  let s := m.segment i
  let c ← (c.setPhys (s.physPages.foldl freeFrame c.phys)).kfree s.block
  some (c, m.setSegment i {})

/-- The loop of `shm_create`: `n` more zeroed pages. -/
def shmTakePages : (n : Nat) → Phys → List Nat → Bool × Phys × List Nat
  | 0, s, pages => (true, s, pages)
  | n + 1, s, pages =>
    let (phys, s) := s.allocFrame
    if phys = 0 then (false, s, pages) else shmTakePages n (s.zeroFrame phys) (pages ++ [phys])

/-- `shm_create`; `owner` is the pid of the owner that is found for `pid`. -/
def shmCreate (c : HeapClient) (m : Shm) (pid : Nat) (owner : Option Nat) (size : Nat) :
    Option (Int × HeapClient × Shm) :=
  if size = 0 ∨ shmMaxPages * 4096 < size ∨ int32Max < m.nextShmid then some (-1, c, m)
  else
    match m.segments.findIdx? fun s => !s.inUse with
    | none => some (-1, c, m)
    | some i => do
      let pages := (size + 4095) / 4096
      let (block, c) ← c.kmalloc (pages * 8)
      if block = 0 then some (-1, c, m)
      else
        match shmTakePages pages c.phys [] with
        | (false, s, physPages) => do
          let (c, m) ← releaseSegment (c.setPhys s) (m.setSegment i { physPages, block }) i
          some (-1, c, m)
        | (true, s, physPages) =>
          some (m.nextShmid, c.setPhys s, { (m.setSegment i
            { inUse := true, shmid := m.nextShmid, physPages, block, size, refcount := 0
              creatorPid := owner.getD pid }) with nextShmid := m.nextShmid + 1 })

/-- `shm_attach` for the owner `t`. -/
def shmAttach (c : HeapClient) (m : Shm) (t : UserTask) (id : Int) (pml4 : Nat) :
    Nat × HeapClient × Shm × UserTask :=
  match m.findSegment id with
  | none => (0, c, m, t)
  | some i =>
    let s := m.segment i
    if pml4 = 0 ∨ t.pml4 ≠ pml4 ∨ s.refcount = 4294967295 then (0, c, m, t)
    else
      match t.shmAttached.findIdx? fun a => decide (a.shmid < 0) with
      | none => (0, c, m, t)
      | some slot =>
        let count : UInt32 := .ofNat s.physPages.length
        let base := c.phys.userFindFreeRange t.toOwner userShmBase userShmEnd count
        if base = 0 then (0, c, m, t)
        else
          match c.phys.vmmMapPagesIn pml4 base (s.physPages.map (BitVec.ofNat 64))
            vmmFlagsUserData with
          | (false, p) => (0, c.setPhys p, m, t)
          | (true, p) => (base, c.setPhys p, m.setSegment i { s with refcount := s.refcount + 1 },
              { t with shmAttached := t.shmAttached.set slot ⟨id, base, count⟩ })

/-- `detach_record`. -/
def detachRecord (c : HeapClient) (m : Shm) (t : UserTask) (slot : Nat) :
    Option (HeapClient × Shm × UserTask) :=
  let a := t.shmAttached.getD slot .unused
  let c := c.setPhys (c.phys.vmmUnmapPagesIn t.pml4 a.vaddr a.pageCount.toNat).2
  let t := { t with shmAttached := t.shmAttached.set slot .unused }
  match m.findSegment a.shmid with
  | none => some (c, m, t)
  | some i =>
    let s := m.segment i
    let m := m.setSegment i { s with refcount := s.refcount - 1 }
    if s.refcount - 1 = 0 then do
      let (c, m) ← releaseSegment c m i
      some (c, m, t)
    else some (c, m, t)

/-- `shm_detach` for the owner `t`. -/
def shmDetach (c : HeapClient) (m : Shm) (t : UserTask) (base pml4 : Nat) :
    Option (Int × HeapClient × Shm × UserTask) :=
  if pml4 = 0 ∨ t.pml4 ≠ pml4 then some (-1, c, m, t)
  else
    match t.shmAttached.findIdx? fun a => decide (0 ≤ a.shmid) && a.vaddr == base with
    | none => some (-1, c, m, t)
    | some slot => do
      let (c, m, t) ← detachRecord c m t slot
      some (0, c, m, t)

/-- `shm_destroy`. -/
def shmDestroy (c : HeapClient) (m : Shm) (id : Int) : Option (Int × HeapClient × Shm) :=
  match m.findSegment id with
  | none => some (-1, c, m)
  | some i =>
    if (m.segment i).refcount ≠ 0 then some (-1, c, m)
    else do
      let (c, m) ← releaseSegment c m i
      some (0, c, m)

/-- The first loop of `shm_cleanup_process`, over the slots. -/
def detachSlots : List Nat → HeapClient → Shm → UserTask → Option (HeapClient × Shm × UserTask)
  | [], c, m, t => some (c, m, t)
  | slot :: slots, c, m, t =>
    if 0 ≤ (t.shmAttached.getD slot .unused).shmid then do
      let (c, m, t) ← detachRecord c m t slot
      detachSlots slots c m t
    else detachSlots slots c m t

/-- The second loop, over the segments. -/
def releaseCreated (pid : Nat) : List Nat → HeapClient → Shm → Option (HeapClient × Shm)
  | [], c, m => some (c, m)
  | i :: is, c, m =>
    if (m.segment i).inUse ∧ (m.segment i).creatorPid = pid ∧ (m.segment i).refcount = 0 then do
      let (c, m) ← releaseSegment c m i
      releaseCreated pid is c m
    else releaseCreated pid is c m

/-- `shm_cleanup_process` for a task with this pid. -/
def shmCleanupProcess (c : HeapClient) (m : Shm) (t : UserTask) (pid : Nat) :
    Option (HeapClient × Shm × UserTask) :=
  if t.isThread then some (c, m, t)
  else do
    let (c, m, t) ← detachSlots (List.range shmMaxAttach) c m t
    if pid ≠ 0 then do
      let (c, m) ← releaseCreated pid (List.range shmMaxSegments) c m
      some (c, m, t)
    else some (c, m, t)

/-- `shm_owns_mapping`. -/
def shmOwnsMapping (m : Shm) (owner : Owner) (va phys : Nat) : Bool :=
  owner.shmAttached.any fun a =>
    if a.shmid < 0 ∨ va < a.vaddr ∨ a.pageCount.toNat * 4096 ≤ va - a.vaddr then false
    else
      match m.findSegment a.shmid with
      | none => false
      | some i =>
        let s := m.segment i
        s.refcount != 0 && s.physPages.length == a.pageCount.toNat &&
          s.physPages.getD ((va - a.vaddr) / 4096) 0 == phys

/-- The check loop of `shm_inherit_attachments`: `added` counts the attachments to each segment. -/
def inheritCheck (p : Phys) (m : Shm) (child : Nat) :
    List ShmAttach → (Nat → UInt32) → Option (Nat → UInt32)
  | [], added => some added
  | a :: as, added =>
    if a.shmid < 0 then inheritCheck p m child as added
    else
      match m.findSegment a.shmid with
      | none => none
      | some i =>
        let s := m.segment i
        let added := Cells.set added i (added i + 1)
        if s.physPages.length ≠ a.pageCount.toNat ∨ s.refcount > 4294967295 - added i then none
        else if (List.range a.pageCount.toNat).all fun j =>
            (p.vmmGetPhysicalIn child (a.vaddr + j * 4096)).1.toNat == s.physPages.getD j 0 then
          inheritCheck p m child as added
        else none

/-- `shm_inherit_attachments`. -/
def shmInheritAttachments (p : Phys) (m : Shm) (parent child : Owner) : Bool × Shm × Owner :=
  match inheritCheck p m child.pml4 parent.shmAttached fun _ => 0 with
  | none => (false, m, child)
  | some added =>
    (true, { m with segments := m.segments.mapIdx fun i s =>
      { s with refcount := s.refcount + added i } },
        { child with shmAttached := parent.shmAttached })

end GenOS
