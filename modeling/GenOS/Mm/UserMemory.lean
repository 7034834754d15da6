import GenOS.Mm.Vmm

/-!
# User memory of an address-space owner

`mm/user_memory.c`. `Owner` is the part of `struct task` it works on: the root table, the list of
allocations, the slots of the shared-memory attachments and the private pages. The two parallel
arrays `user_pages` and `user_vaddrs` are one list of pairs, as long as `user_page_count`.
-/

namespace GenOS

/-- `struct user_allocation`. -/
structure UserAllocation where
  base : Nat
  size : Nat
  pages : UInt32
  deriving DecidableEq, Repr

/-- `shm_attach_record_t`; a negative `shmid` marks an unused slot. -/
structure ShmAttach where
  shmid : Int
  vaddr : Nat
  pageCount : UInt32
  deriving DecidableEq, Repr

/-- A private page: `user_pages[i]` and `user_vaddrs[i]`. -/
structure PageRecord where
  phys : Nat
  vaddr : Nat
  deriving DecidableEq, Repr

/-- What user memory uses of the task that owns an address space. -/
structure Owner where
  pml4 : Nat
  allocations : List UserAllocation
  shmAttached : List ShmAttach
  userPages : List PageRecord
  userPageCapacity : Nat
  deriving DecidableEq, Repr

namespace Phys

/-! ## The search for a free range -/

/-- What the two record loops of `user_find_free_range` do with one entry: move `skip` past it if it
and its guard overlap the candidate span. -/
def skipPast (candidate span skip base : Nat) (pages : UInt32) : Nat :=
  let stop := (base + (pages.toNat + 1) * 4096) % 2 ^ 64
  if candidate < stop ∧ base < candidate + span ∧ stop > skip then stop else skip

/-- `skip` after both record loops. -/
def skipRecords (t : Owner) (span candidate : Nat) : Nat :=
  t.shmAttached.foldl
    (fun skip a => if 0 ≤ a.shmid then skipPast candidate span skip a.vaddr a.pageCount else skip)
    (t.allocations.foldl (fun skip a => skipPast candidate span skip a.base a.pages) candidate)

/-- The page loop: `skip` moves past the first mapped page from `va` on. -/
def skipMapped (s : Phys) (pml4 stop skip va : Nat) : Nat :=
  if va < stop then
    if (s.vmmPteIn pml4 va).isSome then va + 4096 else skipMapped s pml4 stop skip (va + 4096)
  else skip
termination_by stop - va
decreasing_by omega

theorem le_skipPast (candidate span skip base : Nat) (pages : UInt32) :
    skip ≤ skipPast candidate span skip base pages := by
  simp only [skipPast]
  split
  · omega
  · exact Nat.le_refl skip

theorem le_foldl_skip {α : Type} (f : Nat → α → Nat) (h : ∀ n a, n ≤ f n a) (l : List α) (n : Nat) :
    n ≤ l.foldl f n := by
  induction l generalizing n with
  | nil => exact Nat.le_refl n
  | cons a l ih => exact Nat.le_trans (h n a) (ih (f n a))

theorem le_skipRecords (t : Owner) (span candidate : Nat) :
    candidate ≤ skipRecords t span candidate := by
  refine Nat.le_trans (le_foldl_skip _ (fun n a => le_skipPast ..) t.allocations candidate)
    (le_foldl_skip _ (fun n a => ?_) _ _)
  split
  · exact le_skipPast ..
  · exact Nat.le_refl n

theorem le_skipMapped (s : Phys) (pml4 stop skip va : Nat) (h : skip ≤ va) :
    skip ≤ skipMapped s pml4 stop skip va := by
  fun_induction skipMapped s pml4 stop skip va with
  | case1 va _ _ => omega
  | case2 va _ _ ih => exact ih (by omega)
  | case3 va _ => exact Nat.le_refl skip

/-- The loop of `user_find_free_range`; every round that goes on moves the candidate up. -/
def findLoop (s : Phys) (t : Owner) (span last candidate : Nat) : Nat :=
  if candidate ≤ last then
    let skip := skipRecords t span candidate
    if _ : skip ≠ candidate then findLoop s t span last skip
    else
      let skip := s.skipMapped t.pml4 (candidate + span) candidate candidate
      if _ : skip = candidate then candidate else findLoop s t span last skip
  else 0
termination_by last + 1 - candidate
decreasing_by
  · have := le_skipRecords t span candidate
    omega
  · have := s.le_skipMapped t.pml4 (candidate + span) candidate candidate (Nat.le_refl candidate)
    omega

/-- `user_find_free_range`. -/
def userFindFreeRange (s : Phys) (t : Owner) (start stop : Nat) (pages : UInt32) : Nat :=
  let span := (pages.toNat + 1) * 4096
  if t.pml4 = 0 || pages.toNat == 0 || decide (stop ≤ start) || decide (0x800000000000 < stop) ||
      start % 4096 != 0 || decide (stop - start < span) then 0
  else s.findLoop t span (stop - span) start

end Phys

end GenOS
