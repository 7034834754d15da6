import GenOS.Mm.Memory
import GenOS.Mm.UserPages

/-!
# The layout of user memory

`Layout s t`: the records of a task are consistent. Its allocations and attachments, each with its
guard page, are apart from each other, the guard pages are unmapped, and every page of an allocation
has a record. `UserOk` puts it together with `Memory`, where the blocks of the kernel heap that hold
the records are among the live ones.
-/

namespace GenOS

open Phys Pmm

/-- The blocks of the kernel heap that hold the records of a task. -/
def UserTask.blocks (t : UserTask) : List Nat :=
  (if t.pagesBlock = 0 then [] else [t.pagesBlock]) ++ t.allocationBlocks

/-- Two records without a common byte, guard pages included. -/
def Clear (a b : Nat × UInt32) : Prop := Apart a.1 ((a.2.toNat + 1) * 4096) b.1 (guardEnd b.1 b.2)

structure Layout (s : Phys) (t : UserTask) : Prop where
  process : t.isThread = false
  aligned : PageAligned t.toOwner
  top : ∀ r ∈ recordsOf t.toOwner, guardEnd r.1 r.2 ≤ 0x800000000000
  clear : (recordsOf t.toOwner).Pairwise Clear
  guards : ∀ r ∈ recordsOf t.toOwner, s.translate t.pml4 (r.1 + r.2.toNat * 4096) = none
  sized : ∀ a ∈ t.allocations, 0 < a.size ∧ a.pages.toNat = (a.size + 4095) / 4096
  backed : ∀ a ∈ t.allocations, ∀ i < a.pages.toNat,
    a.base + i * 4096 ∈ t.userPages.map PageRecord.vaddr
  nodes : t.allocationBlocks.length = t.allocations.length
  room : t.userPages.length ≤ t.userPageCapacity
  capacity : 0 < t.userPageCapacity
  count : t.userPages.length ≤ 65536

/-- The owner `t` between the owners `os₁` and `os₂`; `ps` are the other live blocks. -/
structure UserOk (c : HeapClient) (os₁ os₂ : List Owner) (t : UserTask)
    (shared rest ps : List Nat) :
    Prop where
  memory : Memory c (os₁ ++ t.toOwner :: os₂) shared rest (t.blocks ++ ps)
  layout : Layout c.phys t

variable {c c' : HeapClient} {s s' : Phys} {t t' : UserTask} {os₁ os₂ : List Owner}
variable {shared rest ps : List Nat} {a : UserAllocation} {r r' : Nat × UInt32}

theorem Clear.symm (h : Clear r r') : Clear r' r := by
  unfold Clear Apart guardEnd at *
  omega

theorem lt_guardEnd {base : Nat} {pages : UInt32} :
    base + pages.toNat * 4096 < guardEnd base pages := by
  unfold guardEnd
  omega

/-! ## Allocations -/

theorem mem_recordsOf_allocation (h : a ∈ t.allocations) :
    (a.base, a.pages) ∈ recordsOf t.toOwner := mem_recordsOf.mpr (.inl ⟨a, h, rfl⟩)

namespace Layout

/-- The span of an allocation, as a range of user space. -/
theorem userRange (h : Layout s t) (ha : a ∈ t.allocations) : UserRange a.base a.pages.toNat := by
  obtain ⟨h1, h2⟩ := h.sized a ha
  have htop := h.top _ (mem_recordsOf_allocation ha)
  exact ⟨by omega, h.aligned.allocations a ha, Nat.le_trans (Nat.le_of_lt lt_guardEnd) htop⟩

/-- The layout depends on the translations only. -/
theorem of_map (h : Layout s t)
    (hm : ∀ va < 0x800000000000, s'.translate t.pml4 va = s.translate t.pml4 va) : Layout s' t :=
  ⟨h.process, h.aligned, h.top, h.clear, fun r hr =>
    (hm _ (Nat.lt_of_lt_of_le lt_guardEnd (h.top r hr))).trans (h.guards r hr), h.sized, h.backed,
    h.nodes, h.room, h.capacity, h.count⟩

theorem congr (h : Layout s t) (hu : Unaffected s s' t.toOwner) : Layout s' t := h.of_map hu.map

/-- Two allocations are apart, guard pages included. -/
theorem apart {a b : UserAllocation} (h : Layout s t) (ha : a ∈ t.allocations)
    (hb : b ∈ t.allocations) (hne : a ≠ b) : Clear (a.base, a.pages) (b.base, b.pages) := by
  have hcl : (t.allocations.map fun a => (a.base, a.pages)).Pairwise Clear :=
    (List.pairwise_append.mp h.clear).1
  have : Std.Symm fun a b : UserAllocation => Clear (a.base, a.pages) (b.base, b.pages) :=
    ⟨fun _ _ hx => hx.symm⟩
  exact (List.pairwise_map.mp hcl).forall ha hb hne

/-- The base determines the allocation. -/
theorem unique {a b : UserAllocation} (h : Layout s t) (ha : a ∈ t.allocations)
    (hb : b ∈ t.allocations) (he : a.base = b.base) : a = b := by
  by_contra hne
  have := h.apart ha hb hne
  unfold Clear Apart guardEnd at this
  simp only at this
  omega

/-- The record arrays may move and grow. -/
theorem reserved (h : Layout s t) {block capacity : Nat} (hc : t.userPageCapacity ≤ capacity) :
    Layout s { t with pagesBlock := block, userPageCapacity := capacity } :=
  ⟨h.process, ⟨h.aligned.allocations, h.aligned.attachments⟩, h.top, h.clear, h.guards, h.sized,
    h.backed, h.nodes, Nat.le_trans h.room hc, Nat.lt_of_lt_of_le h.capacity hc, h.count⟩

end Layout

end GenOS
