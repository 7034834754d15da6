import GenOS.Kernel.ProcessReap
import GenOS.Kernel.ProcessRun

/-!
# What holds in every state since the boot

`Reachable` is the machine after any calls since a boot. Each view of its memory agrees with the
others: the reference counts with the holders of the frames, the records of a process with its
translations, the counts of the segments with the attachments.
-/

namespace GenOS

open Phys Pmm

variable {s : Phys} {m m' : Machine} {k : Kernel} {t : UserTask} {u : Owner} {rest ps : List Nat}

/-! ## The views of a process -/

/-- The page lies in the attachment in this slot. -/
structure InSlot (t : Owner) (va slot : Nat) (a : ShmAttach) : Prop where
  found : t.shmAttached[slot]? = some a
  used : 0 ≤ a.shmid
  lower : a.vaddr ≤ va
  upper : va < a.vaddr + a.pageCount.toNat * 4096

theorem InAttachment.inSlot {va : Nat} (h : InAttachment u va) : ∃ slot a, InSlot u va slot a := by
  obtain ⟨a, ha, hid, hlo, hhi⟩ := h
  obtain ⟨slot, hs⟩ := List.getElem?_of_mem ha
  exact ⟨slot, a, hs, hid, hlo, hhi⟩

/-- No page lies in two attachments. -/
theorem Layout.inSlot_unique (h : Layout s t) {va i j : Nat} {a b : ShmAttach}
    (ha : InSlot t.toOwner va i a)
    (hb : InSlot t.toOwner va j b) : j = i := by
  by_contra hne
  obtain ⟨l₁, l₂, hs, hlen, -⟩ := split_slot ha.found
  have hmem : b ∈ l₁ ++ l₂ := by
    have hf := hb.found
    rw [hs] at hf
    rcases Nat.lt_or_ge j l₁.length with hlt | hge
    · rw [List.getElem?_append_left hlt] at hf
      exact List.mem_append_left _ (List.mem_of_getElem? hf)
    · rw [List.getElem?_append_right hge] at hf
      obtain ⟨n, hn⟩ : ∃ n, j - l₁.length = n + 1 := ⟨j - l₁.length - 1, by omega⟩
      rw [hn, List.getElem?_cons_succ] at hf
      exact List.mem_append_right _ (List.mem_of_getElem? hf)
  have hcl := h.attached_apart hs ha.used hmem hb.used
  have h1 := ha.lower
  have h2 := ha.upper
  have h3 := hb.lower
  have h4 := hb.upper
  have h5 : b.vaddr + b.pageCount.toNat * 4096 < guardEnd b.vaddr b.pageCount := lt_guardEnd
  rcases hcl with hcl | hcl
  · dsimp only at hcl
    omega
  · dsimp only at hcl
    omega

/-- The views of the memory of a process agree. -/
structure Agrees (s : Phys) (m : Shm) (t : Owner) : Prop where
  /-- A page has one record. -/
  distinct : (t.userPages.map PageRecord.vaddr).Nodup
  /-- A page that is mapped has a record, or is one of a segment that is attached there once. -/
  leaf : ∀ va < 0x800000000000, va % 4096 = 0 →
    ∀ p, (∃ flags, s.translate t.pml4 va = some (p, flags)) ↔
    ⟨p.toNat, va⟩ ∈ t.userPages ∨ ∃ slot a, InSlot t va slot a ∧
    (∀ j b, InSlot t va j b → j = slot) ∧
      ∃ pages, m.pagesOf a.shmid = some pages ∧ pages[(va - a.vaddr) / 4096]? = some p.toNat
  /-- A page is not both. -/
  exclusive : ∀ p ∈ t.userPages, ¬ InAttachment t p.vaddr
  /-- Allocations and attachments with their guard pages are apart. -/
  aligned : ∀ r ∈ recordsOf t, r.1 % 4096 = 0
  clear : (recordsOf t).Pairwise Clear
  guards : ∀ r ∈ recordsOf t, s.translate t.pml4 (r.1 + r.2.toNat * 4096) = none

/-- **The views of an owner agree.** -/
theorem World.agrees {c : HeapClient} {m : Shm} {us : List UserTask}
    (h : World c m us rest ps) (ht : t ∈ us)
    (ho : t.owns = true) : Agrees c.phys m t.toOwner := by
  have hok := h.memory.spaces.owner _ (mem_owners ht ho)
  have hs := h.owner t ht ho
  refine ⟨hok.distinct, fun va hva hal p => ⟨fun ⟨flags, hp⟩ => ?_, ?_⟩, hs.attached.apart,
    fun r hr => ?_,
    hs.layout.clear, hs.layout.guards⟩
  · rcases hok.leaves va hva hal p flags hp with hrec | ⟨hin, -⟩
    · exact .inl hrec
    obtain ⟨slot, a, hslot⟩ := InAttachment.inSlot hin
    have ha := List.mem_of_getElem? hslot.found
    obtain ⟨pages, f, hpages, hf, htr⟩ := hs.attached.frame ha hslot.used ⟨hslot.lower, hslot.upper⟩
      (hs.layout.aligned.attachments a ha)
    have hp' := hp.symm.trans htr
    obtain ⟨rfl, -⟩ : p = BitVec.ofNat 64 f ∧ flags = vmmFlagsUserData := by simpa using hp'
    have hsmall := h.small f (Shm.pagesOf_frames hpages (List.mem_of_getElem? hf))
    refine .inr ⟨slot, a, hslot, fun j b hb => hs.layout.inSlot_unique hslot hb, pages, hpages, ?_⟩
    rw [hf, BitVec.toNat_ofNat, Nat.mod_eq_of_lt hsmall]
  · rintro (hrec | ⟨slot, a, hslot, -, pages, hpages, hf⟩)
    · obtain ⟨-, -, -, flags, hm⟩ := hok.records _ hrec
      refine ⟨flags, ?_⟩
      rw [hm]
      simp only [BitVec.ofNat_toNat, BitVec.setWidth_eq]
    · have ha := List.mem_of_getElem? hslot.found
      obtain ⟨pages', f, hpages', hf', htr⟩ :=
        hs.attached.frame ha hslot.used ⟨hslot.lower, hslot.upper⟩
        (hs.layout.aligned.attachments a ha)
      obtain rfl : pages = pages' := Option.some.inj (hpages.symm.trans hpages')
      obtain rfl : p.toNat = f := Option.some.inj (hf.symm.trans hf')
      refine ⟨vmmFlagsUserData, ?_⟩
      rw [htr]
      simp only [BitVec.ofNat_toNat, BitVec.setWidth_eq]
  · rcases mem_recordsOf.mp hr with ⟨a, ha, rfl⟩ | ⟨a, ha, -, rfl⟩
    · exact hs.layout.aligned.allocations a ha
    · exact hs.layout.aligned.attachments a ha

/-! ## The segments of shared memory -/

/-- A segment in use, its references and its pages. -/
structure SegmentSound (k : Kernel) (seg : ShmSegment) : Prop where
  ok : SegmentOk k.shm.nextShmid seg
  refcount : seg.refcount.toNat = attachCount (users k.tasks) seg.shmid
  pages : ∀ g ∈ seg.physPages, ¬ k.phys.pmm.FreeAt g

/-- The attachments of an owner: each is of a segment in use, whose pages it maps. -/
structure AttachmentsSound (k : Kernel) (t : Owner) : Prop where
  segment : ∀ a ∈ t.shmAttached, 0 ≤ a.shmid → ∃ i seg, k.shm.Names i a.shmid seg ∧
    a.pageCount.toNat = seg.physPages.length ∧ ∀ j f, seg.physPages[j]? = some f → ∃ flags,
      k.phys.translate t.pml4 (a.vaddr + j * 4096) = some (BitVec.ofNat 64 f, flags) ∧
        flags.has pteWrite = true ∧ flags.has pteNx = true ∧ flags.has pteCow = false

namespace Machine

/-- Whoever holds a frame: the page tables, the records of the processes, the segments of shared
memory, the kernel heap, the kernel stacks, and what was taken for good. -/
def holders (m : Machine) : List Nat :=
  m.kernel.phys.held m.kernel.owners m.kernel.shm.frames
    (m.kernel.heap.heap.frames ++ (stackFrames m.kernel.tasks ++ m.frames))

/-! ## A process that forked -/

/-- What a task holds. -/
structure Footprint where
  pid : Nat
  pml4 : Nat
  pages : Nat
  allocations : Nat
  attachments : Nat
  deriving DecidableEq

def footprints (m : Machine) : List Footprint :=
  m.kernel.tasks.map fun t => ⟨t.pid, t.pml4, t.userPages.length, t.allocations.length,
    (t.shmAttached.filter fun a => 0 ≤ a.shmid).length⟩

/-- A process with a segment of shared memory. -/
def parentCalls : List KernelCall :=
    [.createUserTask 4096 smallElf, .shmCreate 2 4096, .shmAttach 1 2 118784]

/-- The first tasks, the process with five pages, and its child with two more. -/
def forkedFootprints : List Footprint :=
  [⟨0, 0, 0, 0, 0⟩, ⟨1, 0, 0, 0, 0⟩, ⟨2, 118784, 5, 0, 1⟩, ⟨3, 180224, 7, 1, 1⟩]

/-- The run to the fork, the fork, and what the machine `m` is like when the child has its
allocation: the program is in frame 30, and the stack of the child is not its own. -/
structure ForkedRun (m₀ : Machine) (k₁ : Kernel) (m : Machine) : Prop where
  before : Reachable m₀
  fork : m₀.kernel.taskFork 2 true = some (3, k₁)
  after : Reachable m
  footprints : m.footprints = forkedFootprints
  total : m.kernel.phys.pmm.totalPages = 128
  shared : m.kernel.phys.pmm.refcounts 30 = 2
  segment : ∃ seg ∈ m.kernel.shm.segments, seg.inUse = true ∧ seg.refcount = 2
  owner : m.kernel.ownerOfPid 3 = some 3
  fault : (m.kernel.cowResolve 3 0x80001000 7#64).1 = true

set_option maxRecDepth 100000 in
theorem exists_forked : ∃ m₀ k₁ m, ForkedRun m₀ k₁ m := by
  obtain ⟨m₀, hm₀, h⟩ := @reachable_of_run (fun m₀ => ((m₀.kernel.taskFork 2 true).bind fun x =>
      (({ m₀ with kernel := x.2 } : Machine).call (.userAlloc 3 5000)).map fun m =>
        decide (x.1 = 3 ∧
        m.footprints = forkedFootprints ∧ m.kernel.phys.pmm.totalPages = 128 ∧
        m.kernel.phys.pmm.refcounts 30 = 2 ∧
        (∃ seg ∈ m.kernel.shm.segments, seg.inUse = true ∧ seg.refcount = 2) ∧
        m.kernel.ownerOfPid 3 = some 3 ∧
        (m.kernel.cowResolve 3 0x80001000 7#64).1 = true)) = some true) _
    (fun _ => false) parentCalls (by decide +kernel)
  obtain ⟨⟨x, k₁⟩, hfork, h⟩ := Option.bind_eq_some_iff.mp h
  obtain ⟨m, halloc, h⟩ := Option.map_eq_some_iff.mp h
  obtain ⟨rfl, hfoot, htotal, hshared, hseg, howner, hfault⟩ := of_decide_eq_true h
  have hm₁ : Reachable { m₀ with kernel := k₁ } := hm₀.call (c := .fork 2 true) (by
    unfold call withKernel
    dsimp only
    rw [hfork]
    rfl)
  exact ⟨m₀, k₁, m, hm₀, hfork, hm₁.call halloc, hfoot, htotal, hshared, hseg, howner, hfault⟩

/-! ## The results -/

/-- **A frame's count is the number of its holders**, and it is free when there is none. No frame is
free that a process maps. -/
theorem frame_ownership (h : Reachable m) :
    (∀ a, m.kernel.phys.pmm.Tracked a → m.kernel.phys.pmm.refcounts (a / 4096) = m.holders.count a ∧
      (m.kernel.phys.pmm.bitmapTest (a / 4096) = false ↔ a ∉ m.holders)) ∧
    ∀ u ∈ m.kernel.owners, ∀ va < 0x800000000000, ∀ p flags,
      m.kernel.phys.translate u.pml4 va = some (p, flags) → ¬ m.kernel.phys.pmm.FreeAt p.toNat := by
  have hs := h.sound.world.memory.spaces
  refine ⟨fun a ha => ?_, fun u hu va hva p flags hp => (hs.leaf_frame hu hva hp).1⟩
  have hc : m.kernel.phys.pmm.refcounts (a / 4096) = m.holders.count a := hs.refs a ha
  refine ⟨hc, ((hs.inv).clear_iff _ ha.lt).trans ?_⟩
  show m.kernel.phys.pmm.refcounts (a / 4096) = 0 ↔ _
  rw [hc, List.count_eq_zero]

theorem frame_ownership_forked : ∃ m, Reachable m ∧ m.footprints = forkedFootprints ∧
    m.holders.count 122880 = 2 ∧ m.kernel.phys.pmm.bitmapTest 30 = true ∧
    ∀ a, m.kernel.phys.pmm.Tracked a →
    m.kernel.phys.pmm.refcounts (a / 4096) = m.holders.count a := by
  obtain ⟨_, _, m, hf⟩ := exists_forked
  have hm := hf.after
  have htracked : m.kernel.phys.pmm.Tracked 122880 := by
    refine ⟨rfl, by rw [hf.total]; decide, fun hr => ?_⟩
    have hr : m.kernel.phys.pmm.refcounts 30 = uint32Max := hr
    rw [hf.shared] at hr
    cases hr
  obtain ⟨hcount, hclear⟩ := (frame_ownership hm).1 122880 htracked
  have htwo : m.holders.count 122880 = 2 := hcount.symm.trans hf.shared
  refine ⟨m, hm, hf.footprints, htwo, Bool.eq_true_of_not_eq_false fun h => hclear.mp h ?_,
    fun a ha => ((frame_ownership hm).1 a ha).1⟩
  exact List.count_pos_iff.mp (by rw [htwo]; exact Nat.two_pos)

/-- **The records of every process agree with its translations.** -/
theorem records_agree (h : Reachable m) :
    ∀ u ∈ m.kernel.owners, Agrees m.kernel.phys m.kernel.shm u := fun u hu => by
  obtain ⟨t, ht, ho, rfl⟩ := of_mem_owners hu
  exact h.sound.world.agrees ht ho

theorem records_agree_forked : ∃ m, Reachable m ∧ m.footprints = forkedFootprints ∧
    ∀ u ∈ m.kernel.owners, Agrees m.kernel.phys m.kernel.shm u := by
  obtain ⟨_, _, m, hf⟩ := exists_forked
  exact ⟨m, hf.after, hf.footprints, records_agree hf.after⟩

/-- **A segment lives as long as it is attached**: it counts the records that name it, none of its
frames is free, no two segments have one id, and each record maps the pages of its segment. -/
theorem shm_lifetime (h : Reachable m) :
    (∀ seg ∈ m.kernel.shm.segments, seg.inUse = true → SegmentSound m.kernel seg) ∧
    (∀ i j id seg seg', m.kernel.shm.Names i id seg → m.kernel.shm.Names j id seg' → i = j) ∧
    ∀ u ∈ m.kernel.owners, AttachmentsSound m.kernel u := by
  have hw := h.sound.world
  refine ⟨fun seg hseg hu => ⟨hw.shm.used seg hseg hu, hw.counts seg hseg hu, fun g hg => ?_⟩,
    fun i j id seg seg' hi hj => hw.shm.distinct hi hj, fun u hu => ⟨fun a ha hid => ?_⟩⟩
  · exact hw.memory.spaces.not_free (mem_held_others
      (List.mem_append_left _ (List.mem_flatMap.mpr ⟨seg, hseg, hg⟩)))
  · obtain ⟨t, ht, ho, rfl⟩ := of_mem_owners hu
    obtain ⟨pages, hpages, hlen, -, -, hmap⟩ := (hw.owner t ht ho).attached.pages a ha hid
    obtain ⟨i, seg, hn, rfl⟩ := Shm.pagesOf_some hpages
    exact ⟨i, seg, hn, hlen.symm,
      fun j f hf => ⟨vmmFlagsUserData, hmap j f hf, by decide, by decide, by decide⟩⟩

theorem shm_lifetime_forked : ∃ m seg, Reachable m ∧ m.footprints = forkedFootprints ∧
    seg ∈ m.kernel.shm.segments ∧ seg.refcount = 2 ∧ SegmentSound m.kernel seg ∧
    ∀ u ∈ m.kernel.owners, AttachmentsSound m.kernel u := by
  obtain ⟨_, _, m, hf⟩ := exists_forked
  obtain ⟨seg, hseg, hused, hrefs⟩ := hf.segment
  obtain ⟨hsound, -, hattached⟩ := shm_lifetime hf.after
  exact ⟨m, seg, hf.after, hf.footprints, hseg, hrefs, hsound seg hseg hused, hattached⟩

/-- **W^X**: no process may run a page that it may write, or that will be writable when it is
copied. -/
theorem user_wx (h : Reachable m) : ∀ u ∈ m.kernel.owners,
    WxOk m.kernel.phys u.pml4 := fun u hu => by
  obtain ⟨t, ht, ho, rfl⟩ := of_mem_owners hu
  exact (h.sound.world.owner t ht ho).wx

theorem user_wx_forked : ∃ m, Reachable m ∧ m.footprints = forkedFootprints ∧
    ∀ u ∈ m.kernel.owners, WxOk m.kernel.phys u.pml4 := by
  obtain ⟨_, _, m, hf⟩ := exists_forked
  exact ⟨m, hf.after, hf.footprints, user_wx hf.after⟩

end Machine

end GenOS
