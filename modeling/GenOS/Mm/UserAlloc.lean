import GenOS.Mm.UserLayout

/-!
# `user_alloc` is a transaction

It either fails and leaves everything as it was (`Steady`), whatever step failed, or adds fresh
zeroed pages with a guard behind them (`Allocated`).
-/

namespace GenOS

open Phys Pmm

variable {c c' : HeapClient} {s s' : Phys} {t t' : UserTask} {os os₁ os₂ : List Owner}
variable {shared rest ps : List Nat} {new : List PageRecord} {a size base : Nat} {pages : UInt32}

/-! ## Room for records -/

theorem doubled_spec (count capacity : Nat) (h : 0 < capacity) :
    capacity ≤ doubled count capacity ∧ count ≤ doubled count capacity := by
  fun_induction doubled count capacity with
  | case1 capacity hc ih =>
    have := ih (by omega)
    omega
  | case2 capacity hc => omega

/-- Only the arrays of the records may have moved, to a larger block. -/
structure Reserved (t t' : UserTask) : Prop where
  owner : ∃ block capacity,
    t' = { t with pagesBlock := block, userPageCapacity := capacity }
  grows : t.userPageCapacity ≤ t'.userPageCapacity

theorem userPagesReserve_spec (h : UserOk c os₁ os₂ t shared rest ps) {count : Nat}
    (hc : count ≤ 65536) : ∃ ok c' t', userPagesReserve c t count = some (ok, c', t') ∧
      UserOk c' os₁ os₂ t' shared rest ps ∧ Steady c c' (os₁ ++ t.toOwner :: os₂) ∧
      Reserved t t' ∧ (ok = true → count ≤ t'.userPageCapacity) := by
  have hrefl : Steady c c (os₁ ++ t.toOwner :: os₂) := .refl h.memory.spaces.inv
  have hsame : Reserved t t := ⟨⟨t.pagesBlock, t.userPageCapacity, rfl⟩, Nat.le_refl _⟩
  unfold userPagesReserve
  rw [if_neg (by rw [h.layout.process]; exact fun hx => hx.elim nofun (Nat.not_lt.mpr hc))]
  split
  · next hfit => exact ⟨true, c, t, rfl, h, hrefl, hsame, fun _ => hfit⟩
  obtain ⟨hge, hcount⟩ := doubled_spec count t.userPageCapacity h.layout.capacity
  generalize doubled count t.userPageCapacity = capacity at hge hcount ⊢
  obtain ⟨data, c₁, he, hk, hm⟩ := h.memory.kmalloc (capacity * 2 * 8)
  have hl₁ := h.layout.congr (hk.unaffected _ (List.mem_append_right _ List.mem_cons_self))
  simp only [he, Option.bind_eq_bind, Option.bind_some]
  by_cases hd : data = 0
  · rw [if_pos hd] at hm
    rw [if_pos hd]
    exact ⟨false, c₁, t, rfl, ⟨hm, hl₁⟩, hk, hsame, nofun⟩
  rw [if_neg hd] at hm
  rw [if_neg hd]
  have hr : Reserved t { t with pagesBlock := data, userPageCapacity := capacity } :=
    ⟨⟨data, capacity, rfl⟩, hge⟩
  have hblocks : UserTask.blocks { t with pagesBlock := data, userPageCapacity := capacity } =
      data :: t.allocationBlocks := by
    unfold UserTask.blocks
    rw [if_neg hd]
    rfl
  unfold UserTask.blocks at hm
  split
  · -- the old arrays go
    next hb =>
    rw [if_neg hb] at hm
    obtain ⟨c₂, he₂, hp, hk₂, hm₂⟩ := (hm.perm (.refl _) (.refl _) (.swap ..)).kfree
    rw [he₂]
    refine ⟨true, c₂, _, rfl, ⟨?_, ?_⟩, hk.trans ⟨⟨_, hk₂⟩, fun u _ => ?_⟩, hr, fun _ => hcount⟩
    · rw [hblocks]
      exact hm₂.relabel rfl rfl rfl
    · rw [hp]
      exact hl₁.reserved hge
    · rw [hp]
      exact .refl
  · next hb =>
    rw [if_pos (not_not.mp hb)] at hm
    refine ⟨true, c₁, _, rfl, ⟨?_, hl₁.reserved hge⟩, hk, hr, fun _ => hcount⟩
    rw [hblocks]
    exact hm.relabel rfl rfl rfl

/-! ## New pages -/

/-- A new allocation with the pages `new`. -/
structure Allocated (s s' : Phys) (t t' : UserTask) (size base : Nat) (new : List PageRecord) :
    Prop where
  count : new.length = (size + 4095) / 4096
  room : Candidate s t.toOwner userHeapBase userHeapEnd ((new.length + 1) * 4096) base
  allocations : t'.allocations = ⟨base, size, .ofNat new.length⟩ :: t.allocations
  records : t'.userPages = t.userPages ++ new
  attached : t'.shmAttached = t.shmAttached
  root : t'.pml4 = t.pml4
  vaddr : ∀ i p, new[i]? = some p → p.vaddr = base + i * 4096
  distinct : (new.map PageRecord.phys).Nodup
  fresh : ∀ p ∈ new, s.pmm.FreeAt p.phys
  held : ∀ p ∈ new, s'.pmm.refcounts (p.phys / 4096) = 1
  zero : ∀ p ∈ new, s'.mem p.phys = fun _ => 0#64
  map : ∀ va < 0x800000000000, s'.translate t.pml4 va = (s.translate t.pml4).insert base
    (new.map fun p => BitVec.ofNat 64 p.phys) vmmFlagsUserData va
  /-- The hardware lets the user write the pages, but not run them. -/
  perm : ∀ va, InRange base new.length va → ∃ es, s'.lookup t.pml4 (indexAt va) = some es ∧
    Perm.effective es = ⟨true, true, false⟩
  guard : ∀ va, base + new.length * 4096 ≤ va → va < base + (new.length + 1) * 4096 →
    s'.translate t.pml4 va = none
  contents : ∀ va < 0x800000000000, ∀ p flags, s.translate t.pml4 va = some (p, flags) →
    s'.mem p.toNat = s.mem p.toNat

/-- The frames taken for the new pages and the block of the node go back. -/
theorem rollback_spec (hn : Moves c.phys.pmm s.pmm [] (new.map PageRecord.phys))
    (hk : s.kernelPml4 = c.phys.kernelPml4) (hm : ∀ g ∈ c.phys.kernelTables, s.mem g = c.phys.mem g)
    (h : Memory (c.setPhys s) os shared (new.map PageRecord.phys ++ rest) (a :: ps)) :
    ∃ c', (c.setPhys (s.freeRecords new)).kfree a = some c' ∧ Memory c' os shared rest ps ∧
      Retains c c' [] ∧ c'.phys = s.freeRecords new ∧
      ∀ u ∈ os, Unaffected s (s.freeRecords new) u := by
  have hback : Moves s.pmm (s.freeRecords new).pmm (new.map PageRecord.phys) [] :=
      freeRecords_moves hn.inv fun b hb => by
    have := hn.refs b (hn.tracked.mp hb)
    rw [List.count_nil] at this
    omega
  obtain ⟨h', hun⟩ := h.release freeRecords_kernel freeRecords_mem hback
  obtain ⟨c', he, hp, hr, h''⟩ := h'.kfree
  have hall : Retains c (c.setPhys (s.freeRecords new)) [] := .setPhys
    (freeRecords_kernel.trans hk) (fun g hg => by rw [freeRecords_mem, hm g hg]) (hn.comp hback)
  exact ⟨c', he, h'', hall.trans hr, hp, hun⟩

/-- The layout with the new allocation. -/
theorem Allocated.layout (h : Allocated s s' t t' size base new) (hl : Layout s t)
    (hsize : 0 < size) (hlen : new.length ≤ 65536) (hp : t'.isThread = false)
    (hn : t'.allocationBlocks.length = t.allocationBlocks.length + 1)
    (hroom : t'.userPages.length ≤ t'.userPageCapacity) (hcap : 0 < t'.userPageCapacity)
    (hcount : t'.userPages.length ≤ 65536) : Layout s' t' := by
  have hpages : (UInt32.ofNat new.length).toNat = new.length := by
    rw [UInt32.toNat_ofNat']
    omega
  obtain ⟨hbase, hend, hal, hfree⟩ := h.room
  have hrec : recordsOf t'.toOwner = (base, .ofNat new.length) :: recordsOf t.toOwner := by
    unfold recordsOf
    rw [h.allocations, h.attached]
    rfl
  have hge : guardEnd base (.ofNat new.length) = base + (new.length + 1) * 4096 := by
    unfold guardEnd
    rw [hpages]
  refine ⟨hp, ⟨fun b hb => ?_, fun b hb => hl.aligned.attachments b (h.attached ▸ hb)⟩,
    fun r hr => ?_, ?_, fun r hr => ?_, fun b hb => ?_, fun b hb i hi => ?_, ?_, hroom, hcap,
    hcount⟩
  · rw [h.allocations] at hb
    rcases List.mem_cons.mp hb with rfl | hb
    · exact hal
    · exact hl.aligned.allocations b hb
  · rw [hrec] at hr
    rcases List.mem_cons.mp hr with rfl | hr
    · rw [hge]
      exact Nat.le_trans hend (by decide)
    · exact hl.top r hr
  · rw [hrec]
    refine List.pairwise_cons.mpr ⟨fun r hr => ?_, hl.clear⟩
    unfold Clear
    rw [hpages]
    exact hfree.record hr
  · rw [hrec] at hr
    rcases List.mem_cons.mp hr with rfl | hr
    · rw [h.root, hpages]
      exact h.guard _ (Nat.le_refl _) (by omega)
    · have hlt := Nat.lt_of_lt_of_le lt_guardEnd (hl.top r hr)
      rw [h.root, h.map _ hlt]
      refine (if_neg ?_).trans (hl.guards r hr)
      rw [List.length_map]
      have := hfree.record hr
      unfold Apart guardEnd at this
      omega
  · rw [h.allocations] at hb
    rcases List.mem_cons.mp hb with rfl | hb
    · exact ⟨hsize, hpages.trans h.count⟩
    · exact hl.sized b hb
  · rw [h.records, List.map_append]
    rw [h.allocations] at hb
    rcases List.mem_cons.mp hb with rfl | hb
    · have hi : i < new.length := by rwa [hpages] at hi
      rw [← h.vaddr i _ (List.getElem?_eq_getElem hi)]
      exact List.mem_append_right _ (List.mem_map_of_mem (List.getElem_mem hi))
    · exact List.mem_append_left _ (hl.backed b hb i hi)
  · rw [hn, hl.nodes, h.allocations]
    rfl

/-- The pages are taken and mapped: this is the allocation. -/
theorem allocated_of_mapped {s₁ : Phys} (hn : PagesTaken c.phys s₁ base 0 new)
    (h : Memory (c.setPhys s₁) (os₁ ++ t.toOwner :: os₂) shared
      (new.map PageRecord.phys ++ rest) ps) (hun : Unaffected c.phys s₁ t.toOwner)
    (hsize : 0 < size) (hlen : new.length = (size + 4095) / 4096)
    (hpages : pages = .ofNat new.length)
    (hc : Candidate c.phys t.toOwner userHeapBase userHeapEnd ((new.length + 1) * 4096) base)
    (hmap : RangeMapped t.pml4 lowerHalf s₁ s' (fun i => base + i * 4096)
      (new.map fun p => BitVec.ofNat 64 p.phys) vmmFlagsUserData)
    (ht : t' = { t with
      userPages := t.userPages ++ new
      allocations := ⟨base, size, pages⟩ :: t.allocations
      allocationBlocks := a :: t.allocationBlocks }) :
    Allocated c.phys s' t t' size base new ∧
      Memory (c.setPhys s') (os₁ ++ t'.toOwner :: os₂) shared rest ps ∧
      ∀ u ∈ os₁ ++ os₂, Unaffected s₁ s' u := by
  have htm : t.toOwner ∈ os₁ ++ t.toOwner :: os₂ := List.mem_append_right _ List.mem_cons_self
  have hspan : base + new.length * 4096 < base + (new.length + 1) * 4096 := by omega
  have hcand := hc
  obtain ⟨hbase, hend, hal, hfree⟩ := hc
  have htop : base + new.length * 4096 < 0x800000000000 :=
    Nat.lt_of_lt_of_le hspan (Nat.le_trans hend (by decide))
  have ho : OwnerOk s₁ t.toOwner shared := h.spaces.owner _ htm
  have hv : ∀ i p, new[i]? = some p → p.vaddr = base + i * 4096 := fun i p hi => by
    rw [hn.vaddr i p hi, Nat.zero_add]
  have hunmapped : ∀ va, InRange base new.length va → s₁.translate t.pml4 va = none :=
    fun va ⟨h1, h2⟩ => by
      rw [hun.map va (Nat.lt_trans h2 htop)]
      exact hfree.unmapped va h1 (Nat.lt_trans h2 hspan)
  have hfit : ∀ p ∈ new, s₁.pmm.Tracked p.phys ∧ p.phys < 2 ^ 64 := fun p hp => by
    have htr := hn.taken.moves.tracked.mpr (hn.taken.fresh _ (List.mem_map_of_mem hp)).1
    have hlt := htr.lt
    have hsm : s₁.pmm.totalPages ≤ 2 ^ 40 := h.spaces.small
    exact ⟨htr, by omega⟩
  have hu : UserRange base (new.map fun p => BitVec.ofNat 64 p.phys).length := by
    rw [List.length_map]
    exact hcand.userRange (by omega) (by decide)
  have hed := hmap.edited ho hu
  have hrec : Records t'.toOwner shared s₁.pmm.Tracked ((s₁.translate t.pml4).insert base
      (new.map fun p => BitVec.ofNat 64 p.phys) vmmFlagsUserData) :=
    ho.recorded.insert hal (Nat.le_of_lt htop) hunmapped hv hfit (by decide)
      (by rw [ht]) (by rw [ht])
  have hch : Change s₁ s' t.toOwner t'.toOwner shared
      ((c.setPhys s₁).heap.frames ++ (new.map PageRecord.phys ++ rest))
      ((c.setPhys s₁).heap.frames ++ rest) := by
    refine h.edit hed (by rw [ht]) hrec ?_
    rw [ht, List.map_append, List.append_assoc]
  obtain ⟨hm, hun'⟩ := h.update hch
  -- the new frames are no tables, before and after
  have hframe : ∀ p ∈ new, p.phys ∉ s₁.tables t.pml4 lowerHalf ∧
      p.phys ∉ s'.tables t.pml4 lowerHalf ∧ ¬ s₁.pmm.FreeAt p.phys := fun p hp => by
    have hpm : p.phys ∈ new.map PageRecord.phys := List.mem_map_of_mem hp
    refine ⟨fun hg => ?_, fun hg => (hch.frames p.phys ?_).1 (by rw [ht]; exact hg),
      hn.taken.used hpm⟩
    · exact (h.spaces.apart _ (mem_allTables htm hg)).1 (List.mem_append_right _
        (List.mem_append_right _ (List.mem_append_left _ hpm)))
    · rw [ht, List.map_append]
      exact List.mem_append_left _ (List.mem_append_right _ hpm)
  have hmap' : ∀ va < 0x800000000000, s'.translate t.pml4 va = (c.phys.translate t.pml4).insert
      base (new.map fun p => BitVec.ofNat 64 p.phys) vmmFlagsUserData va := fun va hva => by
    rw [hed.map va hva]
    unfold AddrMap.insert
    rw [hun.map va hva]
  refine ⟨⟨hlen, ⟨hbase, hend, hal, hfree⟩, by rw [ht, hpages], by rw [ht], by rw [ht], by rw [ht],
    hv, hn.taken.nodup, fun p hp => hn.taken.fresh _ (List.mem_map_of_mem hp), fun p hp => ?_,
    fun p hp => ?_, hmap', fun va hva => ?_, fun va h1 h2 => ?_, fun va hva p flags hq => ?_⟩,
    hm, hun'⟩
  · obtain ⟨h1, h2, -⟩ := hframe p hp
    have hf := hn.taken.fresh _ (List.mem_map_of_mem hp)
    have hr₁ := hn.taken.moves.refs _ hf.1
    have hr₂ := hed.eff.moves.refs _ (hn.taken.moves.tracked.mpr hf.1)
    rw [List.append_nil, List.append_nil, List.count_eq_zero_of_not_mem h1,
      List.count_eq_zero_of_not_mem h2] at hr₂
    rw [List.count_nil, hf.2, List.count_eq_one_of_mem hn.taken.nodup (List.mem_map_of_mem hp)]
      at hr₁
    omega
  · obtain ⟨h1, -, h3⟩ := hframe p hp
    rw [hch.mem _ h1 h3]
    exact hn.zero p hp
  · obtain ⟨h1, h2⟩ := hva
    obtain ⟨es, g1, -, g3⟩ := hmap.effective (fun i hi => hu.page hi)
      (canonical_lower (Nat.lt_trans h2 htop)) ⟨h1, by rwa [List.length_map]⟩
    exact ⟨es, g1, g3.trans (by decide)⟩
  · have hlt : va < 0x800000000000 := Nat.lt_of_lt_of_le h2 (Nat.le_trans hend (by decide))
    rw [hmap' va hlt]
    refine (if_neg ?_).trans (hfree.unmapped va (by omega) h2)
    rw [List.length_map]
    omega
  · have hq' : s₁.translate t.pml4 va = some (p, flags) := (hun.map va hva).trans hq
    exact (h.spaces.own_contents hch hva hq').trans (hun.contents va hva p flags hq)

/-- **The frames, the mappings and the node**: all of them, or none. -/
theorem userPlace_spec (h : UserOk c os₁ os₂ t shared rest (a :: ps)) (hsize : 0 < size)
    (hp : pages.toNat = (size + 4095) / 4096)
    (hroom : t.userPages.length + pages.toNat ≤ t.userPageCapacity)
    (hcount : t.userPages.length + pages.toNat ≤ 65536)
    (hc : Candidate c.phys t.toOwner userHeapBase userHeapEnd ((pages.toNat + 1) * 4096) base) :
    (∃ c', userPlace c t a size base pages = some (0, c', t) ∧
      UserOk c' os₁ os₂ t shared rest ps ∧ Steady c c' (os₁ ++ t.toOwner :: os₂)) ∨
    ∃ c' t' new, userPlace c t a size base pages = some (base, c', t') ∧
      UserOk c' os₁ os₂ t' shared rest ps ∧ Allocated c.phys c'.phys t t' size base new ∧
      ∀ u ∈ os₁ ++ os₂, Unaffected c.phys c'.phys u := by
  have htm : t.toOwner ∈ os₁ ++ t.toOwner :: os₂ := List.mem_append_right _ List.mem_cons_self
  have hperm : (t.blocks ++ a :: ps).Perm (a :: (t.blocks ++ ps)) := List.perm_middle
  obtain ⟨ok, new, s₁, he, hn, hlen⟩ := takePages_spec base pages.toNat 0 c.phys t.userPages
    h.memory.spaces.inv
  obtain ⟨hm₁, hun₁⟩ := h.memory.take hn.taken
  have hker : ∀ g ∈ c.phys.kernelTables, s₁.mem g = c.phys.mem g := fun g hg =>
    hn.taken.mem_used (h.memory.kernel_used hg)
  unfold userPlace
  rw [he]
  cases ok with
  | false =>
    obtain ⟨c', hf, hm', hr, hph, hun⟩ := rollback_spec hn.taken.moves hn.taken.kernel hker
      (hm₁.perm (.refl _) (.refl _) hperm)
    have hst : Steady c c' (os₁ ++ t.toOwner :: os₂) := ⟨⟨_, hr⟩, fun u hu => by
      rw [hph]
      exact (hun₁ u hu).trans (hun u hu)⟩
    dsimp only
    rw [List.drop_left, hf]
    exact .inl ⟨c', rfl, ⟨hm', h.layout.congr (hst.unaffected _ htm)⟩, hst⟩
  | true =>
    have hlen := hlen rfl
    have ho : OwnerOk s₁ t.toOwner shared := hm₁.spaces.owner _ htm
    have hkt : s₁.kernelTables = c.phys.kernelTables := kernelTables_of_mem hn.taken.kernel hker
    have hwlen : (new.map fun p => BitVec.ofNat 64 p.phys).length = pages.toNat := by
      rw [List.length_map, hlen]
    have hu : UserRange base (new.map fun p => BitVec.ofNat 64 p.phys).length := by
      rw [hwlen]
      exact hc.userRange (by omega) (by decide)
    dsimp only
    rw [List.drop_left]
    rcases mapPages_edited ho hu (by omega) vmmFlagsUserData with ⟨s₂, hs, hed, hmv⟩ |
      ⟨s₂, hs, hmap⟩
    · have hch := hm₁.edit hed rfl ho.recorded (.refl _)
      obtain ⟨hm₂, hun₂⟩ := hm₁.update hch
      have hown : Unaffected s₁ s₂ t.toOwner :=
        ⟨hed.map, fun va hva p flags hq => hm₁.spaces.own_contents hch hva hq⟩
      obtain ⟨c', hf, hm', hr, hph, hun⟩ := rollback_spec (by simpa using hn.taken.moves.trans hmv)
        (hch.kernel.trans hn.taken.kernel)
        (fun g hg => (hm₁.spaces.kernel_mem hch g (hkt.symm ▸ hg)).trans (hker g hg))
        (hm₂.perm (.refl _) (.refl _) hperm)
      have hst : Steady c c' (os₁ ++ t.toOwner :: os₂) := ⟨⟨_, hr⟩, fun u hu => by
        rw [hph]
        refine ((hun₁ u hu).trans ?_).trans (hun u hu)
        exact (middle_cases hu).elim (fun he => he ▸ hown) (hun₂ u)⟩
      rw [hs]
      dsimp only
      rw [hf]
      exact .inl ⟨c', rfl, ⟨hm', h.layout.congr (hst.unaffected _ htm)⟩, hst⟩
    · rw [hs]
      have hpages : pages = .ofNat new.length := by rw [hlen, UInt32.ofNat_toNat]
      obtain ⟨hA, hm₂, hun₂⟩ := allocated_of_mapped hn hm₁ (hun₁ _ htm) hsize (hlen.trans hp) hpages
        (hlen.symm ▸ hc) hmap rfl
      refine .inr ⟨_, _, new, rfl, ⟨hm₂.perm (.refl _) (.refl _) ?_, ?_⟩, hA, fun u hu =>
        (hun₁ u (mem_middle hu)).trans (hun₂ u hu)⟩
      · unfold UserTask.blocks
        simp only [List.append_assoc, List.cons_append]
        exact List.perm_middle.append_left _
      · refine hA.layout h.layout hsize (by omega) h.layout.process rfl ?_ h.layout.capacity ?_
        · simp only [List.length_append, hlen]
          exact hroom
        · simp only [List.length_append, hlen]
          exact hcount

/-! ## `user_alloc` -/

namespace Reserved

theorem refl (t : UserTask) : Reserved t t :=
  ⟨⟨t.pagesBlock, t.userPageCapacity, rfl⟩, Nat.le_refl _⟩

/-- A candidate for the owner before and after. -/
theorem candidate (h : Reserved t t') (hu : Unaffected s s' t.toOwner) {span : Nat} :
    Candidate s' t'.toOwner userHeapBase userHeapEnd span base ↔
      Candidate s t.toOwner userHeapBase userHeapEnd span base := by
  obtain ⟨block, capacity, rfl⟩ := h.owner
  have hmap : base + span ≤ userHeapEnd → ∀ va < base + span,
      s'.translate t.pml4 va = s.translate t.pml4 va := fun hend va hva =>
    hu.map va (Nat.lt_of_lt_of_le hva (Nat.le_trans hend (by decide)))
  constructor
  · rintro ⟨h1, h2, h3, h4, h5, h6⟩
    exact ⟨h1, h2, h3, fun va g1 g2 => (hmap h2 va g2).symm.trans (h4 va g1 g2), h5, h6⟩
  · rintro ⟨h1, h2, h3, h4, h5, h6⟩
    exact ⟨h1, h2, h3, fun va g1 g2 => (hmap h2 va g2).trans (h4 va g1 g2), h5, h6⟩

/-- The owner is the same for the others. -/
theorem steady (h : Reserved t t') (hs : Steady c c' (os₁ ++ t'.toOwner :: os₂)) :
    Steady c c' (os₁ ++ t.toOwner :: os₂) := by
  obtain ⟨block, capacity, rfl⟩ := h.owner
  refine ⟨hs.retains, fun u hu => ?_⟩
  rcases middle_cases hu with rfl | hu
  · obtain ⟨h1, h2⟩ := hs.unaffected _ (List.mem_append_right os₁ List.mem_cons_self)
    exact ⟨h1, h2⟩
  · exact hs.unaffected u (mem_middle hu)

end Reserved

/-- The allocation, seen from before the arrays moved. -/
theorem Allocated.before {s₁ : Phys} {t₁ : UserTask} (h : Allocated s₁ s' t₁ t' size base new)
    (hr : Reserved t t₁) (hu : Unaffected s s₁ t.toOwner)
    (hf : ∀ f, s₁.pmm.FreeAt f → s.pmm.FreeAt f) : Allocated s s' t t' size base new := by
  have hroom := (hr.candidate hu).mp h.room
  obtain ⟨block, capacity, rfl⟩ := hr.owner
  refine ⟨h.count, hroom, h.allocations, h.records, h.attached, h.root, h.vaddr, h.distinct,
    fun p hp => hf _ (h.fresh p hp), h.held, h.zero, fun va hva => ?_, h.perm, h.guard,
    fun va hva p flags hq => ?_⟩
  · rw [h.map va hva]
    unfold AddrMap.insert
    rw [hu.map va hva]
  · exact (h.contents va hva p flags ((hu.map va hva).trans hq)).trans
      (hu.contents va hva p flags hq)

/-- The bound on the pages, in the types of the code. -/
theorem pages_le {len : Nat} (hlen : len ≤ 65536) {pages : UInt32} :
    ¬ pages > userMaxPages - .ofNat len ↔ len + pages.toNat ≤ 65536 := by
  have hle : UInt32.ofNat len ≤ userMaxPages := by
    rw [UInt32.le_iff_toNat_le, UInt32.toNat_ofNat']
    exact Nat.le_trans (Nat.mod_le _ _) hlen
  have hsub : (userMaxPages - UInt32.ofNat len).toNat = 65536 - len := by
    rw [UInt32.toNat_sub_of_le _ _ hle, UInt32.toNat_ofNat', Nat.mod_eq_of_lt (by omega)]
    rfl
  rw [gt_iff_lt, UInt32.lt_iff_toNat_lt, hsub]
  omega

/-- **`user_alloc`** fails and leaves everything as it was, or it makes an allocation. -/
theorem userAlloc_spec (h : UserOk c os₁ os₂ t shared rest ps) (size : Nat) :
    (∃ c' t', userAlloc c t size = some (0, c', t') ∧ UserOk c' os₁ os₂ t' shared rest ps ∧
      Steady c c' (os₁ ++ t.toOwner :: os₂) ∧ Reserved t t') ∨
    ∃ base c' t' new, userAlloc c t size = some (base, c', t') ∧ base ≠ 0 ∧
      UserOk c' os₁ os₂ t' shared rest ps ∧ Allocated c.phys c'.phys t t' size base new ∧
      ∀ u ∈ os₁ ++ os₂, Unaffected c.phys c'.phys u := by
  have htm : t.toOwner ∈ os₁ ++ t.toOwner :: os₂ := List.mem_append_right _ List.mem_cons_self
  have hroot : t.pml4 ≠ 0 := (h.memory.spaces.owner _ htm).root
  have hnothing : (∃ c' t', some (0, c, t) = some (0, c', t') ∧
      UserOk c' os₁ os₂ t' shared rest ps ∧ Steady c c' (os₁ ++ t.toOwner :: os₂) ∧
      Reserved t t') := ⟨c, t, rfl, h, .refl h.memory.spaces.inv, .refl t⟩
  unfold userAlloc
  split
  · exact .inl hnothing
  next hsize =>
  obtain ⟨-, hsize⟩ := not_or.mp hsize
  obtain ⟨h0, hmax⟩ := not_or.mp hsize
  have hmax : size ≤ 134213632 := Nat.not_lt.mp hmax
  have hpages : (UInt32.ofNat ((size + 4095) / 4096)).toNat = (size + 4095) / 4096 := by
    rw [UInt32.toNat_ofNat', Nat.mod_eq_of_lt (by omega)]
  generalize UInt32.ofNat ((size + 4095) / 4096) = pages at hpages ⊢
  dsimp only
  split
  · exact .inl hnothing
  next hcount =>
  have hcount := (pages_le h.layout.count).mp hcount
  have hfind := (userFindFreeRange_spec c.phys t.toOwner userHeapBase userHeapEnd pages
    h.layout.aligned hroot (by rintro rfl; simp at hpages; omega) (by decide)
      (by decide) (by decide)
    (by decide)).1
  generalize c.phys.userFindFreeRange t.toOwner userHeapBase userHeapEnd pages = base at hfind ⊢
  split
  · exact .inl hnothing
  next hbase =>
  have hcand := (hfind hbase).1
  obtain ⟨a, c₁, he₁, hst₁, hm₁⟩ := h.memory.kmalloc 32
  have hl₁ := h.layout.congr (hst₁.unaffected _ htm)
  simp only [he₁, Option.bind_eq_bind, Option.bind_some]
  split
  · next ha =>
    rw [if_pos ha] at hm₁
    exact .inl ⟨c₁, t, rfl, ⟨hm₁, hl₁⟩, hst₁, .refl t⟩
  next ha =>
  rw [if_neg ha] at hm₁
  have h₁ : UserOk c₁ os₁ os₂ t shared rest (a :: ps) :=
    ⟨hm₁.perm (.refl _) (.refl _) List.perm_middle.symm, hl₁⟩
  obtain ⟨ok, c₂, t₂, he₂, h₂, hst₂, hr, hroom⟩ := userPagesReserve_spec h₁ hcount
  have hst := hst₁.trans hst₂
  have hcand₂ := (hr.candidate (hst.unaffected _ htm)).mpr hcand
  have hlen : t₂.userPages.length = t.userPages.length := by
    obtain ⟨block, capacity, rfl⟩ := hr.owner
    rfl
  rw [he₂]
  dsimp only [Option.bind_some]
  cases ok with
  | false =>
    obtain ⟨c₃, he₃, hp, hk, hm₃⟩ := (h₂.memory.perm (.refl _) (.refl _) List.perm_middle).kfree
    have hst₃ : Steady c₂ c₃ (os₁ ++ t.toOwner :: os₂) := ⟨⟨_, hk⟩, fun u _ => by
      rw [hp]
      exact .refl⟩
    rw [if_neg nofun, he₃]
    exact .inl ⟨c₃, t₂, rfl, ⟨hm₃, by rw [hp]; exact h₂.layout⟩, hst.trans hst₃, hr⟩
  | true =>
    rw [if_pos rfl]
    have hroom := hroom rfl
    rcases userPlace_spec h₂ (Nat.pos_of_ne_zero h0) hpages (by rwa [hlen])
      (by rwa [hlen]) hcand₂ with
      ⟨c₃, he₃, h₃, hst₃⟩ | ⟨c₃, t₃, new, he₃, h₃, hA, hun⟩
    · exact .inl ⟨c₃, t₂, he₃, h₃, hst.trans (hr.steady hst₃), hr⟩
    · refine .inr ⟨base, c₃, t₃, new, he₃, hbase, h₃,
        hA.before hr (hst.unaffected _ htm) fun f => hst.free, fun u hu => ?_⟩
      exact (hst.unaffected u (mem_middle hu)).trans (hun u hu)

end GenOS
