import GenOS.Mm.UserLayout

/-!
# `user_free` removes one allocation

`Freed` says what goes: the node of the allocation, the records of its pages, the mappings, and one
reference to each of the frames. Everything else stays.
-/

namespace GenOS

open Phys Pmm

variable {c c' : HeapClient} {s s' : Phys} {t t' : UserTask} {os os₁ os₂ : List Owner}
variable {shared rest ps : List Nat} {gone kept : List PageRecord} {a : UserAllocation}
variable {k base : Nat}

/-- Allocation `k` is gone, with the records `gone`. -/
structure Freed (s s' : Phys) (t t' : UserTask) (k : Nat) (a : UserAllocation)
    (gone : List PageRecord) : Prop where
  found : t.allocations[k]? = some a
  allocations : t'.allocations = t.allocations.eraseIdx k
  /-- The order of the records may change. -/
  records : (gone ++ t'.userPages).Perm t.userPages
  kept : ∀ p, p ∈ t'.userPages ↔ p ∈ t.userPages ∧ ¬ InRange a.base a.pages.toNat p.vaddr
  count : gone.length = a.pages.toNat
  attached : t'.shmAttached = t.shmAttached
  root : t'.pml4 = t.pml4
  map : ∀ va < 0x800000000000,
    s'.translate t.pml4 va = (s.translate t.pml4).erase a.base a.pages.toNat va
  contents : ∀ va < 0x800000000000, ∀ p flags, s.translate t.pml4 va = some (p, flags) →
    s'.mem p.toNat = s.mem p.toNat
  /-- Each frame loses one reference; the tables that became empty go too. -/
  released : Moves s.pmm s'.pmm (gone.map PageRecord.phys ++ s.tables t.pml4 lowerHalf)
    (s'.tables t.pml4 lowerHalf)

/-! ## The records of the range -/

/-- One record for each page of the allocation. -/
theorem gone_length (hl : Layout s t) (hd : (t.userPages.map PageRecord.vaddr).Nodup)
    (hal : ∀ p ∈ t.userPages, p.vaddr % 4096 = 0) (ha : a ∈ t.allocations)
    (hp : (gone ++ kept).Perm t.userPages)
    (hgone : ∀ p ∈ gone, InRange a.base a.pages.toNat p.vaddr)
    (hkept : ∀ p ∈ kept, ¬ InRange a.base a.pages.toNat p.vaddr) :
    gone.length = a.pages.toNat := by
  have hba := hl.aligned.allocations a ha
  have hgd : (gone.map PageRecord.vaddr).Nodup := by
    have := ((hp.map PageRecord.vaddr).nodup_iff).mpr hd
    rw [List.map_append] at this
    exact (List.nodup_append.mp this).1
  have hperm : (gone.map PageRecord.vaddr).Perm
      ((List.range a.pages.toNat).map fun i => a.base + i * 4096) := by
    refine (List.perm_ext_iff_of_nodup hgd (List.nodup_range.map fun i j h => ?_)).mpr fun v => ?_
    · have h : a.base + i * 4096 = a.base + j * 4096 := h
      omega
    · constructor
      · intro hv
        obtain ⟨p, hpm, rfl⟩ := List.mem_map.mp hv
        obtain ⟨h1, h2⟩ := hgone p hpm
        have := hal p (hp.mem_iff.mp (List.mem_append_left _ hpm))
        exact List.mem_map.mpr ⟨(p.vaddr - a.base) / 4096, List.mem_range.mpr (by omega), by omega⟩
      · intro hv
        obtain ⟨i, hi, rfl⟩ := List.mem_map.mp hv
        have hi := List.mem_range.mp hi
        obtain ⟨p, hpm, hpv⟩ := List.mem_map.mp (hl.backed a ha i hi)
        rcases List.mem_append.mp (hp.mem_iff.mpr hpm) with hg | hk
        · exact List.mem_map.mpr ⟨p, hg, hpv⟩
        · refine absurd ?_ (hkept p hk)
          rw [hpv]
          exact ⟨by omega, by omega⟩
  have := hperm.length_eq
  rwa [List.length_map, List.length_map, List.length_range] at this

/-- The layout without the allocation. -/
theorem Freed.layout (h : Freed s s' t t' k a gone) (hl : Layout s t)
    (hp : t'.isThread = t.isThread) (hb : t'.allocationBlocks = t.allocationBlocks.eraseIdx k)
    (hcap : t'.userPageCapacity = t.userPageCapacity) : Layout s' t' := by
  obtain ⟨hk, hka⟩ := List.getElem?_eq_some_iff.mp h.found
  have hsub : (recordsOf t'.toOwner).Sublist (recordsOf t.toOwner) := by
    unfold recordsOf
    rw [h.allocations, h.attached]
    exact ((List.eraseIdx_sublist ..).map _).append_right _
  have hmem : ∀ b ∈ t'.allocations, b ∈ t.allocations := fun b hb =>
    (List.eraseIdx_sublist ..).subset (h.allocations ▸ hb)
  have hlen : t'.userPages.length ≤ t.userPages.length := by
    rw [← h.records.length_eq, List.length_append]
    omega
  refine ⟨hp.trans hl.process, ⟨fun b hb => hl.aligned.allocations b (hmem b hb),
    fun b hb => hl.aligned.attachments b (h.attached ▸ hb)⟩, fun r hr => hl.top r (hsub.subset hr),
    hl.clear.sublist hsub, fun r hr => ?_, fun b hb => hl.sized b (hmem b hb),
    fun b hb i hi => ?_, ?_, ?_, hcap ▸ hl.capacity, Nat.le_trans hlen hl.count⟩
  · have hr := hsub.subset hr
    rw [h.root, h.map _ (Nat.lt_of_lt_of_le lt_guardEnd (hl.top r hr))]
    unfold AddrMap.erase
    split
    · rfl
    · exact hl.guards r hr
  · -- the page belongs to another allocation
    have hpair : (a :: t'.allocations).Perm t.allocations := by
      rw [h.allocations, ← hka]
      exact List.getElem_cons_eraseIdx_perm hk
    have hclear : Clear (a.base, a.pages) (b.base, b.pages) := by
      have hcl : (t.allocations.map fun a => (a.base, a.pages)).Pairwise Clear :=
        (List.pairwise_append.mp hl.clear).1
      have := ((hpair.map fun a => (a.base, a.pages)).pairwise_iff fun h => h.symm).mpr hcl
      exact (List.pairwise_cons.mp this).1 _ (List.mem_map_of_mem hb)
    obtain ⟨p, hpm, hpv⟩ := List.mem_map.mp (hl.backed b (hmem b hb) i hi)
    refine List.mem_map.mpr ⟨p, (h.kept p).mpr ⟨hpm, fun ⟨h1, h2⟩ => ?_⟩, hpv⟩
    unfold Clear Apart guardEnd at hclear
    simp only at hclear
    omega
  · rw [hb, h.allocations, List.length_eraseIdx, List.length_eraseIdx, hl.nodes]
  · rw [hcap]
    exact Nat.le_trans hlen hl.room

/-! ## `user_free` -/

/-- Of the blocks, only that of the node goes. -/
theorem blocks_perm (h : k < t.allocationBlocks.length)
    (ht : t'.pagesBlock = t.pagesBlock) (hb : t'.allocationBlocks = t.allocationBlocks.eraseIdx k) :
    (t.blocks ++ ps).Perm (t.allocationBlocks[k] :: (t'.blocks ++ ps)) := by
  unfold UserTask.blocks
  rw [ht, hb, List.append_assoc, List.append_assoc]
  refine List.Perm.trans (List.Perm.append_left _ ?_) List.perm_middle
  exact (List.getElem_cons_eraseIdx_perm h).symm.append_right ps

/-- The records outside the range of the allocation are kept. -/
theorem mem_kept {kept : List PageRecord} {n : Nat} (hp : (gone ++ kept).Perm t.userPages)
    (hgone : ∀ p ∈ gone, InRange base n p.vaddr) (hkept : ∀ p ∈ kept, ¬ InRange base n p.vaddr)
    (p : PageRecord) : p ∈ kept ↔ p ∈ t.userPages ∧ ¬ InRange base n p.vaddr := by
  rw [← hp.mem_iff, List.mem_append]
  constructor
  · exact fun h => ⟨.inr h, hkept p h⟩
  · exact fun ⟨h, hr⟩ => h.resolve_left fun h => hr (hgone p h)

/-- **The pages of an allocation go**: they are unmapped, and each of their frames loses a
reference. The node of the allocation is still there. -/
theorem UserOk.unmapAllocation {kept : List PageRecord} (h : UserOk c os₁ os₂ t shared rest ps)
    (hk : t.allocations[k]? = some a) (hp : (gone ++ kept).Perm t.userPages)
    (hgone : ∀ p ∈ gone, InRange a.base a.pages.toNat p.vaddr)
    (hkept : ∀ p ∈ kept, ¬ InRange a.base a.pages.toNat p.vaddr)
    (ht : t' = { t with
      userPages := kept
      allocations := t.allocations.eraseIdx k
      allocationBlocks := t.allocationBlocks.eraseIdx k })
    (hs : s = (gone.map PageRecord.phys).foldl freeFrame
      (c.phys.vmmUnmapPagesIn t.pml4 a.base a.pages.toNat).2) :
    Memory (c.setPhys s) (os₁ ++ t'.toOwner :: os₂) shared rest (t.blocks ++ ps) ∧
      Freed c.phys s t t' k a gone ∧ ∀ u ∈ os₁ ++ os₂, Unaffected c.phys s u := by
  have ho := h.memory.spaces.owner _ (List.mem_append_right _ List.mem_cons_self)
  have ha := List.mem_of_getElem? hk
  have hed := unmapPages_edited ho (h.layout.userRange ha) a.pages.toNat_lt
  generalize (c.phys.vmmUnmapPagesIn t.pml4 a.base a.pages.toNat).2 = s₁ at hed hs
  have hmem := mem_kept hp hgone hkept
  have hkd : (kept.map PageRecord.vaddr).Nodup := by
    have := ((hp.map PageRecord.vaddr).nodup_iff).mpr ho.distinct
    rw [List.map_append] at this
    exact (List.nodup_append.mp this).2.1
  have hrec : Records t'.toOwner shared c.phys.pmm.Tracked
      ((c.phys.translate t.pml4).erase a.base a.pages.toNat) := by
    rw [ht]
    exact ho.recorded.erase hmem hkd rfl
  have hch : Change c.phys s₁ t.toOwner t'.toOwner shared (c.heap.frames ++ rest)
      (c.heap.frames ++ (gone.map PageRecord.phys ++ rest)) := by
    refine h.memory.edit hed (by rw [ht]) hrec ?_
    rw [← List.append_assoc, ← List.map_append, ht]
    exact ((List.perm_append_comm.trans hp).map _).append_right rest
  obtain ⟨hm₁, hun₁⟩ := h.memory.update hch
  -- the frames
  have hmem₂ : s.mem = s₁.mem := by
    rw [hs]
    exact foldl_freeFrame_mem _ _
  have hback : Moves s₁.pmm s.pmm (gone.map PageRecord.phys) [] := by
    rw [hs]
    refine freeFrames_moves hm₁.spaces.inv fun b hb => ?_
    have := hm₁.spaces.count_rest_le hb
    simp only [List.count_append] at this
    exact Nat.le_trans (Nat.le_trans (Nat.le_add_right ..) (Nat.le_add_left ..)) this
  obtain ⟨hm₂, hun₂⟩ := hm₁.release (by rw [hs]; exact foldl_freeFrame_kernel _ _) hmem₂ hback
  refine ⟨hm₂, ?_, fun u hu => (hun₁ u hu).trans (hun₂ u (mem_middle hu))⟩
  have htab : s.tables t.pml4 lowerHalf = s₁.tables t.pml4 lowerHalf :=
    tables_of_mem fun g _ => by rw [hmem₂]
  subst ht
  refine ⟨hk, rfl, hp, hmem, ?_, rfl, rfl, fun va hva => ?_, fun va hva p flags hq => ?_, ?_⟩
  · exact gone_length h.layout ho.distinct (fun p hp => (ho.records p hp).aligned) ha hp hgone hkept
  · rw [← hed.map va hva]
    exact translate_of_mem (fun g _ => by rw [hmem₂]) hva
  · rw [hmem₂]
    exact h.memory.spaces.own_contents hch hva hq
  · have h₁ := hed.eff.moves
    rw [List.append_nil, List.append_nil] at h₁
    rw [htab]
    have := h₁.trans hback
    rw [List.append_nil] at this
    exact this.perm List.perm_append_comm (.refl _)

/-- **`user_free`** finds no allocation at the address, or frees the one it finds. -/
theorem userFree_spec (h : UserOk c os₁ os₂ t shared rest ps) (hb : base ≠ 0) :
    (userFree c t base = some (-1, c, t) ∧ ∀ a ∈ t.allocations, a.base ≠ base) ∨
    ∃ k a gone c' t', userFree c t base = some (0, c', t') ∧ a.base = base ∧
      UserOk c' os₁ os₂ t' shared rest ps ∧ Freed c.phys c'.phys t t' k a gone ∧
      ∀ u ∈ os₁ ++ os₂, Unaffected c.phys c'.phys u := by
  have ho := h.memory.spaces.owner _ (List.mem_append_right _ List.mem_cons_self)
  unfold userFree
  rw [if_neg hb, if_neg ho.root]
  cases hfind : t.allocations.findIdx? (·.base == base) with
  | none =>
    refine .inl ⟨rfl, fun a ha he => ?_⟩
    have := List.findIdx?_eq_none_iff.mp hfind a ha
    rw [he, beq_self_eq_true] at this
    cases this
  | some k =>
    obtain ⟨hk, hbase, -⟩ := List.findIdx?_eq_some_iff_getElem.mp hfind
    have hnode : k < t.allocationBlocks.length := h.layout.nodes ▸ hk
    simp only [List.getD_eq_getElem _ _ hk, List.getD_eq_getElem _ _ hnode]
    obtain ⟨a, hka⟩ : ∃ a, t.allocations[k] = a := ⟨_, rfl⟩
    rw [hka] at hbase ⊢
    obtain rfl : a.base = base := eq_of_beq hbase
    generalize hun : c.phys.vmmUnmapPagesIn t.pml4 a.base a.pages.toNat = unmapped
    obtain ⟨n, s₁⟩ := unmapped
    obtain ⟨gone, kept, hrem, hperm, hgone, hkept⟩ := removePages_spec a.base
      (a.base + a.pages.toNat * 4096) 0 s₁ t.userPages nofun
    have hout : ∀ p : PageRecord, Outside a.base (a.base + a.pages.toNat * 4096) p ↔
        ¬ InRange a.base a.pages.toNat p.vaddr := fun p => by
      unfold Outside InRange
      omega
    have hs₁ : (c.phys.vmmUnmapPagesIn t.pml4 a.base a.pages.toNat).2 = s₁ := by rw [hun]
    obtain ⟨hm, hF, hothers⟩ := h.unmapAllocation (List.getElem?_eq_some_iff.mpr ⟨hk, hka⟩) hperm
      (fun p hp => not_not.mp (mt (hout p).mpr (hgone p hp)))
      (fun p hp => (hout p).mp (hkept p hp)) rfl rfl
    rw [hs₁] at hm hF hothers
    generalize (gone.map PageRecord.phys).foldl freeFrame s₁ = s₂ at hrem hm hF hothers
    -- the node
    have hblocks : (t.blocks ++ ps).Perm (t.allocationBlocks[k] :: (UserTask.blocks { t with
        userPages := kept
        allocations := t.allocations.eraseIdx k
        allocationBlocks := t.allocationBlocks.eraseIdx k } ++ ps)) :=
      blocks_perm hnode rfl rfl
    obtain ⟨c', he, hp, -, hm'⟩ := (hm.perm (.refl _) (.refl _) hblocks).kfree
    have he : (c.setPhys s₂).kfree t.allocationBlocks[k] = some c' := he
    dsimp only
    rw [hrem]
    simp only [he, Option.bind_eq_bind, Option.bind_some]
    refine .inr ⟨k, a, gone, c', _, rfl, rfl, ⟨hm', ?_⟩, ?_, fun u hu => ?_⟩
    · rw [hp]
      exact hF.layout h.layout rfl rfl rfl
    · rw [hp]
      exact hF
    · rw [hp]
      exact hothers u hu

end GenOS
