import GenOS.Mm.SpaceRules
import GenOS.Mm.UserRange

/-!
# A fresh address space

`Fresh s r` says that `r` is the root of an address space without user pages, and that nobody else
holds a table. Whatever else holds frames, `r` is then the address space of an owner in the sense of
`Spaces` (`Fresh.spaces`), and `vmm_create_address_space` makes it one (`Created.fresh`).
-/

namespace GenOS.Phys

open Radix Pmm

variable {s s' : Phys} {r g a : Nat}

structure Fresh (s : Phys) (r : Nat) : Prop where
  kernel : s.KernelTree
  root : r ≠ 0
  used : ¬ s.pmm.FreeAt r
  apart : r ∉ s.kernelTables
  empty : ∀ i < 256, s.mem r i = 0#64
  once : ∀ g ∈ r :: s.kernelTables, s.pmm.Tracked g → s.pmm.refcounts (g / 4096) = 1

/-- A list in which every element of `l` has the count that is asked for. -/
theorem exists_counts (f : Nat → Nat) {l : List Nat} (hl : l.Nodup) :
    ∃ m : List Nat, ∀ a, m.count a = if a ∈ l then f a else 0 := by
  induction l with
  | nil => exact ⟨[], fun a => rfl⟩
  | cons b l ih =>
    obtain ⟨hb, hl⟩ := List.nodup_cons.mp hl
    obtain ⟨m, hm⟩ := ih hl
    refine ⟨List.replicate (f b) b ++ m, fun a => ?_⟩
    rw [List.count_append, List.count_replicate, hm]
    by_cases hab : b = a
    · subst hab
      simp [hb]
    · have hab' : ¬ a = b := fun h => hab h.symm
      simp [hab, hab']

namespace Fresh

theorem tables (h : s.Fresh r) : s.tables r lowerHalf = [r] :=
  tables_of_dead fun i hi => by
    rw [h.empty i (mem_lowerHalf.mp hi)]
    exact dead_zero

theorem translate (h : s.Fresh r) {va : Nat} (hva : va < 0x800000000000) :
    s.translate r va = none := by
  refine translate_of_none (path_of_dead ?_)
  rw [h.empty _ (mem_lowerHalf.mp (index_lower hva))]
  exact dead_zero

/-- The new owner. -/
theorem ownerOk (h : s.Fresh r) : OwnerOk s (bareOwner r) [] := by
  refine ⟨h.root, ⟨h.kernel.tree.inv, h.kernel.tree.small, ?_, fun g hg => ?_⟩, fun g hg => ?_,
    fun p hp => absurd hp List.not_mem_nil, .nil, fun va hva _ p flags hp => ?_,
    fun va hva p flags hp => ?_⟩
  · rw [show s.tables (bareOwner r).pml4 lowerHalf = [r] from h.tables]
    exact List.nodup_singleton _
  · rw [show s.tables (bareOwner r).pml4 lowerHalf = [r] from h.tables, List.append_nil] at hg
    rw [List.mem_singleton.mp hg]
    exact h.used
  · rw [show s.tables (bareOwner r).pml4 lowerHalf = [r] from h.tables] at hg
    exact .inl (List.mem_singleton.mp hg)
  · cases (h.translate hva).symm.trans hp
  · cases (h.translate hva).symm.trans hp

/-- All other holders of frames, taken together. -/
theorem spaces (h : s.Fresh r) : ∃ rest, Spaces s [bareOwner r] [] rest := by
  have hall : s.allTables [bareOwner r] = s.kernelTables ++ [r] := by
    show s.kernelTables ++ (s.tables r lowerHalf ++ []) = _
    rw [h.tables]
    rfl
  have hone : ∀ g ∈ s.kernelTables ++ [r], s.pmm.Tracked g → s.pmm.refcounts (g / 4096) = 1 :=
    fun g hg => h.once g (by
      rcases List.mem_append.mp hg with hg | hg
      · exact List.mem_cons_of_mem _ hg
      · exact List.mem_singleton.mp hg ▸ List.mem_cons_self)
  have hnd : (s.kernelTables ++ [r]).Nodup :=
    List.nodup_append.mpr ⟨h.kernel.tree.nodup_tables, List.nodup_singleton _,
        fun g hg b hb he => by
      rw [List.mem_singleton.mp hb] at he
      exact h.apart (he ▸ hg)⟩
  -- every other frame, as often as it is counted
  have hl : (((List.range s.pmm.totalPages).map (· * 4096)).filter
      (· ∉ s.kernelTables ++ [r])).Nodup :=
    (List.nodup_range.map fun a b hab => Nat.eq_of_mul_eq_mul_right (by decide) hab).filter _
  obtain ⟨rest, hrest⟩ := exists_counts (fun a => s.pmm.refcounts (a / 4096)) hl
  have hnot : ∀ g ∈ s.kernelTables ++ [r], g ∉ rest := fun g hg hm => by
    have hc := hrest g
    rw [if_neg fun hf => (of_decide_eq_true (List.mem_filter.mp hf).2) hg] at hc
    exact List.count_eq_zero.mp hc hm
  refine ⟨rest, h.kernel, fun t ht => ?_, ?_, fun g hg => ⟨?_, fun u hu hm => ?_⟩, fun a ha => ?_⟩
  · rw [List.mem_singleton.mp ht]
    exact h.ownerOk
  · rw [hall]
    exact hnd
  · rw [hall] at hg
    exact hnot g hg
  · rw [List.mem_singleton.mp hu] at hm
    exact absurd hm List.not_mem_nil
  · have hheld : (s.held [bareOwner r] [] rest).count a =
        (s.kernelTables ++ [r]).count a + rest.count a := by
      show (s.kernelTables ++ ((s.tables r lowerHalf ++ [] ++ []) ++ ([] ++ rest))).count a = _
      rw [h.tables]
      simp only [List.count_append, List.append_nil, List.nil_append]
      omega
    rw [hheld]
    by_cases hmem : a ∈ s.kernelTables ++ [r]
    · rw [List.count_eq_zero_of_not_mem (hnot a hmem), List.count_eq_one_of_mem hnd hmem]
      exact hone a hmem ha
    · rw [List.count_eq_zero_of_not_mem hmem, hrest, if_pos, Nat.zero_add]
      refine List.mem_filter.mpr ⟨List.mem_map.mpr ⟨a / 4096, List.mem_range.mpr ha.lt, ?_⟩,
        decide_eq_true hmem⟩
      have := ha.aligned
      omega

end Fresh

/-- A new address space is fresh. -/
theorem Created.fresh (hc : Created s s' a) (ha : a ≠ 0) (hk : s.KernelTree)
    (hone : ∀ g ∈ s.kernelTables, s.pmm.Tracked g → s.pmm.refcounts (g / 4096) = 1) :
      s'.Fresh a := by
  have hmem : ∀ g ∈ s.kernelTables, g ≠ a := fun g hg he => hk.tree.used_table hg (he ▸ hc.free)
  have hkt : s'.kernelTables = s.kernelTables :=
    kernelTables_of_mem hc.kernel fun g hg => hc.mem g (hmem g hg)
  have hcount : ∀ g, s.pmm.Tracked g → s'.pmm.refcounts (g / 4096) =
      s.pmm.refcounts (g / 4096) + [a].count g := fun g hg => hc.moves.refs g hg
  refine ⟨hk.of_mem hc.kernel (fun g hg => hc.mem g (hmem g hg)) hc.moves.inv hc.moves.total
    fun g hg => hc.moves.not_freeAt (hk.tree.used_table hg) (Nat.zero_le _), ha,
    hc.taken.used (List.mem_singleton_self a), fun hm => ?_, hc.empty, fun g hg ht => ?_⟩
  · rw [hkt] at hm
    exact hmem a hm rfl
  · have ht := hc.moves.tracked.mp ht
    rw [hcount g ht]
    rcases List.mem_cons.mp hg with rfl | hg
    · rw [hc.free.2, List.count_singleton_self]
    · rw [hkt] at hg
      rw [hone g hg ht, List.count_singleton, if_neg (by simpa using (hmem g hg).symm)]

/-- Its first address space. -/
theorem tinyPhys_fresh : ∃ s, tinyPhys.vmmCreateAddressSpace = (8192, s) ∧ s.Fresh 8192 ∧
    s.deny = tinyPhys.deny ∧ s.pmm.freePages = 34 := by
  have hfirst : tinyPhys.vmmCreateAddressSpace.1 = 8192 := rfl
  have hfree : tinyPhys.vmmCreateAddressSpace.2.pmm.freePages = 34 := rfl
  rcases vmmCreateAddressSpace_spec tinyPhys_rootOnly.inv with he | ⟨a, s, he, h0, hc⟩
  · rw [he] at hfirst
    cases hfirst
  · rw [he] at hfirst hfree
    obtain rfl : a = 8192 := hfirst
    refine ⟨s, he, hc.fresh h0 tinyPhys_rootOnly.kernelTree fun g hg _ => ?_, hc.deny, hfree⟩
    have hg : g ∈ tinyPhys.tables 4096 wholeTree := hg
    rw [tinyPhys_rootOnly.tables] at hg
    rw [List.mem_singleton.mp hg]
    rfl

end GenOS.Phys
