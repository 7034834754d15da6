import GenOS.Mm.VmmRefine

/-!
# The kernel's own page tables

The kernel's root keeps its top-level tables for ever (every address space has copies of their
entries), so these may be empty; no other table is (`KernelTree`). With the root's entries fixed the
lookups determine the tables (`kernelTables_perm`), so a sequence of calls that restores the lookups
restores the tables too, up to a top-level table it was the first to need.
-/

namespace GenOS.Phys

open Radix Pmm

/-- The tables of the kernel's tree. -/
def kernelTables (s : Phys) : List Nat := s.tables s.kernelPml4 wholeTree

/-- A table right below the root, in the kernel half. -/
def TopTable (s : Phys) (r g : Nat) : Prop :=
  ∃ i, 256 ≤ i ∧ i < 512 ∧ pageShape.child (s.mem r i) = some g

structure KernelTree (s : Phys) : Prop where
  root : s.kernelPml4 ≠ 0
  tree : s.Tree s.kernelPml4 wholeTree []
  full : s.Full s.kernelPml4 wholeTree fun g => g = s.kernelPml4 ∨ s.TopTable s.kernelPml4 g

variable {s s' : Phys} {r i c va : Nat}

namespace KernelTree

/-- A table in the tree below entry `i` of the root. -/
theorem mem_kernelTables {g : Nat} : g ∈ s.kernelTables ↔
    g = s.kernelPml4 ∨ ∃ i < 512, g ∈ sub pageShape s.mem 3 s.kernelPml4 i := by
  unfold kernelTables tables
  rw [Radix.mem_tables]
  simp only [mem_wholeTree]

/-- The trees below two entries of the root share no table. -/
theorem sub_unique (h : s.KernelTree) {j g : Nat} (hi : i < 512) (hj : j < 512)
    (hg : g ∈ sub pageShape s.mem 3 s.kernelPml4 i)
    (hg' : g ∈ sub pageShape s.mem 3 s.kernelPml4 j) :
    i = j := by
  by_contra hne
  exact (Radix.nodup_tables h.tree.nodup_tables).2.2 i (mem_wholeTree.mpr hi) j
    (mem_wholeTree.mpr hj)
    hne g hg hg'

theorem nodup_child (h : s.KernelTree) (hi : i < 512)
    (hc : pageShape.child (s.mem s.kernelPml4 i) = some c) :
    (Radix.tables pageShape s.mem 2 (List.range 512) c).Nodup :=
  Radix.nodup_child h.tree.nodup_tables (mem_wholeTree.mpr hi) hc

/-- Below a top-level table no table is empty. -/
theorem occupied_below (h : s.KernelTree) (hi : i < 512)
    (hc : pageShape.child (s.mem s.kernelPml4 i) = some c) {j g : Nat} (hj : j < 512)
    (hg : g ∈ sub pageShape s.mem 2 c j) : pageShape.Occupied s.mem g := by
  have hgi : g ∈ sub pageShape s.mem 3 s.kernelPml4 i := by
    rw [sub_of_child _ hc]
    exact Radix.mem_tables.mpr (.inr ⟨j, List.mem_range.mpr hj, hg⟩)
  rcases h.full g (mem_kernelTables.mpr (.inr ⟨i, hi, hgi⟩)) with (rfl | ⟨i', _, hi', hc'⟩) | ho
  · exact absurd hgi ((Radix.nodup_tables h.tree.nodup_tables).1 i (mem_wholeTree.mpr hi))
  · -- a top-level table is not below another one, nor below itself
    have hgi' : g ∈ sub pageShape s.mem 3 s.kernelPml4 i' := by
      rw [sub_of_child _ hc']
      exact root_mem_tables _ _ _ _ _
    obtain rfl := h.sub_unique hi hi' hgi hgi'
    rw [hc] at hc'
    cases hc'
    exact absurd hg ((Radix.nodup_tables (h.nodup_child hi hc)).1 j (List.mem_range.mpr hj))
  · exact ho

/-- An entry of the root that stays, over lookups that stay when they find something, keeps its
tables. -/
theorem sub_subset (h : s.KernelTree) (hi : i < 512)
    (hw : pageShape.Same (s.mem s.kernelPml4 i) (s'.mem s.kernelPml4 i))
    (hv : ∀ k, pageShape.InRange k → s.lookup s.kernelPml4 k ≠ none →
      s'.lookup s.kernelPml4 k = s.lookup s.kernelPml4 k) {g : Nat}
    (hg : g ∈ sub pageShape s.mem 3 s.kernelPml4 i) :
    g ∈ sub pageShape s'.mem 3 s.kernelPml4 i := by
  cases hc : pageShape.child (s.mem s.kernelPml4 i) with
  | none =>
    rw [sub_of_none _ hc] at hg
    cases hg
  | some c =>
    have hw := hw.eq (pageShape.live_of_child hc)
    rw [sub_of_child _ hc] at hg
    rw [sub_of_child _ (hw ▸ hc)]
    refine mem_tables_of_path (by decide) (fun _ => List.mem_range.mp)
      (fun k j es hk _ hj hwalk x hx => ?_) (fun k hk _ hne => ?_) hg
    · exact h.occupied_below hi hc (hk 2) (hwalk.tables_subset hk hj x hx)
    · -- the lookup of `k` below entry `i`
      have hk' : pageShape.InRange (Cells.set k 3 i) := fun x => by
        rw [Cells.set_apply]
        split
        · exact hi
        · exact hk x
      have hpath : ∀ m : Nat → Nat → Word, pageShape.child (m s.kernelPml4 i) = some c →
          path pageShape m 3 s.kernelPml4 (Cells.set k 3 i) =
            (path pageShape m 2 c k).map (m s.kernelPml4 i :: ·) := fun m hm => by
        rw [path_of_child (by rw [Cells.set_self]; exact hm), Cells.set_self,
          path_key fun x hx => Cells.set_of_ne (by omega) _ _]
      have hsome : s.lookup s.kernelPml4 (Cells.set k 3 i) ≠ none := by
        rw [lookup, hpath _ hc]
        exact fun hn => hne (Option.map_eq_none_iff.mp hn)
      have := hv _ hk' hsome
      rw [lookup, lookup, hpath _ hc, hpath _ (hw ▸ hc), hw] at this
      exact Option.map_injective (List.cons_injective) this

/-- A top-level table with nothing below it that a lookup could reach has no tables below. -/
theorem sub_of_no_lookup (h : s.KernelTree) (hi : i < 512)
    (hn : ∀ k, pageShape.InRange k → k 3 = i → s.lookup s.kernelPml4 k = none)
    (hc : pageShape.child (s.mem s.kernelPml4 i) = some c) {g : Nat}
    (hg : g ∈ sub pageShape s.mem 3 s.kernelPml4 i) : g = c := by
  rw [sub_of_child _ hc] at hg
  rcases Radix.mem_tables.mp hg with rfl | ⟨j, hj, hgj⟩
  · rfl
  have hj := List.mem_range.mp hj
  -- otherwise some lookup goes through `g`
  have hocc : ∀ x ∈ Radix.tables pageShape s.mem 2 (List.range 512) c,
      pageShape.Occupied s.mem x := by
    intro x hx
    rcases Radix.mem_tables.mp hx with rfl | ⟨j', hj', hx⟩
    · refine ⟨j, hj, ?_⟩
      cases hcj : pageShape.child (s.mem x j) with
      | none =>
        rw [sub_of_none _ hcj] at hgj
        cases hgj
      | some d => exact pageShape.live_of_child hcj
    · exact h.occupied_below hi hc (List.mem_range.mp hj') hx
  obtain ⟨k, hk, p, hp, -⟩ := exists_path hocc
  have hk' : pageShape.InRange (Cells.set k 3 i) := fun x => by
    rw [Cells.set_apply]
    split
    · exact hi
    · exact hk x
  have := hn _ hk' (Cells.set_self ..)
  rw [lookup, path_of_child (c := c) (by rw [Cells.set_self]; exact hc),
    path_key (k := k) fun x hx => Cells.set_of_ne (by omega) _ _, hp] at this
  cases this

end KernelTree

/-- **The lookups and the root determine the kernel's tables.** Entry `slot` of the root may be new;
then the table behind it is the only new one. -/
theorem kernelTables_perm {slot : Nat} (h : s.KernelTree) (h' : s'.KernelTree)
    (hk : s'.kernelPml4 = s.kernelPml4) (hs : slot < 512)
    (hv : SameView s.kernelPml4 wholeTree s s')
    (hroot : ∀ i < 512, (i = slot → (s.mem s.kernelPml4 slot).has ptePresent = true) →
      pageShape.Same (s.mem s.kernelPml4 i) (s'.mem s.kernelPml4 i))
    (htop : (s.mem s.kernelPml4 slot).has ptePresent = false →
      (s'.mem s.kernelPml4 slot).has ptePresent = false ∨
      ∃ c, pageShape.child (s'.mem s.kernelPml4 slot) = some c ∧ s.pmm.FreeAt c) :
    (s'.kernelTables.Perm s.kernelTables ∧
      (s'.mem s.kernelPml4 slot).has ptePresent = (s.mem s.kernelPml4 slot).has ptePresent) ∨
    ∃ c, s.pmm.FreeAt c ∧ (s.mem s.kernelPml4 slot).has ptePresent = false ∧
      s'.kernelTables.Perm (c :: s.kernelTables) := by
  have hsub : ∀ i < 512, pageShape.Same (s.mem s.kernelPml4 i) (s'.mem s.kernelPml4 i) → ∀ g,
      g ∈ sub pageShape s'.mem 3 s.kernelPml4 i ↔ g ∈ sub pageShape s.mem 3 s.kernelPml4 i := by
    intro i hi hw g
    refine ⟨fun hg => ?_, h.sub_subset hi hw fun k hk _ => hv k hk (mem_wholeTree.mpr (hk 3))⟩
    have := @h'.sub_subset s' s i hi
    rw [hk] at this
    exact this hw.symm (fun k hk _ => (hv k hk (mem_wholeTree.mpr (hk 3))).symm) hg
  have hnd' : s'.kernelTables.Nodup := h'.tree.nodup_tables
  have hmem' : ∀ g, g ∈ s'.kernelTables ↔
      g = s.kernelPml4 ∨ ∃ i < 512, g ∈ sub pageShape s'.mem 3 s.kernelPml4 i := fun g => by
    rw [← hk]
    exact KernelTree.mem_kernelTables
  -- outside `slot` nothing has changed
  have hout : ∀ {g : Nat}, (∀ g, g ∈ sub pageShape s'.mem 3 s.kernelPml4 slot ↔
      g ∈ sub pageShape s.mem 3 s.kernelPml4 slot) →
      (g ∈ s'.kernelTables ↔ g ∈ s.kernelTables) := by
    intro g hslot
    rw [hmem', KernelTree.mem_kernelTables]
    refine or_congr_right (exists_congr fun i => and_congr_right fun hi => ?_)
    by_cases his : i = slot
    · rw [his]
      exact hslot g
    · exact hsub i hi (hroot i hi fun he => absurd he his) g
  by_cases hp : (s.mem s.kernelPml4 slot).has ptePresent = true
  · have hw := hroot slot hs fun _ => hp
    exact .inl ⟨(List.perm_ext_iff_of_nodup hnd' h.tree.nodup_tables).mpr fun g =>
      hout (hsub slot hs hw), hw.live⟩
  have hp : (s.mem s.kernelPml4 slot).has ptePresent = false := by simpa using hp
  have hnone : sub pageShape s.mem 3 s.kernelPml4 slot = [] :=
    sub_of_none _ (Shape.child_of_dead hp)
  rcases htop hp with hp' | ⟨c, hc, hf⟩
  · have hnone' : sub pageShape s'.mem 3 s.kernelPml4 slot = [] :=
      sub_of_none _ (Shape.child_of_dead hp')
    exact .inl ⟨(List.perm_ext_iff_of_nodup hnd' h.tree.nodup_tables).mpr fun g =>
      hout fun g => by rw [hnone, hnone'], by rw [hp, hp']⟩
  · have hnd : (c :: s.kernelTables).Nodup :=
      List.nodup_cons.mpr ⟨fun hm => h.tree.used_table hm hf, h.tree.nodup_tables⟩
    refine .inr ⟨c, hf, hp, (List.perm_ext_iff_of_nodup hnd' hnd).mpr fun g => ?_⟩
    -- the new table is the only one behind the new entry
    have hslot : ∀ g, g ∈ sub pageShape s'.mem 3 s.kernelPml4 slot ↔ g = c := by
      intro g
      have hc' := hc
      rw [← hk] at hc'
      refine ⟨fun hg => ?_, ?_⟩
      · refine h'.sub_of_no_lookup hs (fun k hkr hks => ?_) hc' (hk ▸ hg)
        rw [hk, hv k hkr (mem_wholeTree.mpr (hkr 3)), lookup]
        exact path_of_dead (by rw [hks]; exact hp)
      · rintro rfl
        rw [sub_of_child _ hc]
        exact root_mem_tables _ _ _ _ _
    rw [hmem', List.mem_cons, KernelTree.mem_kernelTables]
    constructor
    · rintro (rfl | ⟨i, hi, hg⟩)
      · exact .inr (.inl rfl)
      · by_cases his : i = slot
        · rw [his] at hg
          exact .inl ((hslot g).mp hg)
        · exact .inr (.inr ⟨i, hi, (hsub i hi (hroot i hi fun he => absurd he his) g).mp hg⟩)
    · rintro (rfl | rfl | ⟨i, hi, hg⟩)
      · exact .inr ⟨slot, hs, (hslot g).mpr rfl⟩
      · exact .inl rfl
      · refine .inr ⟨i, hi, ?_⟩
        by_cases his : i = slot
        · rw [his, hnone] at hg
          cases hg
        · exact (hsub i hi (hroot i hi fun he => absurd he his) g).mpr hg

/-! ## What keeps the kernel's tree -/

namespace KernelTree

theorem upper_index (hu : 0xFFFF800000000000 ≤ va) (hva : va < 2 ^ 64) : 256 ≤ indexAt va 3 := by
  simp only [indexAt]
  omega

/-- The tables that may be empty are those the range unmapper leaves alone. -/
theorem top :
    Top s s.kernelPml4 wholeTree fun g => g = s.kernelPml4 ∨ s.TopTable s.kernelPml4 g := by
  refine ⟨.inl rfl, fun va t es hu hva _ hw => .inr ⟨indexAt va 3, upper_index hu hva,
    indexAt_lt va 3, ?_⟩⟩
  cases hw with
  | down hc hw =>
    cases hw with
    | refl => exact hc
    | down _ hw' => have := hw'.le; omega

/-- Frames that are not tables come and go. -/
theorem of_pmm (h : s.KernelTree) {p : Pmm} {A B : List Nat} (hm : Moves s.pmm p A B)
    (hA : ∀ g ∈ s.kernelTables, A.count g ≤ B.count g) (n : Nat) :
    KernelTree { s with pmm := p, asked := n } := by
  refine ⟨h.root, ⟨hm.inv, hm.total.symm ▸ h.tree.small, h.tree.nodup, fun g hg => ?_⟩, h.full⟩
  refine hm.not_freeAt (h.tree.used g hg) (hA g ?_)
  have hg : g ∈ s.kernelTables ++ [] := hg
  rwa [List.append_nil] at hg

/-- New tables behind the root's old entries, or behind a new one. -/
theorem of_full (h : s.KernelTree) (hk : s'.kernelPml4 = s.kernelPml4)
    (ht : s'.Tree s.kernelPml4 wholeTree [])
    (hf : s'.Full s.kernelPml4 wholeTree fun g => g = s.kernelPml4 ∨ s.TopTable s.kernelPml4 g)
    (hroot : ∀ i < 512, (s.mem s.kernelPml4 i).has ptePresent = true →
      s'.mem s.kernelPml4 i = s.mem s.kernelPml4 i) : s'.KernelTree := by
  refine ⟨hk ▸ h.root, hk ▸ ht, ?_⟩
  rw [hk]
  intro g hg
  refine (hf g hg).imp_left fun hE => hE.imp_right ?_
  rintro ⟨i, h1, h2, hc⟩
  exact ⟨i, h1, h2, (hroot i h2 (child_eq_some hc).1).symm ▸ hc⟩

theorem unchanged (h : s.KernelTree) (hu : Unchanged s.kernelPml4 wholeTree s [] s') :
    s'.KernelTree :=
  h.of_full hu.eff.kernel hu.eff.tree (hu.full h.full) fun i _ hp =>
    (hu.words _ (root_mem s _ _) i).eq hp

theorem mapped (h : s.KernelTree) {phys flags : Word} {es : List Word}
    (hm : Mapped s.kernelPml4 wholeTree s [] s' va phys flags es) : s'.KernelTree :=
  h.of_full hm.eff.kernel hm.eff.tree (hm.full _ h.full) fun i _ hp =>
    hm.live _ (root_mem s _ _) i hp

theorem unmapped (h : s.KernelTree) {V : (Nat → Nat) → Prop}
    (hu : Unmapped s.kernelPml4 wholeTree s s' V)
    (hr : s'.mem s.kernelPml4 = s.mem s.kernelPml4) : s'.KernelTree :=
  h.of_full hu.eff.kernel hu.eff.tree (hu.full _ top h.full) fun i _ _ => congrFun hr i

end KernelTree

/-! ## Machines before their first call -/

/-- Frame 0 is withheld, frame 1 is the kernel's root table, which is empty, and the others are
free. -/
structure RootOnly (s : Phys) : Prop where
  inv : s.pmm.Inv
  small : s.pmm.totalPages ≤ 2 ^ 40
  root : s.kernelPml4 = 4096
  empty : ∀ i, s.mem 4096 i = 0#64
  refs : ∀ i, s.pmm.refcounts i = if i = 0 then uint32Max else if i = 1 then 1 else 0

namespace RootOnly

theorem tables (h : s.RootOnly) (I : Slots) : s.tables 4096 I = [4096] :=
  tables_of_dead fun i _ => by
    rw [h.empty i]
    exact dead_zero

theorem root_used (h : s.RootOnly) : ¬ s.pmm.FreeAt 4096 := fun hf => by
  have hr : s.pmm.refcounts 1 = 0 := hf.2
  rw [h.refs] at hr
  cases hr

theorem kernelTree (h : s.RootOnly) : s.KernelTree := by
  have ht := h.tables wholeTree
  rw [← h.root] at ht
  refine ⟨by rw [h.root]; decide, ⟨h.inv, h.small, ?_, fun g hg => ?_⟩, fun g hg => .inl (.inl ?_)⟩
  · rw [ht]
    exact List.nodup_singleton _
  · rw [ht] at hg
    rw [List.mem_singleton.mp hg, h.root]
    exact h.root_used
  · rw [ht] at hg
    exact List.mem_singleton.mp hg

end RootOnly

/-- 37 frames. -/
def tinyPhys : Phys where
  pmm :=
    { bitmap := fun i => if i = 0 then 0x03#8 else 0#8, bitmapSize := 5, totalPages := 37
      freePages := 35, refcounts := fun i => if i = 0 then uint32Max else if i = 1 then 1 else 0
      lastAllocIndex := 0 }
  mem := fun _ _ => 0#64
  kernelPml4 := 4096
  deny := fun _ => false
  asked := 0

theorem tinyPhys_rootOnly : tinyPhys.RootOnly :=
  ⟨⟨by decide, by decide, fun _ => rfl, by decide⟩, by decide, rfl, fun _ => rfl, fun _ => rfl⟩

end GenOS.Phys
