import GenOS.Lib.WordBytes
import GenOS.Mm.KernelTree
import GenOS.Mm.UserRange

/-!
# The address spaces of all owners

`OwnerOk` is what holds of one owner: every private page has a record, every other page belongs to
an attachment. `Spaces s os shared rest` is what holds of all of them together: no table is shared,
and the reference count of a frame is the number of times it is named by the kernel's tables, by the
owners' tables and records, by `shared` (the frames of shared memory) and by `rest` (all other
holders).

`Change` is what a call may do for one owner. It leaves the other owners alone
(`Spaces.unaffected`) and keeps the invariant (`Spaces.update`).
-/

namespace GenOS.Phys

open Radix Pmm

/-! ## One owner -/

/-- The frames an owner holds: the tables of its half of the tree, and its private pages. -/
def owned (s : Phys) (t : Owner) : List Nat :=
  s.tables t.pml4 lowerHalf ++ t.userPages.map PageRecord.phys

/-- The address lies in a page of an attachment. -/
def InAttachment (t : Owner) (va : Nat) : Prop :=
  ∃ a ∈ t.shmAttached, 0 ≤ a.shmid ∧ a.vaddr ≤ va ∧ va < a.vaddr + a.pageCount.toNat * 4096

/-- The record of a mapped private page. -/
structure Recorded (s : Phys) (t : Owner) (p : PageRecord) : Prop where
  aligned : p.vaddr % 4096 = 0
  user : p.vaddr < 0x800000000000
  tracked : s.pmm.Tracked p.phys
  mapped : ∃ flags, s.translate t.pml4 p.vaddr = some (BitVec.ofNat 64 p.phys, flags)

structure OwnerOk (s : Phys) (t : Owner) (shared : List Nat) : Prop where
  root : t.pml4 ≠ 0
  tree : s.Tree t.pml4 lowerHalf []
  full : s.Full t.pml4 lowerHalf (· = t.pml4)
  records : ∀ p ∈ t.userPages, Recorded s t p
  distinct : (t.userPages.map PageRecord.vaddr).Nodup
  /-- A page is private or attached. -/
  leaves : ∀ va < 0x800000000000, va % 4096 = 0 → ∀ p flags,
    s.translate t.pml4 va = some (p, flags) →
      ⟨p.toNat, va⟩ ∈ t.userPages ∨ (InAttachment t va ∧ p.toNat ∈ shared)
  /-- A page that may be written is not shared. -/
  written : ∀ va < 0x800000000000, ∀ p flags, s.translate t.pml4 va = some (p, flags) →
    flags.has pteWrite = true → flags.has pteCow = false

/-! ## All owners -/

/-- All holders of frames. -/
def held (s : Phys) (os : List Owner) (shared rest : List Nat) : List Nat :=
  s.kernelTables ++ (os.flatMap (owned s) ++ (shared ++ rest))

/-- All tables. -/
def allTables (s : Phys) (os : List Owner) : List Nat :=
  s.kernelTables ++ os.flatMap fun t => s.tables t.pml4 lowerHalf

structure Spaces (s : Phys) (os : List Owner) (shared rest : List Nat) : Prop where
  kernel : s.KernelTree
  owner : ∀ t ∈ os, OwnerOk s t shared
  tables : (s.allTables os).Nodup
  /-- A table is nothing else. -/
  apart : ∀ g ∈ s.allTables os, g ∉ shared ++ rest ∧ ∀ u ∈ os, g ∉ u.userPages.map PageRecord.phys
  refs : ∀ a, s.pmm.Tracked a → s.pmm.refcounts (a / 4096) = (s.held os shared rest).count a

/-- What the owner sees of its half is as before: the translations, and what is behind them. -/
structure Unaffected (s s' : Phys) (t : Owner) : Prop where
  map : ∀ va < 0x800000000000, s'.translate t.pml4 va = s.translate t.pml4 va
  contents : ∀ va < 0x800000000000, ∀ p flags, s.translate t.pml4 va = some (p, flags) →
    s'.mem p.toNat = s.mem p.toNat

/-- The byte a user reads. -/
def byteAt (s : Phys) (r va : Nat) : Option (BitVec 8) :=
  (s.translate r va).map fun p => WordBytes.get (s.mem p.1.toNat) (va % 4096)

variable {s s' s'' : Phys} {t t' u : Owner} {os os₁ os₂ : List Owner} {shared rest rest' : List Nat}
variable {r g a va : Nat}

namespace Unaffected

theorem refl : Unaffected s s u := ⟨fun _ _ => rfl, fun _ _ _ _ _ => rfl⟩

theorem trans (h : Unaffected s s' u) (h' : Unaffected s' s'' u) : Unaffected s s'' u :=
  ⟨fun va hva => (h'.map va hva).trans (h.map va hva), fun va hva p flags hp =>
    (h'.contents va hva p flags ((h.map va hva).trans hp)).trans (h.contents va hva p flags hp)⟩

end Unaffected

theorem index_lower (h : va < 0x800000000000) : indexAt va 3 ∈ lowerHalf.idx := by
  rw [mem_lowerHalf]
  simp only [indexAt]
  omega

theorem canonical_lower (h : va < 0x800000000000) : canonical va = true := by
  rw [canonical_iff]
  exact .inl h

theorem toNat_address (hs : s.pmm.totalPages ≤ 2 ^ 40) (h : s.pmm.Tracked a) :
    (BitVec.ofNat 64 a).toNat = a := by
  have h1 := h.aligned
  have h2 := h.lt
  exact Word.toNat_ofNat (by omega)

/-! ## Frames in use -/

theorem mem_held_owned (ht : t ∈ os) (hg : g ∈ owned s t) : g ∈ s.held os shared rest :=
  List.mem_append_right _ (List.mem_append_left _ (List.mem_flatMap.mpr ⟨t, ht, hg⟩))

theorem mem_held_others (hg : g ∈ shared ++ rest) : g ∈ s.held os shared rest :=
  List.mem_append_right _ (List.mem_append_right _ hg)

theorem mem_held_page (ht : t ∈ os) (hg : g ∈ t.userPages.map PageRecord.phys) :
    g ∈ s.held os shared rest :=
  mem_held_owned ht (List.mem_append_right _ hg)

theorem mem_allTables (ht : t ∈ os) (hg : g ∈ s.tables t.pml4 lowerHalf) : g ∈ s.allTables os :=
  List.mem_append_right _ (List.mem_flatMap.mpr ⟨t, ht, hg⟩)

namespace Spaces

theorem inv (h : Spaces s os shared rest) : s.pmm.Inv := h.kernel.tree.inv

theorem small (h : Spaces s os shared rest) : s.pmm.totalPages ≤ 2 ^ 40 := h.kernel.tree.small

/-- What is held is not free. -/
theorem not_free (h : Spaces s os shared rest) (hg : g ∈ s.held os shared rest) :
    ¬ s.pmm.FreeAt g := fun hf => by
  have h1 := h.refs g hf.1
  have h2 := List.count_pos_iff.mpr hg
  have h3 := hf.2
  omega

theorem used_table (h : Spaces s os shared rest) (hg : g ∈ s.allTables os) : ¬ s.pmm.FreeAt g := by
  rcases List.mem_append.mp hg with hk | hu
  · exact h.kernel.tree.used_table hk
  · obtain ⟨u, hu, hg⟩ := List.mem_flatMap.mp hu
    exact (h.owner u hu).tree.used_table hg

theorem not_rest (h : Spaces s os shared rest) (ht : t ∈ os) :
    ∀ g ∈ s.tables t.pml4 lowerHalf, g ∉ rest := fun g hg hr =>
  (h.apart g (mem_allTables ht hg)).1 (List.mem_append_right _ hr)

/-- The frame behind a page of the lower half is in use, and no table. -/
theorem leaf_frame (h : Spaces s os shared rest) (ht : t ∈ os) {p flags : Word}
    (hva : va < 0x800000000000) (hp : s.translate t.pml4 va = some (p, flags)) :
    ¬ s.pmm.FreeAt p.toNat ∧ p.toNat ∉ s.allTables os := by
  -- the page as a whole
  have hpage : s.translate t.pml4 (va / 4096 * 4096) = some (p, flags) := by
    rw [← hp]
    exact translate_page (by omega)
  rcases (h.owner t ht).leaves _ (by omega) (by omega) p flags hpage with hr | ⟨-, ho⟩
  · have hm : p.toNat ∈ t.userPages.map PageRecord.phys := List.mem_map.mpr ⟨_, hr, rfl⟩
    exact ⟨h.not_free (mem_held_page ht hm), fun hg => (h.apart _ hg).2 t ht hm⟩
  · have hm := List.mem_append_left rest ho
    exact ⟨h.not_free (mem_held_others hm), fun hg => (h.apart _ hg).1 hm⟩

end Spaces

/-! ## An untouched half -/

/-- Lookups in the lower half read the tables of the lower half only. -/
theorem lookup_of_mem (h : ∀ g ∈ s.tables r lowerHalf, s'.mem g = s.mem g) {k : Nat → Nat}
    (hk : pageShape.InRange k) (hkI : k 3 ∈ lowerHalf.idx) : s'.lookup r k = s.lookup r k := by
  have hag : Agree pageShape s.mem s'.mem 3 lowerHalf.idx r := .of_tables lowerHalf.lt
    fun g hg i _ => .inl (by rw [h g hg])
  exact path_congr hag hk hkI

theorem tables_of_mem (h : ∀ g ∈ s.tables r lowerHalf, s'.mem g = s.mem g) :
    s'.tables r lowerHalf = s.tables r lowerHalf :=
  tables_congr (.of_tables lowerHalf.lt fun g hg i _ => .inl (by rw [h g hg]))

/-- The kernel's tables keep their contents. -/
theorem kernelTables_of_mem (hk : s'.kernelPml4 = s.kernelPml4)
    (hm : ∀ g ∈ s.kernelTables, s'.mem g = s.mem g) : s'.kernelTables = s.kernelTables := by
  unfold kernelTables
  rw [hk]
  exact tables_congr (.of_tables wholeTree.lt fun g hg i _ => .inl (by rw [hm g hg]))

theorem translate_of_mem (h : ∀ g ∈ s.tables r lowerHalf, s'.mem g = s.mem g)
    (hva : va < 0x800000000000) : s'.translate r va = s.translate r va :=
  translate_congr (lookup_of_mem h (inRange_indexAt va) (index_lower hva))

/-! ## A call for one owner -/

/-- What a call for the owner `t` may do: it works on the owner's tables and on free frames, and
moves frames between the owner and `rest`. -/
structure Change (s s' : Phys) (t t' : Owner) (shared rest rest' : List Nat) : Prop where
  ok : OwnerOk s' t' shared
  kernel : s'.kernelPml4 = s.kernelPml4
  moves : Moves s.pmm s'.pmm (owned s t ++ rest) (owned s' t' ++ rest')
  mem : ∀ g, g ∉ s.tables t.pml4 lowerHalf → ¬ s.pmm.FreeAt g → s'.mem g = s.mem g
  tables : ∀ g ∈ s'.tables t'.pml4 lowerHalf, g ∈ s.tables t.pml4 lowerHalf ∨ s.pmm.FreeAt g
  frames : ∀ g ∈ t'.userPages.map PageRecord.phys ++ rest', g ∉ s'.tables t'.pml4 lowerHalf ∧
    (g ∈ t.userPages.map PageRecord.phys ++ rest ∨ s.pmm.FreeAt g)

theorem mem_middle (hu : u ∈ os₁ ++ os₂) : u ∈ os₁ ++ t :: os₂ :=
  (List.mem_append.mp hu).elim (List.mem_append_left _) fun h =>
    List.mem_append_right _ (List.mem_cons_of_mem _ h)

theorem middle_cases (hu : u ∈ os₁ ++ t :: os₂) : u = t ∨ u ∈ os₁ ++ os₂ :=
  List.mem_cons.mp (List.perm_middle.mem_iff.mp hu)

theorem perm_middle (x : Owner) : (os₁ ++ x :: os₂).Perm (x :: (os₁ ++ os₂)) := List.perm_middle

theorem allTables_perm {os' : List Owner} (h : os.Perm os') :
    (s.allTables os).Perm (s.allTables os') :=
  (h.flatMap_right _).append_left _

/-- The tables of one owner first. -/
theorem allTables_middle (s : Phys) (x : Owner) : (s.allTables (os₁ ++ x :: os₂)).Perm
    (s.tables x.pml4 lowerHalf ++ s.allTables (os₁ ++ os₂)) :=
  (allTables_perm (perm_middle x)).trans (List.perm_append_comm_assoc ..)

theorem mem_allTables_middle (hg : g ∈ s.allTables (os₁ ++ os₂)) (x : Owner) :
    g ∈ s.allTables (os₁ ++ x :: os₂) :=
  (allTables_middle s x).mem_iff.mpr (List.mem_append_right _ hg)

/-- The tables of two owners, or of an owner and the kernel, have no frame in common. -/
theorem Spaces.tables_disjoint (h : Spaces s (os₁ ++ t :: os₂) shared rest)
    (hg : g ∈ s.allTables (os₁ ++ os₂)) : g ∉ s.tables t.pml4 lowerHalf := by
  have hnd := h.tables
  rw [(allTables_middle s t).nodup_iff] at hnd
  exact fun hgt => (List.nodup_append.mp hnd).2.2 g hgt g hg rfl

section Change

variable (h : Spaces s (os₁ ++ t :: os₂) shared rest) (hc : Change s s' t t' shared rest rest')

include h hc

/-- The tables of the kernel and of the other owners keep their contents. -/
theorem Spaces.tables_mem : ∀ g ∈ s.allTables (os₁ ++ os₂), s'.mem g = s.mem g := fun g hg =>
  hc.mem g (h.tables_disjoint hg) (h.used_table (mem_allTables_middle hg t))

theorem Spaces.kernel_mem : ∀ g ∈ s.kernelTables, s'.mem g = s.mem g := fun g hg =>
  h.tables_mem hc g (List.mem_append_left _ hg)

theorem Spaces.owner_mem (hu : u ∈ os₁ ++ os₂) :
    ∀ g ∈ s.tables u.pml4 lowerHalf, s'.mem g = s.mem g := fun g hg =>
  h.tables_mem hc g (mem_allTables hu hg)

/-- **The other owners see nothing.** -/
theorem Spaces.unaffected (hu : u ∈ os₁ ++ os₂) : Unaffected s s' u := by
  refine ⟨fun va hva => translate_of_mem (h.owner_mem hc hu) hva, fun va hva p flags hp => ?_⟩
  obtain ⟨h1, h2⟩ := h.leaf_frame (mem_middle hu) hva hp
  exact hc.mem _ (fun hg => h2 (mem_allTables (List.mem_append_right _ List.mem_cons_self) hg)) h1

/-- What was behind the owner's own pages is still there. -/
theorem Spaces.own_contents {p flags : Word} (hva : va < 0x800000000000)
    (hp : s.translate t.pml4 va = some (p, flags)) : s'.mem p.toNat = s.mem p.toNat := by
  have htm : t ∈ os₁ ++ t :: os₂ := List.mem_append_right _ List.mem_cons_self
  obtain ⟨h1, h2⟩ := h.leaf_frame htm hva hp
  exact hc.mem _ (fun hg => h2 (mem_allTables htm hg)) h1

/-- The kernel sees nothing either. -/
theorem Spaces.kernelTables_eq : s'.kernelTables = s.kernelTables :=
  kernelTables_of_mem hc.kernel (h.kernel_mem hc)

theorem Spaces.allTables_eq : s'.allTables (os₁ ++ os₂) = s.allTables (os₁ ++ os₂) := by
  unfold allTables
  rw [h.kernelTables_eq hc, List.flatMap_congr fun u hu => tables_of_mem (h.owner_mem hc hu)]

/-- A table of the others is not given back. -/
theorem Spaces.still_used (hg : g ∈ s.allTables (os₁ ++ os₂)) : ¬ s'.pmm.FreeAt g := by
  have hg' := mem_allTables_middle hg t
  refine hc.moves.not_freeAt (h.used_table hg') ?_
  rw [List.count_eq_zero_of_not_mem fun hm => ?_]
  · exact Nat.zero_le _
  obtain ⟨h1, h2⟩ := h.apart g hg'
  rcases List.mem_append.mp hm with hm | hm
  · rcases List.mem_append.mp hm with hm | hm
    · exact h.tables_disjoint hg hm
    · exact h2 t (List.mem_append_right _ List.mem_cons_self) hm
  · exact h1 (List.mem_append_right _ hm)

end Change

/-- A kernel half whose tables keep their contents. -/
theorem KernelTree.of_mem (h : s.KernelTree) (hk : s'.kernelPml4 = s.kernelPml4)
    (hm : ∀ g ∈ s.kernelTables, s'.mem g = s.mem g) (hi : s'.pmm.Inv)
    (ht : s'.pmm.totalPages = s.pmm.totalPages) (hu : ∀ g ∈ s.kernelTables, ¬ s'.pmm.FreeAt g) :
    s'.KernelTree := by
  have htab : s'.tables s.kernelPml4 wholeTree = s.kernelTables :=
    tables_congr (.of_tables wholeTree.lt fun g hg i _ => .inl (by rw [hm g hg]))
  have hroot : s'.mem s.kernelPml4 = s.mem s.kernelPml4 := hm _ (root_mem s _ _)
  refine h.of_full hk ⟨hi, ht.symm ▸ h.tree.small, ?_, ?_⟩ (fun g hg => ?_) fun i _ _ => by
    rw [hroot]
  · rw [htab]
    exact h.tree.nodup
  · rw [htab, List.append_nil]
    exact hu
  · rw [htab] at hg
    exact (h.full g hg).imp_right fun ⟨i, hi, hl⟩ => ⟨i, hi, by rw [hm g hg]; exact hl⟩

/-- An owner whose tables keep their contents. -/
theorem OwnerOk.of_mem (h : OwnerOk s u shared)
    (hm : ∀ g ∈ s.tables u.pml4 lowerHalf, s'.mem g = s.mem g) (hi : s'.pmm.Inv)
    (ht : s'.pmm.totalPages = s.pmm.totalPages)
    (hu : ∀ g ∈ s.tables u.pml4 lowerHalf, ¬ s'.pmm.FreeAt g)
    (htr : ∀ a, s.pmm.Tracked a → s'.pmm.Tracked a) : OwnerOk s' u shared := by
  have htab := tables_of_mem hm
  refine ⟨h.root, ⟨hi, ht.symm ▸ h.tree.small, ?_, ?_⟩, fun g hg => ?_, fun p hp => ?_, h.distinct,
    fun va hva ha p flags hp => ?_, fun va hva p flags hp => ?_⟩
  · rw [htab]
    exact h.tree.nodup
  · rw [htab, List.append_nil]
    exact hu
  · rw [htab] at hg
    exact (h.full g hg).imp_right fun ⟨i, hi, hl⟩ => ⟨i, hi, by rw [hm g hg]; exact hl⟩
  · obtain ⟨h1, h2, h3, flags, h4⟩ := h.records p hp
    exact ⟨h1, h2, htr _ h3, flags, (translate_of_mem hm h2).trans h4⟩
  · rw [translate_of_mem hm hva] at hp
    exact h.leaves va hva ha p flags hp
  · rw [translate_of_mem hm hva] at hp
    exact h.written va hva p flags hp

/-- **The invariant is kept.** -/
theorem Spaces.update (h : Spaces s (os₁ ++ t :: os₂) shared rest)
    (hc : Change s s' t t' shared rest rest') : Spaces s' (os₁ ++ t' :: os₂) shared rest' := by
  have htm : t ∈ os₁ ++ t :: os₂ := List.mem_append_right _ List.mem_cons_self
  have hall := h.allTables_eq hc
  have hktree : s'.KernelTree := h.kernel.of_mem hc.kernel (h.kernel_mem hc) hc.moves.inv
    hc.moves.total fun g hg => h.still_used hc (List.mem_append_left _ hg)
  refine ⟨hktree, fun u hu => ?_, ?_, fun g hg => ?_, fun a ha => ?_⟩
  · rcases middle_cases hu with rfl | hu
    · exact hc.ok
    · exact (h.owner u (mem_middle hu)).of_mem (h.owner_mem hc hu) hc.moves.inv hc.moves.total
        (fun g hg => h.still_used hc (mem_allTables hu hg)) fun a ha => hc.moves.tracked.mpr ha
  · have hnd := h.tables
    rw [(allTables_middle s t).nodup_iff, List.nodup_append] at hnd
    rw [(allTables_middle s' t').nodup_iff, List.nodup_append, hall]
    refine ⟨hc.ok.tree.nodup_tables, hnd.2.1, fun g hg g' hg' he => ?_⟩
    subst he
    rcases hc.tables g hg with hg | hf
    · exact hnd.2.2 g hg g hg' rfl
    · exact h.used_table (mem_allTables_middle hg' t) hf
  · -- what the table was before
    have hold : g ∈ s.allTables (os₁ ++ t :: os₂) ∨ s.pmm.FreeAt g := by
      rw [(allTables_middle s' t').mem_iff, List.mem_append, hall] at hg
      rcases hg with hg | hg
      · exact (hc.tables g hg).imp_left (mem_allTables htm)
      · exact .inl (mem_allTables_middle hg t)
    have hfree : g ∉ shared ++ rest ∧ ∀ v ∈ os₁ ++ t :: os₂,
        g ∉ v.userPages.map PageRecord.phys := by
      rcases hold with hg | hf
      · exact h.apart g hg
      · exact ⟨fun ho => h.not_free (mem_held_others ho) hf, fun v hv hgv =>
          h.not_free (mem_held_page hv hgv) hf⟩
    -- it is not among the frames that moved
    have hmoved : g ∉ t'.userPages.map PageRecord.phys ++ rest' := fun hm => by
      obtain ⟨h1, h2⟩ := hc.frames g hm
      rw [(allTables_middle s' t').mem_iff, List.mem_append, hall] at hg
      have hg := hg.resolve_left h1
      rcases h2 with h2 | hf
      · rcases List.mem_append.mp h2 with h2 | h2
        · exact hfree.2 t htm h2
        · exact hfree.1 (List.mem_append_right _ h2)
      · exact h.used_table (mem_allTables_middle hg t) hf
    refine ⟨fun hm => ?_, fun v hv => ?_⟩
    · rcases List.mem_append.mp hm with hm | hm
      · exact hfree.1 (List.mem_append_left _ hm)
      · exact hmoved (List.mem_append_right _ hm)
    · rcases middle_cases hv with rfl | hv
      · exact fun hm => hmoved (List.mem_append_left _ hm)
      · exact hfree.2 v (mem_middle hv)
  · have hrefs := hc.moves.refs a (hc.moves.tracked.mp ha)
    have hold := h.refs a (hc.moves.tracked.mp ha)
    have hown : ∀ u ∈ os₁ ++ os₂, owned s' u = owned s u := fun u hu => by
      unfold owned
      rw [tables_of_mem (h.owner_mem hc hu)]
    unfold held at hold ⊢
    rw [h.kernelTables_eq hc]
    simp only [List.flatMap_append, List.flatMap_cons, List.count_append] at hrefs hold ⊢
    rw [List.flatMap_congr fun u hu => hown u (List.mem_append_left _ hu),
      List.flatMap_congr fun u hu => hown u (List.mem_append_right _ hu)]
    omega

end GenOS.Phys
