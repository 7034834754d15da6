import GenOS.Mm.Vmm
import GenOS.Mm.Ledger

/-!
# Page tables as a radix tree

The page tables under a root are a `Radix` tree: a present entry is live, and points to a table
unless it is a huge leaf. An operation works on one part of the root (`Slots`): the lower half of an
address space, the kernel half, or both.

`Tree s r I P` is well-formedness, with the tables in `P` cut off but not yet freed. `Eff` says what
a piece of an operation may do to the frames and to memory outside its own tree; it composes, so
the loops of `vmm.c` are chains of three stores (`Tree.graft`, `Tree.prune`, `Tree.setLeaf`) and of
releases (`Tree.release`).
-/

namespace GenOS.Phys

open Radix Pmm

/-- The entries of a table, as the walker reads them. -/
def pageShape : Shape Word where
  child w := if w.has ptePresent && !w.has pteLarge then some (tableAt w) else none
  live w := w.has ptePresent
  width := 512
  live_of_child h := by
    split at h
    · rename_i hc
      simp only [Bool.and_eq_true] at hc
      exact hc.1
    · cases h

/-- A part of the 512 slots of a root table. -/
structure Slots where
  idx : List Nat
  nodup : idx.Nodup
  lt : ∀ i ∈ idx, i < 512

/-- The slots of an address space's own tables. -/
def lowerHalf : Slots := ⟨List.range 256, List.nodup_range, fun i hi => by
  have := List.mem_range.mp hi
  omega⟩

/-- The slots copied from the kernel's root. -/
def upperHalf : Slots := ⟨List.range' 256 256, List.nodup_range', fun i hi => by
  have := List.mem_range'_1.mp hi
  omega⟩

def wholeTree : Slots := ⟨List.range 512, List.nodup_range, fun _ => List.mem_range.mp⟩

theorem lowerHalf_idx : lowerHalf.idx = List.range 256 := by simp only [lowerHalf]

theorem mem_lowerHalf {i : Nat} : i ∈ lowerHalf.idx ↔ i < 256 := by
  simp only [lowerHalf, List.mem_range]

theorem mem_upperHalf {i : Nat} : i ∈ upperHalf.idx ↔ 256 ≤ i ∧ i < 512 := by
  simp only [upperHalf, List.mem_range'_1]

theorem mem_wholeTree {i : Nat} : i ∈ wholeTree.idx ↔ i < 512 := by
  simp only [wholeTree, List.mem_range]

/-- The tables of a tree, its root first. -/
def tables (s : Phys) (r : Nat) (I : Slots) : List Nat := Radix.tables pageShape s.mem 3 I.idx r

/-- The words the hardware reads for the indices `k`, down to the leaf. -/
def lookup (s : Phys) (r : Nat) (k : Nat → Nat) : Option (List Word) :=
  path pageShape s.mem 3 r k

/-- `va` leads to table `u` of level `j` through the words `es`. -/
def Reaches (s : Phys) (r va j u : Nat) (es : List Word) : Prop :=
  Walk pageShape s.mem (indexAt va) 3 r j u es

/-- Every table is occupied, except those in `E`. -/
def Full (s : Phys) (r : Nat) (I : Slots) (E : Nat → Prop) : Prop :=
  ∀ g ∈ s.tables r I, E g ∨ pageShape.Occupied s.mem g

/-- No lookup has changed. -/
def SameView (r : Nat) (I : Slots) (s s' : Phys) : Prop :=
  ∀ k, pageShape.InRange k → k 3 ∈ I.idx → s'.lookup r k = s.lookup r k

/-- A well-formed tree: every table is referenced once and in use. `P` are tables cut off but not
yet freed. -/
structure Tree (s : Phys) (r : Nat) (I : Slots) (P : List Nat) : Prop where
  inv : s.pmm.Inv
  /-- Physical addresses have 52 bits. -/
  small : s.pmm.totalPages ≤ 2 ^ 40
  nodup : (s.tables r I ++ P).Nodup
  used : ∀ g ∈ s.tables r I ++ P, ¬ s.pmm.FreeAt g

/-- What a piece of an operation on a tree may do. -/
structure Eff (r : Nat) (I : Slots) (s : Phys) (P : List Nat) (s' : Phys) (P' : List Nat) :
    Prop where
  tree : s'.Tree r I P'
  moves : Moves s.pmm s'.pmm (s.tables r I ++ P) (s'.tables r I ++ P')
  mem : ∀ g, g ∉ s.tables r I ++ P → ¬ s.pmm.FreeAt g → s'.mem g = s.mem g
  root : ∀ i, i ∉ I.idx → s'.mem r i = s.mem r i
  fresh : ∀ g ∈ s'.tables r I ++ P', g ∈ s.tables r I ++ P ∨ s.pmm.FreeAt g
  kernel : s'.kernelPml4 = s.kernelPml4
  deny : s'.deny = s.deny

variable {s s' s'' : Phys} {r : Nat} {I : Slots} {P P' P'' : List Nat}

theorem indexAt_lt (va l : Nat) : indexAt va l < 512 := Nat.mod_lt _ (by decide)

theorem inRange_indexAt (va : Nat) : pageShape.InRange (indexAt va) := indexAt_lt va

/-- The indices of an address are those of its page. -/
theorem indexAt_page {a b : Nat} (h : a / 4096 = b / 4096) : ∀ l ≤ 3,
    indexAt a l = indexAt b l := by
  intro l hl
  have : l = 0 ∨ l = 1 ∨ l = 2 ∨ l = 3 := by omega
  rcases this with rfl | rfl | rfl | rfl <;> simp only [indexAt] <;> omega

/-- In the lower half they determine the page. -/
theorem page_of_indexAt {a b : Nat} (h : ∀ l ≤ 3, indexAt a l = indexAt b l)
    (ha : a < 0x800000000000) (hb : b < 0x800000000000) : a / 4096 = b / 4096 := by
  have h0 := h 0 (by decide)
  have h1 := h 1 (by decide)
  have h2 := h 2 (by decide)
  have h3 := h 3 (by decide)
  simp only [indexAt] at h0 h1 h2 h3
  omega

theorem child_of_present {w : Word} (h : w.has ptePresent = true) (hl : w.has pteLarge = false) :
    pageShape.child w = some (tableAt w) := by
  simp [pageShape, h, hl]

theorem child_eq_some {w : Word} {c : Nat} (h : pageShape.child w = some c) :
    w.has ptePresent = true ∧ w.has pteLarge = false ∧ tableAt w = c := by
  simp only [pageShape] at h
  split at h
  · rename_i hc
    simp only [Bool.and_eq_true, Bool.not_eq_true'] at hc
    exact ⟨hc.1, hc.2, Option.some.inj h⟩
  · cases h

theorem dead_zero : pageShape.live 0#64 = false := Word.has_zero ptePresent

theorem root_mem (s : Phys) (r : Nat) (I : Slots) : r ∈ s.tables r I :=
  root_mem_tables pageShape s.mem _ _ _

theorem Tree.nodup_tables (h : s.Tree r I P) : (s.tables r I).Nodup :=
  (List.nodup_append.mp h.nodup).1

theorem Tree.used_table (h : s.Tree r I P) {g : Nat} (hg : g ∈ s.tables r I) :
    ¬ s.pmm.FreeAt g :=
  h.used g (List.mem_append_left _ hg)

theorem Reaches.mem_tables {va j u : Nat} {es : List Word} (h : s.Reaches r va j u es)
    (hI : indexAt va 3 ∈ I.idx) : u ∈ s.tables r I :=
  Walk.mem_tables h (inRange_indexAt va) hI

/-- The root table of a walk below the root is not met again. -/
theorem Tree.ne_root (ht : s.Tree r I P) {va j u : Nat} {es : List Word}
    (h : s.Reaches r va j u es) (hI : indexAt va 3 ∈ I.idx) (hj : j < 3) : u ≠ r :=
  Walk.ne_root h (inRange_indexAt va) hI ht.nodup_tables hj

theorem freeAt_lt (hs : s.pmm.totalPages ≤ 2 ^ 40) {f : Nat} (hf : s.pmm.FreeAt f) :
    f % 4096 = 0 ∧ f < 2 ^ 52 := by
  have h1 := hf.1.aligned
  have h2 := hf.1.lt
  omega

/-! ## The entry of a new table -/

theorem tableEntry_built {f : Nat} (ha : f % 4096 = 0) (hlt : f < 2 ^ 52) :
    Word.Built (tableEntry f) (BitVec.ofNat 64 f) (ptePresent ||| pteWrite ||| pteUser) := by
  have := @Word.built (BitVec.ofNat 64 f) (ptePresent ||| pteWrite ||| pteUser)
    (Word.address_ofNat ha hlt) (by decide)
  unfold tableEntry
  rwa [BitVec.or_assoc, BitVec.or_assoc, ← BitVec.or_assoc ptePresent]

theorem tableAt_tableEntry {f : Nat} (ha : f % 4096 = 0) (hlt : f < 2 ^ 52) :
    tableAt (tableEntry f) = f := by
  rw [tableAt, (tableEntry_built ha hlt).address, Word.toNat_ofNat hlt]

theorem tableEntry_flags {f : Nat} (ha : f % 4096 = 0) (hlt : f < 2 ^ 52) :
    (tableEntry f).has ptePresent = true ∧ (tableEntry f).has pteLarge = false ∧
    (tableEntry f).has pteWrite = true ∧ (tableEntry f).has pteUser = true ∧
    (tableEntry f).has pteNx = false := by
  have hb := (tableEntry_built ha hlt).bit
  rw [Word.has_present, Word.has_large, Word.has_write, Word.has_user, Word.has_nx,
    hb 0 (by decide), hb 7 (by decide), hb 1 (by decide), hb 2 (by decide), hb 63 (by decide)]
  decide

theorem child_tableEntry {f : Nat} (ha : f % 4096 = 0) (hlt : f < 2 ^ 52) :
    pageShape.child (tableEntry f) = some f := by
  obtain ⟨h1, h2, -⟩ := tableEntry_flags ha hlt
  rw [child_of_present h1 h2, tableAt_tableEntry ha hlt]

/-! ## Composition -/

namespace SameView

theorem refl : SameView r I s s := fun _ _ _ => rfl

theorem trans (h : SameView r I s s') (h' : SameView r I s' s'') : SameView r I s s'' :=
  fun k hk hI => (h' k hk hI).trans (h k hk hI)

end SameView

namespace Eff

theorem refl (h : s.Tree r I P) : Eff r I s P s P :=
  ⟨h, .refl h.inv, fun _ _ _ => rfl, fun _ _ => rfl, fun _ hg => .inl hg, rfl, rfl⟩

/-- A frame outside the tree that is in use stays so. -/
theorem used (h : Eff r I s P s' P') {g : Nat} (hg : g ∉ s.tables r I ++ P)
    (hf : ¬ s.pmm.FreeAt g) : g ∉ s'.tables r I ++ P' ∧ ¬ s'.pmm.FreeAt g := by
  have hg' : g ∉ s'.tables r I ++ P' := fun hm => (h.fresh g hm).elim hg hf
  refine ⟨hg', h.moves.not_freeAt hf ?_⟩
  rw [List.count_eq_zero_of_not_mem hg]
  exact Nat.zero_le _

theorem trans (h : Eff r I s P s' P') (h' : Eff r I s' P' s'' P'') : Eff r I s P s'' P'' := by
  refine ⟨h'.tree, h.moves.comp h'.moves, fun g hg hf => ?_,
    fun i hi => (h'.root i hi).trans (h.root i hi), fun g hg => ?_, h'.kernel.trans h.kernel,
    h'.deny.trans h.deny⟩
  · obtain ⟨h1, h2⟩ := h.used hg hf
    rw [h'.mem g h1 h2, h.mem g hg hf]
  · rcases h'.fresh g hg with hg' | hf
    · exact h.fresh g hg'
    · by_contra hc
      rw [not_or] at hc
      exact (h.used hc.1 hc.2).2 hf

end Eff

/-- Only the request counter moved. -/
theorem Tree.tick (h : s.Tree r I P) (n : Nat) : Eff r I s P { s with asked := n } P :=
  ⟨⟨h.inv, h.small, h.nodup, h.used⟩, .refl h.inv, fun _ _ _ => rfl, fun _ _ => rfl,
    fun _ hg => .inl hg, rfl, rfl⟩

theorem allocFrame_cases (h : s.pmm.Inv) :
    s.allocFrame = (0, { s with asked := s.asked + 1 }) ∨
    ∃ f p, s.allocFrame = (f, { s with pmm := p, asked := s.asked + 1 }) ∧ f ≠ 0 ∧
      s.pmm.FreeAt f ∧ Moves s.pmm p [] [f] := by
  unfold allocFrame
  split
  · exact .inl rfl
  · rcases allocPage_moves h with ⟨he, -⟩ | ⟨hf, hm⟩
    · rw [he]
      exact .inl rfl
    · exact .inr ⟨_, _, rfl, hf.ne_zero h, hf, hm⟩

/-! ## The three stores -/

/-- A store into a table of the tree, given what it does to the tables. -/
theorem Tree.eff_store (ht : s.Tree r I P) {va j u : Nat} {es : List Word}
    (hw : s.Reaches r va j u es) (hI : indexAt va 3 ∈ I.idx) (x : Word)
    (hp : ((s.store u (indexAt va j) x).tables r I ++ P').Perm (s.tables r I ++ P)) :
    Eff r I s P (s.store u (indexAt va j) x) P' := by
  have hu := hw.mem_tables hI
  refine ⟨⟨ht.inv, ht.small, hp.nodup_iff.mpr ht.nodup, fun g hg => ht.used g (hp.mem_iff.mp hg)⟩,
    (Moves.refl ht.inv).perm (.refl _) hp.symm, fun g hg _ => ?_, fun i hi => ?_,
    fun g hg => .inl (hp.mem_iff.mp hg), rfl, rfl⟩
  · exact put_ne_table fun he : g = u => hg (he ▸ List.mem_append_left _ hu)
  · rcases Nat.lt_or_eq_of_le hw.le with hlt | rfl
    · exact congrFun (put_ne_table (ht.ne_root hw hI hlt).symm) i
    · exact put_ne_word fun he => hi (he ▸ hI)

/-- What is known of a freshly mapped table. -/
structure Grafted (r : Nat) (I : Slots) (s s' : Phys) (u slot f : Nat) : Prop where
  view : SameView r I s s'
  perm : (s'.tables r I).Perm (f :: s.tables r I)
  free : s.pmm.FreeAt f
  entry : s'.mem u slot = tableEntry f
  dead : (s.mem u slot).has ptePresent = false
  words : ∀ g i, g ≠ f → ¬ (g = u ∧ i = slot) → s'.mem g i = s.mem g i
  empty : ¬ pageShape.Occupied s'.mem f

/-- **A new table**: a dead slot of a table `u` gets a zeroed free frame. -/
theorem Tree.graft (ht : s.Tree r I P) {va j u f n : Nat} {es : List Word} {p : Pmm}
    (hw : s.Reaches r va (j + 1) u es) (hI : indexAt va 3 ∈ I.idx)
    (hdead : (s.mem u (indexAt va (j + 1))).has ptePresent = false) (hf : s.pmm.FreeAt f)
    (hm : Moves s.pmm p [] [f])
    (he : s' = (zeroFrame { s with pmm := p, asked := n } f).store u (indexAt va (j + 1))
      (tableEntry f)) :
    Eff r I s P s' P ∧ Grafted r I s s' u (indexAt va (j + 1)) f ∧
      s'.Reaches r va j f (es ++ [tableEntry f]) := by
  obtain ⟨ha, hlt⟩ := freeAt_lt ht.small hf
  have hu := hw.mem_tables hI
  have hfT : f ∉ s.tables r I ++ P := fun hg => ht.used f hg hf
  have hfu : f ≠ u := fun h => hfT (h ▸ List.mem_append_left _ hu)
  have hk := inRange_indexAt va
  -- zeroing the frame is not seen from the tree
  let m := Cells.set s.mem f fun _ => 0#64
  have hmem : s'.mem = put m u (indexAt va (j + 1)) (tableEntry f) := by
    rw [he]
    rfl
  have hag : Agree pageShape s.mem m 3 I.idx r := .of_tables I.lt fun g hg i _ => by
    have : g ≠ f := fun h => hfT (h ▸ List.mem_append_left _ hg)
    simp only [m, Cells.set_of_ne this]
    exact .inl rfl
  have htab : Radix.tables pageShape m 3 I.idx r = s.tables r I := tables_congr hag
  have hd : (Radix.tables pageShape m 3 I.idx r).Nodup := htab ▸ ht.nodup_tables
  have hw' : Walk pageShape m (indexAt va) 3 r (j + 1) u es := Walk.congr hw hag hk hI
  have hmu : m u = s.mem u := Cells.set_of_ne hfu.symm _ _
  have hdead' : pageShape.live (m u (indexAt va (j + 1))) = false := by
    rw [hmu]
    exact hdead
  have hz : ¬ pageShape.Occupied m f := by
    rintro ⟨i, -, hl⟩
    simp only [m, Cells.set_self, dead_zero] at hl
    cases hl
  have hc := child_tableEntry ha hlt
  have hperm : (s'.tables r I).Perm (f :: s.tables r I) := by
    rw [← htab, tables, hmem]
    exact tables_graft hw' hk hI I.nodup hd hdead' hc hfu hz
  have hpermP : (s'.tables r I ++ P).Perm (f :: (s.tables r I ++ P)) := hperm.append_right P
  have hpmm : s'.pmm = p := by rw [he]; rfl
  have hmv : Moves s.pmm s'.pmm (s.tables r I ++ P) (s'.tables r I ++ P) := by
    rw [hpmm]
    exact (hm.frame (s.tables r I ++ P)).perm (.refl _) hpermP.symm
  have hwords : ∀ g i, g ≠ f → ¬ (g = u ∧ i = indexAt va (j + 1)) → s'.mem g i = s.mem g i := by
    intro g i hg hgi
    rw [hmem]
    by_cases hgu : g = u
    · subst hgu
      rw [put_ne_word fun hi => hgi ⟨rfl, hi⟩, hmu]
    · rw [put_ne_table hgu]
      simp only [m, Cells.set_of_ne hg]
  have hwalk := (Walk.put hw' (tableEntry f) hk hI hd).snoc (c := f) (by rw [put_self]; exact hc)
  rw [put_self, ← hmem] at hwalk
  refine ⟨⟨⟨hmv.inv, ?_, ?_, ?_⟩, hmv, ?_, ?_, ?_, by rw [he]; rfl, by rw [he]; rfl⟩,
    ⟨?_, hperm, hf, by rw [hmem, put_self], hdead, hwords, ?_⟩, hwalk⟩
  · rw [hpmm, hm.total]
    exact ht.small
  · exact hpermP.nodup_iff.mpr (List.nodup_cons.mpr ⟨hfT, ht.nodup⟩)
  · intro g hg hfree
    rcases List.mem_cons.mp (hpermP.mem_iff.mp hg) with rfl | hg
    · have h1 := hm.refs g hf.1
      have h2 := (hpmm ▸ hfree).2
      rw [List.count_nil, List.count_singleton_self] at h1
      omega
    · rw [hpmm] at hfree
      exact hm.not_freeAt (ht.used g hg) (Nat.zero_le _) hfree
  · intro g hg hfree
    funext i
    refine hwords g i (fun h => hfree (h ▸ hf)) fun h => hg ?_
    rw [h.1]
    exact List.mem_append_left _ hu
  · intro i hi
    refine hwords r i (fun h => hfT (h ▸ List.mem_append_left _ (root_mem s r I))) fun h => ?_
    rcases Nat.lt_or_eq_of_le hw.le with hlt | heq
    · exact ht.ne_root hw hI hlt h.1.symm
    · rw [heq] at h
      exact hi (h.2 ▸ hI)
  · intro g hg
    rcases List.mem_cons.mp (hpermP.mem_iff.mp hg) with rfl | hg
    · exact .inr hf
    · exact .inl hg
  · intro k hk' hkI
    have h1 := path_graft hw' hk hI hd hdead' hc hfu hz hk' hkI
    rw [path_congr hag hk' hkI, ← hmem] at h1
    exact h1
  · rintro ⟨i, hi, hl⟩
    rw [hmem, put_ne_table hfu] at hl
    exact hz ⟨i, hi, hl⟩

/-- **Cutting off an empty table.** -/
theorem Tree.prune (ht : s.Tree r I P) {va j u c : Nat} {es : List Word}
    (hw : s.Reaches r va (j + 1) u es) (hI : indexAt va 3 ∈ I.idx)
    (hc : pageShape.child (s.mem u (indexAt va (j + 1))) = some c)
    (hz : ¬ pageShape.Occupied s.mem c) :
    Eff r I s P (s.store u (indexAt va (j + 1)) 0#64) (c :: P) ∧
    SameView r I s (s.store u (indexAt va (j + 1)) 0#64) ∧
    (c :: (s.store u (indexAt va (j + 1)) 0#64).tables r I).Perm (s.tables r I) := by
  have hk := inRange_indexAt va
  have hperm := tables_prune hw hk hI I.nodup ht.nodup_tables hc hz dead_zero
  refine ⟨ht.eff_store hw hI _ ?_, fun k hk' hkI =>
    path_prune hw hk hI ht.nodup_tables hc hz dead_zero hk' hkI, hperm⟩
  exact List.perm_middle.trans (hperm.append_right P)

/-- **A leaf written or cleared.** -/
theorem Tree.setLeaf (ht : s.Tree r I P) {va u : Nat} {es : List Word}
    (hw : s.Reaches r va 0 u es) (hI : indexAt va 3 ∈ I.idx) (x : Word) :
    Eff r I s P (s.store u (indexAt va 0) x) P ∧
    ((s.store u (indexAt va 0) x).tables r I).Perm (s.tables r I) ∧
    ∀ k, pageShape.InRange k → k 3 ∈ I.idx → (s.store u (indexAt va 0) x).lookup r k =
      if ∀ l ≤ 3, k l = indexAt va l then if x.has ptePresent then some (es ++ [x]) else none
      else s.lookup r k := by
  have hk := inRange_indexAt va
  have hperm := tables_setLeaf hw x hk hI I.nodup ht.nodup_tables
  exact ⟨ht.eff_store hw hI x (hperm.append_right P), hperm, fun k hk' hkI =>
    path_setLeaf hw x hk hI ht.nodup_tables hk' hkI⟩

/-! ## Releasing -/

theorem tables_congr_mem (h : s'.mem = s.mem) : s'.tables r I = s.tables r I := by
  rw [tables, h]
  rfl

/-- A table that was cut off goes back to the allocator. -/
theorem Tree.release {c : Nat} (ht : s.Tree r I (c :: P)) :
    Eff r I s (c :: P) (s.freeFrame c) P := by
  have hperm : (s.tables r I ++ c :: P).Perm (c :: (s.tables r I ++ P)) := List.perm_middle
  have hnd := List.nodup_cons.mp (hperm.nodup_iff.mp ht.nodup)
  have hm := freePage_moves ht.inv (ht.used c (hperm.mem_iff.mpr List.mem_cons_self))
  have hmv : Moves s.pmm (s.freeFrame c).pmm (s.tables r I ++ c :: P) (s.tables r I ++ P) :=
    (hm.frame (s.tables r I ++ P)).perm hperm.symm (.refl _)
  refine ⟨⟨hm.inv, hm.total.symm ▸ ht.small, hnd.2, fun g hg => ?_⟩, hmv, fun _ _ _ => rfl,
    fun _ _ => rfl, fun g hg => .inl (hperm.mem_iff.mpr (List.mem_cons_of_mem _ hg)), rfl, rfl⟩
  refine hm.not_freeAt (ht.used g (hperm.mem_iff.mpr (List.mem_cons_of_mem _ hg))) ?_
  rw [List.count_singleton, beq_eq_false_iff_ne.mpr fun h : c = g => hnd.1 (h ▸ hg)]
  exact Nat.le_refl 0

@[simp] theorem foldl_freeFrame_mem (l : List Nat) (s : Phys) :
    (l.foldl freeFrame s).mem = s.mem := by
  induction l generalizing s with
  | nil => rfl
  | cons c l ih => exact ih (s.freeFrame c)

theorem foldl_freeFrame_pmm (l : List Nat) (s : Phys) :
    (l.foldl freeFrame s).pmm = l.foldl pmmFreePage s.pmm := by
  induction l generalizing s with
  | nil => rfl
  | cons c l ih => exact ih (s.freeFrame c)

@[simp] theorem foldl_freeFrame_kernel (l : List Nat) (s : Phys) :
    (l.foldl freeFrame s).kernelPml4 = s.kernelPml4 := by
  induction l generalizing s with
  | nil => rfl
  | cons c l ih => exact ih (s.freeFrame c)

@[simp] theorem foldl_freeFrame_deny (l : List Nat) (s : Phys) :
    (l.foldl freeFrame s).deny = s.deny := by
  induction l generalizing s with
  | nil => rfl
  | cons c l ih => exact ih (s.freeFrame c)

theorem Tree.releaseAll {l : List Nat} (ht : s.Tree r I (l ++ P)) :
    Eff r I s (l ++ P) (l.foldl freeFrame s) P := by
  induction l generalizing s with
  | nil => exact .refl ht
  | cons c l ih => exact ht.release.trans (ih ht.release.tree)

end GenOS.Phys
