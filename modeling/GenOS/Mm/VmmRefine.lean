import GenOS.Mm.VmmSpace

/-!
# The page tables refine a map

What the virtual memory manager is for: a map from addresses to a physical address and flags
(`AddrMap`), changed by inserting and erasing ranges. `translate` is the map a tree stands for.
`vmm_refines` says that along every run from a well-formed tree each call either inserts or erases
exactly its range, or fails and changes no translation, and accounts for every table frame.
-/

namespace GenOS.Phys

open Radix Pmm

/-! ## The abstract map -/

/-- Physical address and flags for each mapped address. -/
abbrev AddrMap : Type := Nat → Option (Word × Word)

namespace AddrMap

/-- Map `pages` from `base` on. -/
def insert (f : AddrMap) (base : Nat) (pages : List Word) (flags : Word) : AddrMap := fun va =>
  if base ≤ va ∧ va < base + pages.length * 4096 then
    (pages[(va - base) / 4096]?).map fun p => (p, flags)
  else f va

/-- Unmap `count` pages from `base` on. -/
def erase (f : AddrMap) (base count : Nat) : AddrMap := fun va =>
  if base ≤ va ∧ va < base + count * 4096 then none else f va

/-- How many of the `count` pages from `base` on are mapped. -/
def mapped (f : AddrMap) (base count : Nat) : Nat :=
  (List.range count).countP fun i => (f (base + i * 4096)).isSome

theorem mapped_succ (f : AddrMap) (base count : Nat) : f.mapped base (count + 1) =
    f.mapped base count + if (f (base + count * 4096)).isSome then 1 else 0 := by
  rw [mapped, List.range_succ, List.countP_append, List.countP_singleton]
  rfl

end AddrMap

/-- What a 4 KiB leaf at the end of a four-level walk says. -/
def leafOf : Option (List Word) → Option (Word × Word)
  | some [_, _, _, leaf] => some (vmmPteAddress leaf, leaf &&& pteFlagMask)
  | _ => none

/-- **The map a tree stands for.** -/
def translate (s : Phys) (r : Nat) : AddrMap := fun va =>
  if canonical va then leafOf (s.lookup r (indexAt va)) else none

/-- A hardware permission. -/
structure Perm where
  user : Bool
  write : Bool
  exec : Bool
  deriving DecidableEq, Repr

namespace Perm

/-- The permission bits of one entry. -/
def ofEntry (w : Word) : Perm := ⟨w.has pteUser, w.has pteWrite, !w.has pteNx⟩

def meet (p q : Perm) : Perm := ⟨p.user && q.user, p.write && q.write, p.exec && q.exec⟩

/-- The conjunction over the entries of a walk. -/
def effective (es : List Word) : Perm :=
  es.foldr (fun w p => (ofEntry w).meet p) ⟨true, true, true⟩

/-- Ancestors that permit the flags of the leaf leave the leaf's permission as it is. -/
theorem effective_of_permits {es : List Word} {flags leaf : Word}
    (h : ∀ e ∈ es, refused flags e = false) (hl : ofEntry leaf = ofEntry flags) :
    effective (es ++ [leaf]) = ofEntry flags := by
  induction es with
  | nil => simp [effective, meet, hl]
  | cons e es ih =>
    have he := h e List.mem_cons_self
    show (ofEntry e).meet (effective (es ++ [leaf])) = _
    rw [ih fun x hx => h x (List.mem_cons_of_mem _ hx)]
    simp only [refused, Bool.or_eq_false_iff, Bool.and_eq_false_iff, Bool.not_eq_false'] at he
    obtain ⟨⟨⟨-, hu⟩, hw⟩, hx⟩ := he
    simp only [meet, ofEntry, Perm.mk.injEq]
    refine ⟨?_, ?_, ?_⟩
    · rcases hu with hu | hu <;> simp [hu]
    · rcases hw with hw | hw <;> simp [hw]
    · rcases hx with hx | hx <;> simp [hx]

theorem ofEntry_built {w phys flags : Word} (h : Word.Built w phys flags) :
    ofEntry w = ofEntry flags := by
  simp only [ofEntry, Word.has_user, Word.has_write, Word.has_nx, h.bit 2 (by decide),
    h.bit 1 (by decide), h.bit 63 (by decide)]

end Perm

variable {s s' : Phys} {r : Nat} {base count va : Nat}

/-! ## Addresses inside a range -/

theorem atPage_iff {p : Nat} (hv : canonical va = true) (hp : canonical p = true)
    (ha : p % 4096 = 0) : AtPage (indexAt va) p ↔ p ≤ va ∧ va < p + 4096 := by
  have hin : AtPage (indexAt va) (va / 4096 * 4096) := fun l hl => by
    have : l = 0 ∨ l = 1 ∨ l = 2 ∨ l = 3 := by omega
    rcases this with rfl | rfl | rfl | rfl <;> simp only [indexAt] <;> omega
  have hcan : canonical (va / 4096 * 4096) = true := by
    rw [canonical_iff] at hv ⊢
    omega
  constructor
  · intro h
    have := atPage_inj hin h hcan hp (by omega) ha
    omega
  · rintro ⟨h1, h2⟩
    rwa [show va / 4096 * 4096 = p by omega] at hin

/-- The address `va` lies in a range of pages. -/
def InRange (base count va : Nat) : Prop := base ≤ va ∧ va < base + count * 4096

theorem inPages_iff (hc : count < 2 ^ 32) (hv : validRange base count = true)
    (hva : canonical va = true) : InPages base count (indexAt va) ↔ InRange base count va := by
  have hal := ((validRange_iff hc).mp hv).2.1
  constructor
  · rintro ⟨i, hi, hat⟩
    obtain ⟨h1, h2⟩ := validRange_page hc hv hi
    rw [atPage_iff hva h1 h2] at hat
    exact ⟨by omega, by omega⟩
  · rintro ⟨h1, h2⟩
    have hi : (va - base) / 4096 < count := by omega
    obtain ⟨g1, g2⟩ := validRange_page hc hv hi
    exact ⟨(va - base) / 4096, hi, (atPage_iff hva g1 g2).mpr (by omega)⟩

/-! ## The two halves of a tree -/

theorem wholeTree_idx : wholeTree.idx = lowerHalf.idx ++ upperHalf.idx := by
  simp only [wholeTree, lowerHalf, upperHalf, List.range_eq_range']
  exact (@List.range'_append_1 0 256 256).symm

theorem tables_whole (s : Phys) (r : Nat) : s.tables r wholeTree =
    r :: (lowerHalf.idx.flatMap (sub pageShape s.mem 3 r) ++
      upperHalf.idx.flatMap (sub pageShape s.mem 3 r)) := by
  rw [tables, tables_eq, wholeTree_idx, List.flatMap_append]

theorem tables_half (s : Phys) (r : Nat) (I : Slots) :
    s.tables r I = r :: I.idx.flatMap (sub pageShape s.mem 3 r) := tables_eq ..

theorem Tree.sublist {I J : Slots} {P : List Nat} (h : s.Tree r I P)
    (hs : (s.tables r J).Sublist (s.tables r I)) : s.Tree r J P :=
  ⟨h.inv, h.small, (hs.append_right P).nodup h.nodup,
    fun g hg => h.used g ((hs.append_right P).subset hg)⟩

theorem lower_sublist (s : Phys) (r : Nat) :
    (s.tables r lowerHalf).Sublist (s.tables r wholeTree) := by
  rw [tables_whole, tables_half]
  exact (List.sublist_append_left _ _).cons_cons r

theorem upper_sublist (s : Phys) (r : Nat) :
    (s.tables r upperHalf).Sublist (s.tables r wholeTree) := by
  rw [tables_whole, tables_half]
  exact (List.sublist_append_right _ _).cons_cons r

/-- **A well-formed tree**: every table is referenced once and in use, and no table of the lower
half is empty. -/
structure WellFormed (s : Phys) (r : Nat) : Prop where
  root : r ≠ 0
  tree : s.Tree r wholeTree []
  lower : s.Full r lowerHalf (· = r)

theorem WellFormed.lowerTree (h : s.WellFormed r) : s.Tree r lowerHalf [] :=
  h.tree.sublist (lower_sublist s r)

theorem WellFormed.upperTree (h : s.WellFormed r) : s.Tree r upperHalf [] :=
  h.tree.sublist (upper_sublist s r)

/-- A kernel-half operation does not touch the lower half. -/
theorem Eff.lower (h : Eff r upperHalf s [] s' []) (hwf : s.WellFormed r) :
    s'.Full r lowerHalf (· = r) := by
  have hdisj : ∀ i ∈ lowerHalf.idx, ∀ g ∈ sub pageShape s.mem 3 r i,
      g ∉ s.tables r upperHalf ++ [] := by
    intro i hi g hg hup
    rw [List.append_nil, tables_half] at hup
    have hnd := hwf.tree.nodup_tables
    rw [tables_whole] at hnd
    have hgl : g ∈ lowerHalf.idx.flatMap (sub pageShape s.mem 3 r) :=
      List.mem_flatMap.mpr ⟨i, hi, hg⟩
    obtain ⟨h1, h2⟩ := List.nodup_cons.mp hnd
    rcases List.mem_cons.mp hup with rfl | hup
    · exact h1 (List.mem_append_left _ hgl)
    · exact (List.nodup_append.mp h2).2.2 g hgl g hup rfl
  have hmem : ∀ i ∈ lowerHalf.idx, ∀ g ∈ sub pageShape s.mem 3 r i, s'.mem g = s.mem g :=
    fun i hi g hg => h.mem g (hdisj i hi g hg) (hwf.lowerTree.used_table
      (Radix.mem_tables.mpr (.inr ⟨i, hi, hg⟩)))
  have hag : Agree pageShape s.mem s'.mem 3 lowerHalf.idx r := by
    refine ⟨fun i hi => .inl (h.root i fun hu => ?_).symm, fun i hi g hg j _ => ?_⟩
    · have := mem_lowerHalf.mp hi
      have := mem_upperHalf.mp hu
      omega
    · rw [hmem i hi g hg]
      exact .inl rfl
  intro g hg
  have htab : s'.tables r lowerHalf = s.tables r lowerHalf := tables_congr hag
  rw [htab] at hg
  refine (hwf.lower g hg).elim .inl fun ⟨j, hj, hl⟩ => ?_
  rcases Radix.mem_tables.mp hg with rfl | ⟨i, hi, hgi⟩
  · exact .inl rfl
  · exact .inr ⟨j, hj, by rw [hmem i hi g hgi]; exact hl⟩

/-- An address is in the half its root index says. -/
theorem index_half (va : Nat) :
    indexAt va 3 ∈ lowerHalf.idx ∨ indexAt va 3 ∈ upperHalf.idx := by
  have := indexAt_lt va 3
  rw [mem_lowerHalf, mem_upperHalf]
  omega

theorem index_whole (va : Nat) : indexAt va 3 ∈ wholeTree.idx :=
  mem_wholeTree.mpr (indexAt_lt va 3)

/-- The pages of a valid range are in one half. -/
theorem range_half (hc : count < 2 ^ 32) (hv : validRange base count = true) :
    (∀ a, base ≤ a → a ≤ base + (count - 1) * 4096 → indexAt a 3 ∈ lowerHalf.idx) ∨
    (0xFFFF800000000000 ≤ base ∧
      ∀ a, base ≤ a → a ≤ base + (count - 1) * 4096 → indexAt a 3 ∈ upperHalf.idx) := by
  rw [validRange_iff hc] at hv
  obtain ⟨h0, -, hl | ⟨hu, ht⟩⟩ := hv
  · refine .inl fun a h1 h2 => mem_lowerHalf.mpr ?_
    simp only [indexAt]
    omega
  · refine .inr ⟨hu, fun a h1 h2 => mem_upperHalf.mpr ?_⟩
    simp only [indexAt]
    omega

/-! ## What each call does -/

/-- A call of the memory manager on the tree. -/
inductive VmmOp where
  | mapPage (va : Nat) (phys flags : Word)
  | mapPages (base : Nat) (pages : { l : List Word // l.length < 2 ^ 32 }) (flags : Word)
  | unmapPage (va : Nat)
  | unmapPages (base : Nat) (count : UInt32)

/-- What a call returns. -/
inductive VmmReply where
  | mapped (ok : Bool)
  | frame (phys : Word)
  | removed (count : Nat)
  deriving DecidableEq

/-- What the call returns and the state after it. -/
def call (s : Phys) (r : Nat) : VmmOp → VmmReply × Phys
  | .mapPage va phys flags => (s.vmmMapPageIn r va phys flags).map .mapped id
  | .mapPages base pages flags => (s.vmmMapPagesIn r base pages.1 flags).map .mapped id
  | .unmapPage va => (s.vmmUnmapPageIn r va).map .frame id
  | .unmapPages base count => (s.vmmUnmapPagesIn r base count.toNat).map .removed id

/-- The state after a sequence of calls. -/
def calls (s : Phys) (r : Nat) (ops : List VmmOp) : Phys :=
  ops.foldl (fun s op => (s.call r op).2) s

/-- What every call guarantees: the table frames are accounted for, and no other frame loses a
reference. -/
structure Accounted (s s' : Phys) (r : Nat) : Prop where
  moves : Moves s.pmm s'.pmm (s.tables r wholeTree) (s'.tables r wholeTree)
  leaves : ∀ a, s.pmm.Tracked a → a ∉ s.tables r wholeTree →
    s.pmm.refcounts (a / 4096) ≤ s'.pmm.refcounts (a / 4096)

/-- A map call that failed. `counts` says when the reference counts are as before too. -/
structure MapFails (s s' : Phys) (r : Nat) (counts : Prop) : Prop where
  map : s'.translate r = s.translate r
  lookups : ∀ k, pageShape.InRange k → s'.lookup r k = s.lookup r k
  refs : counts → ∀ i < s.pmm.totalPages, s'.pmm.refcounts i = s.pmm.refcounts i

/-- A map call that succeeded. -/
structure MapSucceeds (s s' : Phys) (r base : Nat) (pages : List Word) (flags : Word) :
    Prop where
  map : s'.translate r = (s.translate r).insert base pages flags
  fresh : ∀ va, InRange base pages.length va → s.lookup r (indexAt va) = none
  perm : ∀ va, InRange base pages.length va → ∃ es, s'.lookup r (indexAt va) = some es ∧
    es.length = 4 ∧ Perm.effective es = Perm.ofEntry flags
  other : ∀ va, canonical va = true → ¬ InRange base pages.length va →
    s'.lookup r (indexAt va) = s.lookup r (indexAt va)

/-- A table directly below the root in the kernel half. -/
def KernelTop (s : Phys) (r g : Nat) : Prop :=
  ∃ va es, 0xFFFF800000000000 ≤ va ∧ va < 2 ^ 64 ∧ s.Reaches r va 2 g es

/-- An unmap call on valid arguments: the range is erased, and the tables that became empty, and
no others, are returned. A huge leaf inside the range is kept, and if no page of the range is mapped
nothing changes at all. -/
structure Unmaps (s s' : Phys) (r base count : Nat) : Prop where
  map : s'.translate r = (s.translate r).erase base count
  noop : (s.translate r).mapped base count = 0 → s' = s
  skipped : ∀ va, canonical va = true → s.translate r va = none →
    s'.lookup r (indexAt va) = s.lookup r (indexAt va)
  other : ∀ va, canonical va = true → ¬ InRange base count va →
    s'.lookup r (indexAt va) = s.lookup r (indexAt va)
  sub : ∀ g ∈ s'.tables r wholeTree, g ∈ s.tables r wholeTree
  returned : ∀ g ∈ s.tables r wholeTree, g ∉ s'.tables r wholeTree →
    ¬ pageShape.Occupied s'.mem g
  kept : ∀ g ∈ s'.tables r wholeTree, pageShape.Occupied s'.mem g ∨
    ¬ pageShape.Occupied s.mem g ∨ g = r ∨ s.KernelTop r g

/-- What a call does. An unmap of one page returns the physical address the page had, and `0` if it
was not mapped; an unmap of a range returns how many of its pages were mapped. -/
def CallSpec (s : Phys) (r : Nat) (op : VmmOp) : Prop :=
  Accounted s (s.call r op).2 r ∧
  match op with
  | .mapPage va phys flags =>
    ((s.call r op).1 = .mapped false ∧ MapFails s (s.call r op).2 r True) ∨
    ((s.call r op).1 = .mapped true ∧ MapSucceeds s (s.call r op).2 r va [phys] flags)
  | .mapPages base pages flags =>
    ((s.call r op).1 = .mapped false ∧ MapFails s (s.call r op).2 r (base < 0x800000000000)) ∨
    ((s.call r op).1 = .mapped true ∧ MapSucceeds s (s.call r op).2 r base pages.1 flags)
  | .unmapPage va =>
    if canonical va && va % 4096 == 0 then
      (s.call r op).1 = .frame (((s.translate r va).map Prod.fst).getD 0#64) ∧
      Unmaps s (s.call r op).2 r va 1
    else s.call r op = (.frame 0#64, s)
  | .unmapPages base count =>
    if validRange base count.toNat then
      (s.call r op).1 = .removed ((s.translate r).mapped base count.toNat) ∧
      Unmaps s (s.call r op).2 r base count.toNat ∧
      (chunks count.toNat base (base + (count.toNat - 1) * 4096)).isSome = true ∧
      ∀ (vas : List Nat) (R : Retired), (vas.foldl (pruneChunk r) (R, s)).1.1.length < 16
    else s.call r op = (.removed 0, s)

/-! ### Accounting -/

theorem accounted (h : Eff r wholeTree s [] s' []) : Accounted s s' r := by
  have hm : Moves s.pmm s'.pmm (s.tables r wholeTree) (s'.tables r wholeTree) := by
    simpa using h.moves
  refine ⟨hm, fun a ht ha => ?_⟩
  have := hm.refs a ht
  rw [List.count_eq_zero_of_not_mem ha] at this
  omega

theorem refs_of_moves (hm : Moves s.pmm s'.pmm [] []) :
    ∀ i < s.pmm.totalPages, s'.pmm.refcounts i = s.pmm.refcounts i := by
  intro i hi
  by_cases hr : s.pmm.Reserved i
  · exact ((hm.reserved i).mpr hr).trans hr.symm
  · have hidx : i * 4096 / 4096 = i := by omega
    have := hm.refs (i * 4096) ⟨by omega, by rwa [hidx], by rwa [hidx]⟩
    rw [hidx] at this
    simpa using this

theorem translate_of_none {a : Nat} (h : s.lookup r (indexAt a) = none) :
    s.translate r a = none := by
  unfold translate
  rw [h]
  split
  · rfl
  · rfl

theorem translate_congr {a : Nat} (h : s'.lookup r (indexAt a) = s.lookup r (indexAt a)) :
    s'.translate r a = s.translate r a := by
  simp only [translate, h]

theorem mapFails_of_view {counts : Prop} (hv : SameView r wholeTree s s')
    (h : counts → ∀ i < s.pmm.totalPages, s'.pmm.refcounts i = s.pmm.refcounts i) :
    MapFails s s' r counts := by
  have hl : ∀ k, pageShape.InRange k → s'.lookup r k = s.lookup r k := fun k hk =>
    hv k hk (mem_wholeTree.mpr (hk 3))
  exact ⟨funext fun va => translate_congr (hl _ (inRange_indexAt va)), hl, h⟩

/-! ### Mapping -/

/-- A mapped leaf translates to its address and flags. -/
theorem translate_of_leaf {es : List Word} {p flags : Word} (hc : canonical va = true)
    (hlen : es.length = 3) (hb : Word.Built (p ||| flags) p flags)
    (hl : s.lookup r (indexAt va) = some (es ++ [p ||| flags])) :
    s.translate r va = some (p, flags) := by
  match es, hlen with
  | [a, b, c], _ =>
    simp only [translate, hc, ↓reduceIte, hl]
    simp [leafOf, hb.address, hb.flag]

namespace RangeMapped

variable {I : Slots} {pages : List Word} {flags : Word}
variable (h : RangeMapped r I s s' (fun i => base + i * 4096) pages flags)
variable (hr : ∀ i < pages.length,
  canonical (base + i * 4096) = true ∧ (base + i * 4096) % 4096 = 0)

include hr in
/-- An address of the range lies in one of its pages. -/
theorem page (hva : canonical va = true) (hin : InRange base pages.length va) :
    ∃ p, pages[(va - base) / 4096]? = some p ∧ (va - base) / 4096 < pages.length ∧
      AtPage (indexAt va) (base + (va - base) / 4096 * 4096) := by
  obtain ⟨h1, h2⟩ := hin
  have hi : (va - base) / 4096 < pages.length := by omega
  obtain ⟨g1, g2⟩ := hr _ hi
  exact ⟨_, List.getElem?_eq_getElem hi, hi, (atPage_iff hva g1 g2).mpr (by omega)⟩

include h hr

theorem lookup_other (hva : canonical va = true) (hI : indexAt va 3 ∈ I.idx)
    (hn : ¬ InRange base pages.length va) : s'.lookup r (indexAt va) = s.lookup r (indexAt va) :=
  h.other _ (inRange_indexAt va) hI fun i hi hat => by
    obtain ⟨g1, g2⟩ := hr i hi
    rw [atPage_iff hva g1 g2] at hat
    exact hn ⟨by omega, by omega⟩

/-- **The new map.** -/
theorem translate (hva : canonical va = true) (hI : indexAt va 3 ∈ I.idx) :
    s'.translate r va = (s.translate r).insert base pages flags va := by
  unfold AddrMap.insert
  split
  · rename_i hin
    obtain ⟨p, hp, -, hat⟩ := page hr hva hin
    obtain ⟨es, hlen, -, hmap⟩ := h.mapped _ p hp
    have hargs := h.args _ p hp
    rw [translate_of_leaf hva hlen (Word.built hargs.address hargs.flag)
      (hmap _ (inRange_indexAt va) hat), hp]
    rfl
  · rename_i hout
    exact translate_congr (h.lookup_other hr hva hI hout)

/-- The hardware permissions are those of the flags. -/
theorem effective (hva : canonical va = true) (hin : InRange base pages.length va) :
    ∃ es, s'.lookup r (indexAt va) = some es ∧ es.length = 4 ∧
      Perm.effective es = Perm.ofEntry flags := by
  obtain ⟨p, hp, -, hat⟩ := page hr hva hin
  obtain ⟨es, hlen, hperm, hmap⟩ := h.mapped _ p hp
  have hargs := h.args _ p hp
  exact ⟨_, hmap _ (inRange_indexAt va) hat, by simp [hlen],
    Perm.effective_of_permits hperm (Perm.ofEntry_built (Word.built hargs.address hargs.flag))⟩

theorem fresh (hva : canonical va = true) (hin : InRange base pages.length va) :
    s.lookup r (indexAt va) = none := by
  obtain ⟨p, -, hi, hat⟩ := page hr hva hin
  rw [hat.lookup]
  exact h.before _ hi

end RangeMapped

theorem mapSucceeds_of_rangeMapped {pages : List Word} {flags : Word}
    (h : RangeMapped r wholeTree s s' (fun i => base + i * 4096) pages flags)
    (hr : ∀ i < pages.length, canonical (base + i * 4096) = true ∧ (base + i * 4096) % 4096 = 0)
    (hcan : ∀ va, InRange base pages.length va → canonical va = true) :
    MapSucceeds s s' r base pages flags := by
  refine ⟨funext fun va => ?_, fun va hva => h.fresh hr (hcan va hva) hva,
    fun va hva => h.effective hr (hcan va hva) hva,
    fun va hva => h.lookup_other hr hva (index_whole va)⟩
  by_cases hva : canonical va = true
  · exact h.translate hr hva (index_whole va)
  · have hout : ¬ (base ≤ va ∧ va < base + pages.length * 4096) := fun hin => hva (hcan va hin)
    unfold AddrMap.insert
    rw [if_neg hout]
    simp only [Phys.translate, hva, Bool.false_eq_true, ↓reduceIte]

/-- One mapped page is a mapped range of length one. -/
theorem Mapped.range {I : Slots} {p flags : Word} {es : List Word}
    (h : Mapped r I s [] s' va p flags es) (hI : indexAt va 3 ∈ I.idx) :
    RangeMapped r I s s' (fun i => va + i * 4096) [p] flags := by
  have h' : Mapped r I s [] s' (va + 0 * 4096) p flags es := by simpa using h
  refine .cons h' (.nil h.eff.tree) (fun i hi => ?_) fun i hi j hj _ _ _ => ?_
  · obtain rfl : i = 0 := by simpa using hi
    simpa using hI
  · simp only [List.length_nil] at hi hj
    omega

/-! ### Unmapping -/

theorem hasTable_of_translate (h : s.translate r va ≠ none) : s.HasTable r (indexAt va) := by
  unfold translate at h
  split at h
  · unfold leafOf at h
    split at h
    · rename_i a b c d hl
      obtain ⟨j, u, hw⟩ := @walk_of_path _ _ _ (indexAt va) [d] (by simp) 3 r [a, b, c] hl
      have hj := hw.length
      obtain rfl : j = 0 := by simpa using hj
      exact ⟨u, _, hw⟩
    · exact absurd rfl h
  · exact absurd rfl h

/-- The word at the end of a walk is what its address translates to. -/
theorem translate_of_reaches {t : Nat} {es : List Word} (hc : canonical va = true)
    (hw : s.Reaches r va 0 t es) : s.translate r va =
      if (s.mem t (indexAt va 0)).has ptePresent then
        some (vmmPteAddress (s.mem t (indexAt va 0)), s.mem t (indexAt va 0) &&& pteFlagMask)
      else none := by
  have hlen := hw.length
  match es, hlen with
  | [a, b, c], _ =>
    simp only [translate, hc, ↓reduceIte, lookup]
    rw [Walk.path_eq hw, path_zero]
    change leafOf (Option.map _ (if (s.mem t (indexAt va 0)).has ptePresent = true then _ else _)) =
      _
    split
    · rfl
    · rfl

/-- `vmm_pte_in` finds the leaf that `translate` reads. -/
theorem vmmPteIn_some {t i : Nat} (hr : r ≠ 0) (hc : canonical va = true)
    (h : s.vmmPteIn r va = some (t, i)) : i = indexAt va 0 ∧ (∃ es, s.Reaches r va 0 t es) ∧
      (s.mem t i).has ptePresent = true ∧
      s.translate r va = some (vmmPteAddress (s.mem t i), s.mem t i &&& pteFlagMask) := by
  rcases vmmPteIn_spec s hr hc with ⟨hn, -⟩ | ⟨u, es, he, hw, hp⟩
  · rw [h] at hn
    cases hn
  · rw [h] at he
    cases he
    refine ⟨rfl, ⟨es, hw⟩, hp, ?_⟩
    rw [translate_of_reaches hc hw, if_pos hp]

theorem vmmPteIn_none (hr : r ≠ 0) (hc : canonical va = true) :
    s.vmmPteIn r va = none ↔ s.translate r va = none := by
  rcases vmmPteIn_spec s hr hc with ⟨hn, hdead⟩ | ⟨u, es, he, hw, hp⟩
  · refine ⟨fun _ => ?_, fun _ => hn⟩
    by_contra hne
    obtain ⟨u, es, hw⟩ := hasTable_of_translate hne
    have hu := hdead u es hw
    rw [translate_of_reaches hc hw, hu] at hne
    exact hne rfl
  · rw [he, translate_of_reaches hc hw, if_pos hp]
    simp

namespace Unmapped

variable {I : Slots} {V : (Nat → Nat) → Prop} (h : Unmapped r I s s' V)
variable (hV : V (indexAt va) ↔ InRange base count va) (hI : indexAt va 3 ∈ I.idx)

include h hV hI

theorem lookup_other (hn : ¬ InRange base count va) :
    s'.lookup r (indexAt va) = s.lookup r (indexAt va) :=
  h.view _ (inRange_indexAt va) hI fun hc => hn (hV.mp hc.1)

/-- **The new map.** -/
theorem translate (hva : canonical va = true) :
    s'.translate r va = (s.translate r).erase base count va := by
  unfold AddrMap.erase
  split
  · rename_i hin
    by_cases hT : s.HasTable r (indexAt va)
    · simp only [Phys.translate, hva, ↓reduceIte, h.gone _ (inRange_indexAt va) hI (hV.mpr hin) hT]
      rfl
    · -- a huge leaf, or nothing
      rw [translate_congr (h.view _ (inRange_indexAt va) hI fun hc => hT hc.2)]
      by_contra hne
      exact hT (hasTable_of_translate hne)
  · rename_i hout
    exact translate_congr (h.lookup_other hV hI hout)

end Unmapped

/-- An address that is not mapped keeps its walk, be it a huge leaf or nothing. -/
theorem Unmapped.lookup_skipped {V : (Nat → Nat) → Prop} (h : Unmapped r wholeTree s s' V)
    (hva : canonical va = true) (hn : s.translate r va = none) :
    s'.lookup r (indexAt va) = s.lookup r (indexAt va) := by
  by_cases hc : V (indexAt va) ∧ s.HasTable r (indexAt va)
  · obtain ⟨hin, t, es, hw⟩ := hc
    rw [h.gone _ (inRange_indexAt va) (index_whole va) hin ⟨t, es, hw⟩]
    rw [translate_of_reaches hva hw] at hn
    refine (lookup_of_dead hw ?_).symm
    by_contra hp
    rw [if_pos (by simpa using hp)] at hn
    cases hn
  · exact h.view _ (inRange_indexAt va) (index_whole va) hc

theorem unmaps_of_unmapped {V : (Nat → Nat) → Prop} (h : Unmapped r wholeTree s s' V)
    (hV : ∀ va, canonical va = true → (V (indexAt va) ↔ InRange base count va))
    (h0 : (s.translate r).mapped base count = 0 → s' = s) :
    Unmaps s s' r base count := by
  refine ⟨funext fun va => ?_, h0, fun va hva => h.lookup_skipped hva,
    fun va hva => h.lookup_other (hV va hva) (index_whole va),
    fun g hg => h.cut.sub g hg, fun g hg hg' => h.cut.gone g hg hg', fun g hg => ?_⟩
  · by_cases hva : canonical va = true
    · exact h.translate (hV va hva) (index_whole va) hva
    · unfold AddrMap.erase
      simp only [translate, hva, Bool.false_eq_true, ↓reduceIte, ite_self]
  · have := h.full (fun g => ¬ pageShape.Occupied s.mem g ∨ g = r ∨ s.KernelTop r g)
      ⟨.inr (.inl rfl), fun va t es h1 h2 _ hw => .inr (.inr ⟨va, es, h1, h2, hw⟩)⟩
      (fun g _ => by
        by_cases ho : pageShape.Occupied s.mem g
        · exact .inr ho
        · exact .inl (.inl ho)) g hg
    exact this.symm

/-- **The leaf loop counts the mapped pages** of its range: the pages before do not change what the
next one translates to. -/
theorem clearLeaf_count (ht : s.Tree r wholeTree []) (hr : r ≠ 0) :
    ∀ n : Nat, (∀ i < n, canonical (base + i * 4096) = true ∧ (base + i * 4096) % 4096 = 0) →
      ((List.range n).foldl (clearLeaf r base) (0, s)).1 = (s.translate r).mapped base n
  | 0, _ => rfl
  | n + 1, h => by
    have ih := clearLeaf_count ht hr n fun i hi => h i (Nat.lt_succ_of_lt hi)
    obtain ⟨hcl, -⟩ := @clearRun s r wholeTree base ht hr n fun i hi =>
      ⟨(h i (Nat.lt_succ_of_lt hi)).1, index_whole _⟩
    obtain ⟨hc, -⟩ := h n (Nat.lt_succ_self n)
    rw [List.range_succ, List.foldl_append, List.foldl_cons, List.foldl_nil, AddrMap.mapped_succ,
      ← ih]
    generalize (List.range n).foldl (clearLeaf r base) (0, s) = acc at hcl ⊢
    have hsame : acc.2.translate r (base + n * 4096) = s.translate r (base + n * 4096) := by
      refine translate_congr (hcl.view _ (inRange_indexAt _) (index_whole _) ?_)
      rintro ⟨⟨i, hi, hat⟩, -⟩
      obtain ⟨hci, hai⟩ := h i (Nat.lt_succ_of_lt hi)
      have := (atPage_iff hc hci hai).mp hat
      omega
    rw [← hsame]
    simp only [clearLeaf]
    cases he : acc.2.vmmPteIn r (base + n * 4096) with
    | none => rw [(vmmPteIn_none hr hc).mp he]; rfl
    | some leaf => rw [(vmmPteIn_some hr hc he).2.2.2]; rfl

/-- `vmm_unmap_pages_in` returns the number of pages that were mapped; for none it changes
nothing. -/
theorem vmmUnmapPagesIn_count (h : s.WellFormed r) (hc : count < 2 ^ 32)
    (hv : validRange base count = true) :
    (s.vmmUnmapPagesIn r base count).1 = (s.translate r).mapped base count ∧
      ((s.translate r).mapped base count = 0 → (s.vmmUnmapPagesIn r base count).2 = s) := by
  have hcount := clearLeaf_count h.tree h.root count fun i hi => validRange_page hc hv hi
  obtain ⟨-, h0⟩ := @clearRun s r wholeTree base h.tree h.root count fun i hi =>
    ⟨(validRange_page hc hv hi).1, index_whole _⟩
  unfold vmmUnmapPagesIn
  simp only [h.root, hv, decide_false, Bool.not_true, Bool.or_self, Bool.false_eq_true, ↓reduceIte]
  generalize (List.range count).foldl (clearLeaf r base) (0, s) = acc at hcount h0
  split
  · next hz => exact ⟨hz.symm.trans hcount, fun _ => h0 hz⟩
  · next hz => exact ⟨hcount, fun hm => absurd (hcount.trans hm) hz⟩

/-- An address whose leaf slot is empty wherever there is one is not mapped. -/
theorem translate_of_absent (hc : canonical va = true)
    (hd : ∀ t es, s.Reaches r va 0 t es → (s.mem t (indexAt va 0)).has ptePresent = false) :
    s.translate r va = none := by
  by_contra hne
  obtain ⟨t, es, hw⟩ := hasTable_of_translate hne
  rw [translate_of_reaches hc hw, if_neg (Bool.eq_false_iff.mp (hd t es hw))] at hne
  exact hne rfl

theorem mapped_one (f : AddrMap) (base : Nat) : f.mapped base 1 = 0 ↔ f base = none := by
  rw [AddrMap.mapped_succ, Nat.zero_mul, Nat.add_zero]
  cases f base <;> simp [AddrMap.mapped]

/-! ### The lower half -/

theorem WellFormed.mapPage (h : s.WellFormed r) (va : Nat) (phys flags : Word) :
    (s.mapPage r va phys flags).2.Full r lowerHalf (· = r) := by
  rcases index_half va with hI | hI
  · rcases mapPage_spec h.lowerTree h.root hI phys flags with ⟨s', he, hu⟩ | ⟨s', es, he, hm⟩
    · rw [he]
      exact hu.full h.lower
    · rw [he]
      exact hm.full _ h.lower
  · rcases mapPage_spec h.upperTree h.root hI phys flags with ⟨s', he, hu⟩ | ⟨s', es, he, hm⟩
    · rw [he]
      exact hu.eff.lower h
    · rw [he]
      exact hm.eff.lower h

theorem WellFormed.mapPages (h : s.WellFormed r) {pages : List Word} (hc : pages.length < 2 ^ 32)
    (hv : validRange base pages.length = true) (flags : Word) :
    (s.vmmMapPagesIn r base pages flags).2.Full r lowerHalf (· = r) := by
  rcases range_half hc hv with hI | ⟨-, hI⟩
  · rcases vmmMapPagesIn_spec h.lowerTree h.root hc hv hI flags with ⟨s', he, hf⟩ | ⟨s', he, hm⟩
    · rw [he]
      exact hf.full lowerOnly_lowerHalf _ rfl h.lower
    · rw [he]
      exact hm.full _ h.lower
  · rcases vmmMapPagesIn_spec h.upperTree h.root hc hv hI flags with ⟨s', he, hf⟩ | ⟨s', he, hm⟩
    · rw [he]
      exact hf.eff.lower h
    · rw [he]
      exact hm.eff.lower h

theorem WellFormed.unmapPages (h : s.WellFormed r) (hc : count < 2 ^ 32)
    (hv : validRange base count = true) :
    (s.vmmUnmapPagesIn r base count).2.Full r lowerHalf (· = r) := by
  rcases range_half hc hv with hI | ⟨-, hI⟩
  · exact (vmmUnmapPagesIn_spec h.lowerTree h.root hc hv hI).full _ (top_lowerHalf rfl) h.lower
  · exact (vmmUnmapPagesIn_spec h.upperTree h.root hc hv hI).eff.lower h

theorem WellFormed.unmapPage (h : s.WellFormed r) (hc : canonical va = true)
    (ha : va % 4096 = 0) : (s.vmmUnmapPageIn r va).2.Full r lowerHalf (· = r) := by
  rcases index_half va with hI | hI
  · rcases vmmUnmapPageIn_spec h.lowerTree h.root hc ha hI with ⟨he, -⟩ | ⟨_, _, -, -, -, hu, -⟩
    · rw [he]
      exact h.lower
    · exact hu.full _ (top_lowerHalf rfl) h.lower
  · rcases vmmUnmapPageIn_spec h.upperTree h.root hc ha hI with ⟨he, -⟩ | ⟨_, _, -, -, -, hu, -⟩
    · rw [he]
      exact h.lower
    · exact hu.eff.lower h

/-! ## One call -/

/-- A call that leaves the state alone. -/
theorem unchanged_spec (h : s.WellFormed r) : Accounted s s r ∧ MapFails s s r True :=
  ⟨accounted (.refl h.tree), mapFails_of_view .refl fun _ _ _ => rfl⟩

theorem mapPage_call (h : s.WellFormed r) (va : Nat) (phys flags : Word) :
    (s.call r (.mapPage va phys flags)).2.WellFormed r ∧
    s.CallSpec r (.mapPage va phys flags) := by
  have hlow := h.mapPage va phys flags
  simp only [CallSpec, call, vmmMapPageIn]
  rcases mapPage_spec h.tree h.root (index_whole va) phys flags with ⟨s', he, hu⟩ | ⟨s', es, he, hm⟩
  · rw [he] at hlow ⊢
    exact ⟨⟨h.root, hu.eff.tree, hlow⟩, accounted hu.eff,
      .inl ⟨rfl, mapFails_of_view hu.view fun _ => refs_of_moves hu.refs⟩⟩
  · rw [he] at hlow ⊢
    refine ⟨⟨h.root, hm.eff.tree, hlow⟩, accounted hm.eff,
      .inr ⟨rfl, mapSucceeds_of_rangeMapped (hm.range (index_whole va)) (fun i hi => ?_)
        fun a ha => ?_⟩⟩
    · obtain rfl : i = 0 := by simpa using hi
      simpa using And.intro hm.args.canonical hm.args.aligned
    · have hc := hm.args.canonical
      have hal := hm.args.aligned
      simp only [InRange, List.length_singleton] at ha
      rw [canonical_iff] at hc ⊢
      omega

theorem mapPages_call (h : s.WellFormed r) (base : Nat)
    (pages : { l : List Word // l.length < 2 ^ 32 }) (flags : Word) :
    (s.call r (.mapPages base pages flags)).2.WellFormed r ∧
    s.CallSpec r (.mapPages base pages flags) := by
  simp only [CallSpec, call]
  cases hv : validRange base pages.1.length with
  | false =>
    have he : s.vmmMapPagesIn r base pages.1 flags = (false, s) := by simp [vmmMapPagesIn, hv]
    rw [he]
    obtain ⟨h1, h2⟩ := unchanged_spec h
    exact ⟨h, h1, .inl ⟨rfl, h2.map, h2.lookups, fun _ => h2.refs trivial⟩⟩
  | true =>
    have hlow := h.mapPages pages.2 hv flags
    rcases vmmMapPagesIn_spec h.tree h.root pages.2 hv (fun a _ _ => index_whole a) flags with
      ⟨s', he, hf⟩ | ⟨s', he, hm⟩
    · rw [he] at hlow ⊢
      refine ⟨⟨h.root, hf.eff.tree, hlow⟩, accounted hf.eff,
        .inl ⟨rfl, mapFails_of_view hf.view fun hb => ?_⟩⟩
      rcases range_half pages.2 hv with hI | ⟨hu, -⟩
      · -- in the lower half the same call, seen from there, leaves every count
        rcases vmmMapPagesIn_spec h.lowerTree h.root pages.2 hv hI flags with
          ⟨s₂, he₂, hf₂⟩ | ⟨s₂, he₂, -⟩
        · rw [he] at he₂
          cases he₂
          exact refs_of_moves (hf₂.refs lowerOnly_lowerHalf h.lower)
        · rw [he] at he₂
          cases he₂
      · omega
    · rw [he] at hlow ⊢
      refine ⟨⟨h.root, hm.eff.tree, hlow⟩, accounted hm.eff,
        .inr ⟨rfl, mapSucceeds_of_rangeMapped hm (fun i hi => validRange_page pages.2 hv hi)
          fun a ha => ?_⟩⟩
      have hv := (validRange_iff pages.2).mp hv
      simp only [InRange] at ha
      rw [canonical_iff]
      omega

theorem unmapPage_call (h : s.WellFormed r) (va : Nat) :
    (s.call r (.unmapPage va)).2.WellFormed r ∧ s.CallSpec r (.unmapPage va) := by
  simp only [CallSpec, call]
  cases hv : canonical va && va % 4096 == 0 with
  | false =>
    have he : s.vmmUnmapPageIn r va = (0#64, s) := by
      unfold vmmUnmapPageIn
      rw [if_pos]
      simp only [Bool.and_eq_false_iff, beq_eq_false_iff_ne] at hv
      rcases hv with hv | hv <;> simp [hv]
    rw [he]
    exact ⟨h, (unchanged_spec h).1, by simp⟩
  | true =>
    simp only [Bool.and_eq_true, beq_iff_eq] at hv
    obtain ⟨hc, ha⟩ := hv
    have hlow := h.unmapPage hc ha
    have hV : ∀ a, canonical a = true → (AtPage (indexAt a) va ↔ InRange va 1 a) := fun a h1 => by
      rw [atPage_iff h1 hc ha, InRange, Nat.one_mul]
    simp only [↓reduceIte]
    rcases vmmUnmapPageIn_spec h.tree h.root hc ha (index_whole va) with
      ⟨he, hd⟩ | ⟨t, es, hw, hp, hleaf, hu, -⟩
    · rw [he]
      have hnone : s.translate r va = none := translate_of_absent hc hd
      refine ⟨h, (unchanged_spec h).1, by rw [hnone]; rfl,
        @unmaps_of_unmapped _ _ _ _ _ (fun k => AtPage k va) ?_ hV fun _ => rfl⟩
      exact ⟨.refl h.tree, fun k hk _ hat ⟨t, es, hw⟩ => lookup_of_dead hw (by
        rw [hat 0 (by decide)]
        exact hd t es (hat.walk hw)), fun _ _ _ _ => rfl, .refl, fun _ _ hf => hf⟩
    · have htr : s.translate r va = some (vmmPteAddress (s.mem t (indexAt va 0)),
          s.mem t (indexAt va 0) &&& pteFlagMask) := by
        rw [translate_of_reaches hc hw, if_pos hp]
      refine ⟨⟨h.root, hu.eff.tree, hlow⟩, accounted hu.eff, ?_,
        unmaps_of_unmapped hu hV fun h0 => ?_⟩
      · rw [htr]
        exact congrArg VmmReply.frame hleaf
      · rw [mapped_one, htr] at h0
        cases h0

theorem unmapPages_call (h : s.WellFormed r) (base : Nat) (count : UInt32) :
    (s.call r (.unmapPages base count)).2.WellFormed r ∧
    s.CallSpec r (.unmapPages base count) := by
  have hc : count.toNat < 2 ^ 32 := count.toNat_lt
  simp only [CallSpec, call]
  cases hv : validRange base count.toNat with
  | false =>
    have he : s.vmmUnmapPagesIn r base count.toNat = (0, s) := by simp [vmmUnmapPagesIn, hv]
    rw [he]
    exact ⟨h, (unchanged_spec h).1, by simp⟩
  | true =>
    have hu := vmmUnmapPagesIn_spec h.tree h.root hc hv fun a _ _ => index_whole a
    simp only [↓reduceIte]
    obtain ⟨hcount, h0⟩ := vmmUnmapPagesIn_count h hc hv
    refine ⟨⟨h.root, hu.eff.tree, h.unmapPages hc hv⟩, accounted hu.eff,
      congrArg VmmReply.removed hcount,
      unmaps_of_unmapped hu (fun va hva => inPages_iff hc hv hva) h0, ?_, fun vas R =>
      (vas.foldl (pruneChunk r) (R, s)).1.2⟩
    rw [chunks_blocks hc hv]
    rfl

theorem call_spec (h : s.WellFormed r) (op : VmmOp) :
    (s.call r op).2.WellFormed r ∧ s.CallSpec r op := by
  cases op with
  | mapPage va phys flags => exact mapPage_call h va phys flags
  | mapPages base pages flags => exact mapPages_call h base pages flags
  | unmapPage va => exact unmapPage_call h va
  | unmapPages base count => exact unmapPages_call h base count

theorem calls_wellFormed (h : s.WellFormed r) (ops : List VmmOp) :
    (s.calls r ops).WellFormed r := by
  induction ops generalizing s with
  | nil => exact h
  | cons op ops ih => exact ih (call_spec h op).1

/-! ## Runs -/

/-- **The page tables refine the map**, along every run from a well-formed tree: the tree stays
well formed, every call does what `CallSpec` says, and destroying the address space returns every
table of the lower half and the root exactly once. -/
theorem vmm_refines (h : s.WellFormed r) (ops : List VmmOp) :
    (s.calls r ops).WellFormed r ∧ (∀ op, (s.calls r ops).CallSpec r op) ∧
    (r ≠ (s.calls r ops).kernelPml4 →
      ((s.calls r ops).tables r lowerHalf).Nodup ∧
      Moves (s.calls r ops).pmm ((s.calls r ops).vmmDestroyAddressSpace r).pmm
        ((s.calls r ops).tables r lowerHalf) []) := by
  have hwf := calls_wellFormed h ops
  exact ⟨hwf, fun op => (call_spec hwf op).2, fun hk => ⟨hwf.lowerTree.nodup_tables,
    (vmmDestroyAddressSpace_spec hwf.lowerTree hwf.root hk).1⟩⟩

/-- Four frames: the reserved one, an empty root table, and two free ones. -/
def smallPhys : Phys where
  pmm :=
    { bitmap := fun _ => 0x03#8, bitmapSize := 1, totalPages := 4, freePages := 2
      refcounts := fun i => if i = 0 then uint32Max else if i = 1 then 1 else 0
      lastAllocIndex := 0 }
  mem := fun _ _ => 0#64
  kernelPml4 := 0
  deny := fun _ => false
  asked := 0

/-- The root table of `smallPhys`, and free frames for the tables below it. -/
def widePhys : Phys :=
  { smallPhys with pmm := { smallPhys.pmm with totalPages := 8, freePages := 6 } }

theorem widePhys_wellFormed : widePhys.WellFormed 4096 := by
  have htab : ∀ I : Slots, widePhys.tables 4096 I = [4096] := fun I =>
    tables_of_dead fun _ _ => dead_zero
  refine ⟨by decide, ⟨⟨by decide, by decide, fun _ => rfl, by decide⟩, by decide, ?_, ?_⟩, ?_⟩
  · rw [htab]
    exact List.nodup_singleton _
  · rw [htab]
    intro g hg hf
    rw [List.mem_singleton.mp hg] at hf
    exact absurd hf.2 (by decide)
  · intro g hg
    rw [htab] at hg
    exact .inl (List.mem_singleton.mp hg)

/-- Two writable user pages. -/
def mapTwo : VmmOp := .mapPages 0x1000 ⟨[0x9000#64, 0xA000#64], by decide⟩ 7#64

/-- Two pages are mapped, the first is unmapped by itself and the other with its range. -/
theorem vmm_refines_small :
    ((widePhys.calls 4096 [mapTwo, .unmapPage 0x1000, .unmapPages 0x1000 3]).WellFormed 4096 ∧
      ∀ op, (widePhys.calls 4096 [mapTwo, .unmapPage 0x1000, .unmapPages 0x1000 3]).CallSpec 4096
        op) ∧
    (widePhys.call 4096 mapTwo).1 = .mapped true ∧
    ((widePhys.calls 4096 [mapTwo]).call 4096 (.unmapPage 0x1000)).1 = .frame 0x9000#64 ∧
    ((widePhys.calls 4096 [mapTwo, .unmapPage 0x1000]).call 4096 (.unmapPages 0x1000 3)).1 =
      .removed 1 ∧
    (widePhys.calls 4096 [mapTwo, .unmapPage 0x1000]).pmm.freePages = 3 ∧
    (widePhys.calls 4096 [mapTwo, .unmapPage 0x1000, .unmapPages 0x1000 3]).pmm.freePages = 6 :=
  have h := vmm_refines widePhys_wellFormed [mapTwo, .unmapPage 0x1000, .unmapPages 0x1000 3]
  ⟨⟨h.1, h.2.1⟩, by decide +kernel, by decide +kernel, by decide +kernel, by decide +kernel,
    by decide +kernel⟩

end GenOS.Phys
