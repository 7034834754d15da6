import GenOS.Mm.CloneVisit
import GenOS.Mm.ShmInherit
import GenOS.Mm.WorldCalls

/-!
# Cloning an address space keeps the world

`cow_clone_address_space`, over `World`: a failed clone leaves the parent and the segments as they
were, and the child as something that can be released (`CloneFailed`); a successful one makes the
child a second owner with the pages of the parent (`Cloned`).
-/

namespace GenOS

open Phys Pmm

variable {c c' : HeapClient} {s s' : Phys} {m m' : Shm} {t t' child : UserTask} {o u u' : Owner}
variable {us us₁ us₂ : List UserTask} {os : List Owner} {shared rest ps : List Nat}

/-! ## The nodes of the allocations -/

/-- The child with more nodes. -/
def UserTask.withNodes (t : UserTask) (as : List UserAllocation) (nodes : List Nat) : UserTask :=
  { t with allocations := t.allocations ++ as, allocationBlocks := t.allocationBlocks ++ nodes }

/-- `user_allocations_clone` makes a node for each allocation, up to the first that there is no
memory for. -/
theorem cloneAllocations_spec :
    ∀ (as : List UserAllocation) {c : HeapClient} {child : UserTask} {ps : List Nat},
    Memory c os shared rest ps → ∃ ok c' done nodes,
      cloneAllocations as c child = some (ok, c', child.withNodes done nodes) ∧
      Memory c' os shared rest (nodes ++ ps) ∧ Steady c c' os ∧
      (∀ u ∈ os, owned c'.phys u = owned c.phys u) ∧
      nodes.length = done.length ∧ (ok = true → done = as)
  | [], c, child, ps, h => by
    refine ⟨true, c, [], [], ?_, h, .refl h.spaces.inv, fun _ _ => rfl, rfl, fun _ => rfl⟩
    unfold UserTask.withNodes
    rw [cloneAllocations, List.append_nil, List.append_nil]
  | a :: as, c, child, ps, h => by
    obtain ⟨copy, c₁, he, hk, h₁⟩ := h.kmalloc 32
    have hown : ∀ u ∈ os, owned c₁.phys u = owned c.phys u := fun _ => h.kmalloc_owned he
    simp only [cloneAllocations, he, Option.bind_eq_bind, Option.bind_some]
    by_cases h0 : copy = 0
    · rw [if_pos h0]
      rw [if_pos h0] at h₁
      refine ⟨false, c₁, [], [], ?_, h₁, hk, hown, rfl, nofun⟩
      unfold UserTask.withNodes
      rw [List.append_nil, List.append_nil]
    · rw [if_neg h0]
      rw [if_neg h0] at h₁
      obtain ⟨ok, c', done, nodes, he', h', hst, hown', hlen, hok⟩ :=
        @cloneAllocations_spec as c₁ (child.withNodes [a] [copy]) _ h₁
      refine ⟨ok, c', a :: done, copy :: nodes, ?_, h'.perm (.refl _) (.refl _) List.perm_middle,
        hk.trans hst, fun u hu => (hown' u hu).trans (hown u hu),
        by rw [List.length_cons, List.length_cons, hlen], fun h => by rw [hok h]⟩
      have hsnoc : (child.withNodes [a] [copy]).withNodes done nodes =
          child.withNodes (a :: done) (copy :: nodes) := by
        unfold UserTask.withNodes
        simp only [List.append_assoc, List.singleton_append]
      rw [← hsnoc]
      exact he'

theorem UserTask.withNodes_blocks (t : UserTask) (as : List UserAllocation) (nodes : List Nat) :
    (nodes ++ t.blocks).Perm (t.withNodes as nodes).blocks := by
  unfold withNodes UserTask.blocks
  dsimp only
  rw [← List.append_assoc (if t.pagesBlock = 0 then [] else [t.pagesBlock])]
  exact List.perm_append_comm

theorem userAllocationsClone_spec
    (h : Memory c (os ++ [child.toOwner]) shared rest (child.blocks ++ ps))
    (ha : child.allocations = []) :
    ∃ ok c' done nodes, userAllocationsClone c o child = some (ok, c', child.withNodes done nodes) ∧
      Memory c' (os ++ [(child.withNodes done nodes).toOwner]) shared rest
        ((child.withNodes done nodes).blocks ++ ps) ∧
      Steady c c' (os ++ [child.toOwner]) ∧
      (∀ u ∈ os ++ [child.toOwner], owned c'.phys u = owned c.phys u) ∧
      nodes.length = done.length ∧ (ok = true → done = o.allocations) := by
  obtain ⟨ok, c', done, nodes, he, hm, hst, hown, hlen, hok⟩ :=
    cloneAllocations_spec o.allocations h
  refine ⟨ok, c', done, nodes, ?_, ?_, hst, hown, hlen, hok⟩
  · unfold userAllocationsClone
    rw [if_neg (not_not.mpr ha), he]
  · have hm : Memory c' (os ++ child.toOwner :: []) shared rest
      (nodes ++ (child.blocks ++ ps)) := hm
    rw [← List.append_assoc] at hm
    exact (hm.perm (.refl _) (.refl _)
      ((child.withNodes_blocks done nodes).append_right ps)).relabel rfl rfl rfl

/-! ## The visit -/

/-- An owner without pages may have any attachments. -/
theorem Memory.retwin (h : Memory c (os ++ [u]) shared rest ps)
    (hempty : ∀ va < 0x800000000000, c.phys.translate u.pml4 va = none) (hr : u'.pml4 = u.pml4)
    (hu : u.userPages = []) (hu' : u'.userPages = []) : Memory c (os ++ [u']) shared rest ps := by
  have ho := h.spaces.owner u (List.mem_append_right _ List.mem_cons_self)
  have hown : owned c.phys u' = owned c.phys u := by
    unfold owned
    rw [hr, hu, hu']
  suffices hc : Change c.phys c.phys u u' shared (c.heap.frames ++ rest)
    (c.heap.frames ++ rest) from
    ⟨(show Spaces c.phys (os ++ u :: []) shared _ from h.spaces).update hc, h.holding⟩
  refine ⟨⟨hr ▸ ho.root, hr ▸ ho.tree, hr ▸ ho.full, fun p hp => ?_, ?_, fun va hva _ p fl hp => ?_,
    fun va hva p fl hp => ?_⟩, rfl, ?_, fun _ _ _ => rfl, fun g hg => .inl (hr ▸ hg),
    fun g hg => ?_⟩
  · rw [hu'] at hp
    cases hp
  · rw [hu']
    exact .nil
  · rw [hr, hempty va hva] at hp
    cases hp
  · rw [hr, hempty va hva] at hp
    cases hp
  · rw [hown]
    exact .refl h.spaces.inv
  · rw [hu', List.map_nil, List.nil_append] at hg
    rw [hu, List.map_nil, List.nil_append, hr]
    exact ⟨fun hg' =>
      (h.spaces.apart g (mem_allTables (List.mem_append_right _ List.mem_cons_self) hg')).1
      (List.mem_append_right _ hg), .inl hg⟩

/-- The visit starts with the empty child. -/
theorem Twinned.start (h : Memory c (os ++ [u]) shared rest ps)
    (hempty : ∀ va < 0x800000000000, c.phys.translate u.pml4 va = none) (hu : u.userPages = []) :
    Twinned c os o (u.twin o []) shared [] rest ps c.phys := by
  refine ⟨h.retwin hempty rfl hu rfl, ?_, fun _ _ => rfl⟩
  rw [show owned c.phys (u.twin o []) = c.phys.tables u.pml4 lowerHalf from List.append_nil _]
  exact .refl h.spaces.inv

/-- The records of all pages are those of the parent. -/
theorem cloneRecords_perm (ho : OwnerOk c.phys o shared) {M : List (Nat × Word)}
    (hM : c.phys.pagesOf o.pml4 = M.map some) : (cloneRecords o M).Perm o.userPages := by
  have hpage : ∀ {va w}, (va, w) ∈ M → some (va, w) ∈ c.phys.pagesOf o.pml4 := fun hx => by
    rw [hM]
    exact List.mem_map_of_mem hx
  have hmem : ∀ p, p ∈ cloneRecords o M ↔ p ∈ o.userPages := fun p => by
    unfold cloneRecords
    rw [List.mem_filterMap]
    constructor
    · rintro ⟨⟨va, w⟩, -, hx⟩
      split at hx
      · next hp =>
        cases hx
        exact isPrivate_iff.mp hp
      · cases hx
    · intro hp
      obtain ⟨h1, h2, h3, fl, h4⟩ := ho.records p hp
      obtain ⟨w, hw, ha, -⟩ := pagesOf_of_translate h1 h2 h4
      rw [hM, List.mem_map] at hw
      obtain ⟨x, hx, he⟩ := hw
      cases he
      have hphys : (vmmPteAddress w).toNat = p.phys := by
        rw [← ha]
        exact toNat_address ho.tree.small h3
      refine ⟨_, hx, ?_⟩
      dsimp only
      rw [hphys, if_pos (isPrivate_iff.mpr hp)]
  -- the addresses ascend
  have hlt : M.Pairwise fun x y => x.1 < y.1 := by
    have hp := pagesOf_ascend (s := c.phys) (r := o.pml4)
    rw [hM, List.pairwise_map] at hp
    exact hp.imp fun hx => hx _ _ rfl rfl
  have hd : (cloneRecords o M).Nodup := by
    refine (List.Pairwise.filterMap _ (fun x y hxy p hp q hq => ?_) hlt).imp fun hne => hne
    have hv : p.vaddr = x.1 ∧ q.vaddr = y.1 := by
      constructor
      · split at hp
        · cases hp
          rfl
        · cases hp
      · split at hq
        · cases hq
          rfl
        · cases hq
    intro he
    rw [he, hv.2] at hv
    omega
  exact (List.perm_ext_iff_of_nodup hd (.of_map _ ho.distinct)).mpr hmem

/-- **The visit maps every page of the parent in the child**, or ends with a child that can be
released. -/
theorem cloneVisit_spec (h : Memory c (os ++ [u]) shared rest ps) (ho : o ∈ os)
    (hempty : ∀ va < 0x800000000000, c.phys.translate u.pml4 va = none) (hu : u.userPages = []) :
    (∃ s' records, visitTable (fun x => x.1.mem) (clonePage m o u) 3 256 o.pml4 0 (c.phys, []) =
        (true, s', records) ∧ Twinned c os o (u.twin o records) shared [] rest ps s' ∧
      records.Perm o.userPages ∧ ∀ va < 0x800000000000, s'.translate u.pml4 va =
        (c.phys.translate o.pml4 va).map fun q => cloneView o va q.1 q.2) ∨
    ∃ s' records, visitTable (fun x => x.1.mem) (clonePage m o u) 3 256 o.pml4 0 (c.phys, []) =
        (false, s', records) ∧ Twinned c os o (u.twin o records) shared [] rest ps s' := by
  have hok := h.spaces.owner o (List.mem_append_left _ ho)
  have hstart : Visited c os o u shared rest ps [] (c.phys, []) := by
    refine ⟨.start h hempty hu, fun va hva => ?_, rfl⟩
    rw [List.map_nil, if_neg List.not_mem_nil]
    exact hempty va hva
  have hmem : ∀ M y, Visited c os o u shared rest ps M y →
      ∀ g ∈ Radix.tables pageShape c.phys.mem 3 (List.range 256) o.pml4, y.1.mem g = c.phys.mem g :=
    fun M y hP g hg => hP.twin.tables g (by rw [tables, lowerHalf_idx]; exact hg)
  have hvisit : ∀ M va w R y, entries c.phys.mem 3 (List.range 256) o.pml4 0 = M.map some ++
    some (va, w) :: R →
      Visited c os o u shared rest ps M y →
      ((clonePage m o u va w y).1 = true →
        Visited c os o u shared rest ps (M ++ [(va, w)]) (clonePage m o u va w y).2) ∧
        ((clonePage m o u va w y).1 = false →
          Twinned c os o (u.twin o (clonePage m o u va w y).2.2) shared [] rest ps
            (clonePage m o u va w y).2.1) := by
    intro M va w R y hM hP
    have hM : c.phys.pagesOf o.pml4 = M.map some ++ some (va, w) :: R := hM
    have hin : some (va, w) ∈ c.phys.pagesOf o.pml4 := by
      rw [hM]
      exact List.mem_append_right _ List.mem_cons_self
    obtain ⟨hal, hlt, -⟩ := mem_pagesOf.mp hin
    refine clonePage_step ⟨hP, ho, hal, hlt, translate_of_pagesOf hin, fun hva => ?_⟩ hok
    obtain ⟨⟨va', w'⟩, hx, rfl⟩ := List.mem_map.mp hva
    exact pagesOf_nodup hM (List.mem_map_of_mem hx)
  have hrule := @visitTable_rule _ (fun x : Phys × List PageRecord => x.1.mem) (clonePage m o u)
  rcases hrule (Q := fun x => Twinned c os o (u.twin o x.2) shared [] rest ps x.1)
    (show 256 ≤ 512 by decide) hstart
    (fun _ _ hP => hP.twin) hmem hvisit with ⟨M, ⟨s', records⟩, he, hM, hP⟩ |
    ⟨⟨s', records⟩, he, hQ⟩
  · have hM : c.phys.pagesOf o.pml4 = M.map some := hM
    refine .inl ⟨s', records, he, hP.twin, ?_, fun va hva => ?_⟩
    · rw [show records = cloneRecords o M from hP.records]
      exact cloneRecords_perm hok hM
    -- a mapped page is one of those that were visited
    rw [hP.map va hva]
    split
    · rfl
    next hno =>
    cases hq : c.phys.translate o.pml4 va with
    | none => rfl
    | some q =>
      obtain ⟨p, fl⟩ := q
      refine absurd ?_ hno
      obtain ⟨w, hw, -⟩ := @pagesOf_of_translate _ _ (va / 4096 * 4096) _ _ (by omega) (by omega)
        ((translate_page (by omega)).trans hq)
      rw [hM, List.mem_map] at hw
      obtain ⟨x, hx, he'⟩ := hw
      cases he'
      exact List.mem_map_of_mem hx
  · exact .inr ⟨s', records, he, hQ⟩

/-! ## The commit -/

theorem cowShare_idem (flags : Word) : cowShare (cowShare flags) = cowShare flags := by
  refine BitVec.eq_of_getLsbD_eq fun k hk => ?_
  rw [getLsbD_cowShare _ hk]
  simp only [getLsbD_cowShare flags hk, getLsbD_cowShare flags (show 1 < 64 by decide),
    getLsbD_cowShare flags (show 9 < 64 by decide)]
  split
  · rfl
  split
  · simp
  · rfl

/-- The shared entry of a page. -/
theorem cowShare_built (w : Word) :
    Word.Built (cowShare w) (vmmPteAddress w) (cowShare (w &&& pteFlagMask)) := by
  have hmask : ∀ k < 64, (cowShare (w &&& pteFlagMask)).getLsbD k =
      ((cowShare w).getLsbD k && decide (k < 12 ∨ k = 63)) := fun k hk => by
    rw [getLsbD_cowShare _ hk, getLsbD_cowShare _ hk,
      Word.getLsbD_flags w (show 1 < 12 ∨ 1 = 63 by decide),
      Word.getLsbD_flags w (show 9 < 12 ∨ 9 = 63 by decide), BitVec.getLsbD_and,
      Word.getLsbD_flagMask]
    by_cases h1 : k = 1
    · simp [h1]
    · by_cases h9 : k = 9
      · simp [h9]
      · simp [h1, h9]
  refine ⟨BitVec.eq_of_getLsbD_eq fun k hk => ?_, BitVec.eq_of_getLsbD_eq fun k hk => ?_,
    fun k hk => ?_⟩
  · unfold vmmPteAddress
    rw [BitVec.getLsbD_and, BitVec.getLsbD_and, Word.getLsbD_addrMask, getLsbD_cowShare w hk]
    by_cases hin : 12 ≤ k ∧ k < 52
    · rw [if_neg (by omega), if_neg (by omega)]
    · simp [hin]
  · rw [hmask k hk, BitVec.getLsbD_and, Word.getLsbD_flagMask]
  · rw [hmask k (by omega), decide_eq_true hk, Bool.and_true]

theorem cowShare_present {w : Word} (h : w.has ptePresent = true) :
    (cowShare w).has ptePresent = true := by
  rw [Word.has_present] at h ⊢
  rw [getLsbD_cowShare w (by decide), if_neg (by decide), if_neg (by decide), h]

/-- A private page of the parent is write-protected, and shared. -/
theorem commitPage_spec {os₁ os₂ : List Owner} {p : PageRecord}
    (h : Spaces s (os₁ ++ o :: os₂) shared rest)
    (hp : p ∈ o.userPages) : ∃ table slot, s.vmmPteIn o.pml4 p.vaddr = some (table, slot) ∧
      (if (s.mem table slot).has (pteWrite ||| pteCow) then
          s.store table slot (s.mem table slot &&& ~~~pteWrite ||| pteCow) else s) =
        s.store table slot (cowShare (s.mem table slot)) ∧
      Change s (s.store table slot (cowShare (s.mem table slot))) o o shared rest rest ∧
      ∀ va < 0x800000000000,
        (s.store table slot (cowShare (s.mem table slot))).translate o.pml4 va =
        (s.translate o.pml4 va).map fun q =>
        (q.1, if va / 4096 = p.vaddr / 4096 then cowShare q.2 else q.2) := by
  have hom : o ∈ os₁ ++ o :: os₂ := List.mem_append_right _ List.mem_cons_self
  have ho := h.owner o hom
  obtain ⟨hal, hva, htr, fl, htl⟩ := ho.records p hp
  obtain ⟨i, hi⟩ := List.getElem?_of_mem hp
  cases hpte : s.vmmPteIn o.pml4 p.vaddr with
  | none =>
    rw [vmmPteIn_none ho.root (canonical_lower hva), htl] at hpte
    cases hpte
  | some x =>
    obtain ⟨table, slot⟩ := x
    obtain ⟨rfl, ⟨es, hw⟩, hpr, hb⟩ := vmmPteIn_some ho.root (canonical_lower hva) hpte
    obtain ⟨haddr, hfl⟩ : BitVec.ofNat 64 p.phys = vmmPteAddress (s.mem table (indexAt p.vaddr 0)) ∧
        fl = s.mem table (indexAt p.vaddr 0) &&& pteFlagMask := by
      simpa using htl.symm.trans hb
    have hapart := fun g hg => (h.apart g (mem_allTables hom hg)).2 o hom
    have hstore :
      LeafStore s (s.store table (indexAt p.vaddr 0) (cowShare (s.mem table (indexAt p.vaddr 0)))) o
        p.vaddr table i p.phys p.phys (cowShare (s.mem table (indexAt p.vaddr 0)))
        (cowShare (s.mem table (indexAt p.vaddr 0) &&& pteFlagMask)) := by
      refine ⟨⟨es, hw⟩, hi, haddr ▸ cowShare_built _, cowShare_present hpr, fun hwr => ?_, htr,
        fun g hg => ⟨?_, hapart g hg⟩, .inl rfl, rfl, .refl h.inv, s.mem, fun _ _ => rfl, rfl⟩
      · rw [cowShare_write] at hwr
        cases hwr
      · rintro rfl
        exact hapart _ hg (List.mem_map_of_mem hp)
    have hch := hstore.change ho (h.not_rest hom)
    rw [setPage_same hi] at hch
    obtain ⟨-, -, -, hmap⟩ := hstore.tree ho
    refine ⟨table, _, rfl, ?_, hch, fun va hlt => ?_⟩
    · split
      · next hm => rw [cowShare, if_pos hm]
      · next hm =>
        rw [cowShare, if_neg hm]
        unfold store Radix.put
        rw [Cells.set_eq_self, Cells.set_eq_self]
    · rw [hmap va hlt]
      by_cases hpage : va / 4096 = p.vaddr / 4096
      · rw [if_pos hpage, translate_page hpage, hb, haddr]
        simp [hpage]
      · simp [hpage]

/-- What the commit did to the pages of the records `l`. -/
structure Committed (s s' : Phys) (o : Owner) (l : List PageRecord) : Prop where
  map : ∀ va < 0x800000000000, s'.translate o.pml4 va = (s.translate o.pml4 va).map fun q =>
    (q.1, if va / 4096 ∈ l.map fun p => p.vaddr / 4096 then cowShare q.2 else q.2)
  contents : ∀ va < 0x800000000000, ∀ p flags, s.translate o.pml4 va = some (p, flags) →
    s'.mem p.toNat = s.mem p.toNat

/-- **The commit never fails**: each record is of a mapped page. -/
theorem cowCommit_spec {os₁ os₂ : List Owner} : ∀ {l : List PageRecord} {c : HeapClient},
    Memory c (os₁ ++ o :: os₂) shared rest ps → (∀ p ∈ l, p ∈ o.userPages) →
    ∃ s', cowCommit o.pml4 l c.phys = some s' ∧
    Memory (c.setPhys s') (os₁ ++ o :: os₂) shared rest ps ∧
      (∀ u ∈ os₁ ++ os₂, Unaffected c.phys s' u) ∧ Committed c.phys s' o l
  | [], c, h, _ => by
    refine ⟨c.phys, rfl, h, fun _ _ => .refl, fun va _ => ?_, fun _ _ _ _ _ => rfl⟩
    cases c.phys.translate o.pml4 va with
    | none => rfl
    | some q => rfl
  | p :: l, c, h, hl => by
    obtain ⟨table, slot, he, hst, hch, hmap⟩ := commitPage_spec h.spaces (hl p List.mem_cons_self)
    obtain ⟨h₁, hun⟩ := h.update hch
    have hcont : ∀ va < 0x800000000000, ∀ q flags, c.phys.translate o.pml4 va = some (q, flags) →
        (c.phys.store table slot (cowShare (c.phys.mem table slot))).mem q.toNat =
          c.phys.mem q.toNat :=
      fun va hva q flags hq => h.spaces.own_contents hch hva hq
    generalize c.phys.store table slot (cowShare (c.phys.mem table slot)) = s₁ at *
    obtain ⟨s', he', h', hun', hC⟩ := cowCommit_spec (c := c.setPhys s₁) h₁ fun q hq =>
      hl q (List.mem_cons_of_mem _ hq)
    refine ⟨s', ?_, h', fun u hu => (hun u hu).trans (hun' u hu), fun va hva => ?_,
      fun va hva q flags hq => ?_⟩
    · rw [cowCommit, he]
      dsimp only
      rw [hst]
      exact he'
    · rw [hC.map va hva, show (c.setPhys s₁).phys = s₁ from rfl, hmap va hva, Option.map_map]
      congr 1
      funext q
      simp only [Function.comp_apply, List.map_cons, List.mem_cons]
      by_cases hp : va / 4096 = p.vaddr / 4096
      · by_cases hin : va / 4096 ∈ l.map fun p => p.vaddr / 4096
        · rw [if_pos hp, if_pos hin, if_pos (.inl hp), cowShare_idem]
        · rw [if_pos hp, if_neg hin, if_pos (.inl hp)]
      · simp only [hp, if_false, false_or]
    · have hq₁ := hmap va hva
      rw [hq] at hq₁
      exact (hC.contents va hva q _ hq₁).trans (hcont va hva q flags hq)

/-- With the records of all private pages, the parent sees what the child sees. -/
theorem Committed.view {l : List PageRecord} (h : Committed s s' o l) (ho : OwnerOk s o shared)
    (hl : l.Perm o.userPages) : ∀ va < 0x800000000000, s'.translate o.pml4 va =
      (s.translate o.pml4 va).map fun q => cloneView o va q.1 q.2 := fun va hva => by
  rw [h.map va hva]
  cases hq : s.translate o.pml4 va with
  | none => rfl
  | some q =>
    obtain ⟨p, fl⟩ := q
    have hiff : va / 4096 ∈ (l.map fun p => p.vaddr / 4096) ↔
        isPrivate o (va / 4096 * 4096) p.toNat = true := by
      rw [List.mem_map, isPrivate_iff]
      constructor
      · rintro ⟨r, hr, he⟩
        have hr := hl.mem_iff.mp hr
        obtain ⟨hal, -, htr, fl', hm⟩ := ho.records r hr
        rw [translate_page he, hq] at hm
        obtain ⟨rfl, -⟩ : p = _ ∧ fl = fl' := by simpa using hm
        rw [toNat_address ho.tree.small htr, show va / 4096 * 4096 = r.vaddr by omega]
        exact hr
      · exact fun hp => ⟨_, hl.mem_iff.mpr hp, Nat.mul_div_cancel _ (by decide)⟩
    simp only [Option.map_some, cloneView, hiff]

/-! ## Two owners of the same pages -/

/-- `t'` has what `t` has. -/
structure Inherits (t t' : UserTask) : Prop where
  process : t'.isThread = false
  records : t'.userPages.Perm t.userPages
  allocations : t'.allocations = t.allocations
  attached : t'.shmAttached = t.shmAttached
  nodes : t'.allocationBlocks.length = t'.allocations.length
  room : t'.userPages.length ≤ t'.userPageCapacity
  capacity : 0 < t'.userPageCapacity

theorem Layout.inherits (h : Layout s t) : Inherits t t :=
  ⟨h.process, .refl _, rfl, rfl, h.nodes, h.room, h.capacity⟩

/-- **An owner that sees the pages of a sound one**, write-protected, is sound. -/
theorem OwnerSound.inherit (h : OwnerSound s m t) (hi : Inherits t t')
    (hmap : ∀ va < 0x800000000000, s'.translate t'.pml4 va =
      (s.translate t.pml4 va).map fun q => cloneView t.toOwner va q.1 q.2) :
        OwnerSound s' m t' := by
  have hrec : recordsOf t'.toOwner = recordsOf t.toOwner := by
    unfold recordsOf
    rw [hi.allocations, hi.attached]
  have hl := h.layout
  have hin : ∀ va, InAttachment t'.toOwner va ↔ InAttachment t.toOwner va := fun va => by
    unfold InAttachment
    rw [hi.attached]
  refine ⟨⟨hi.process, ⟨?_, ?_⟩, ?_, ?_, fun r hr => ?_, ?_, fun a ha i hlt => ?_,
    hi.nodes, hi.room,
    hi.capacity, hi.records.length_eq ▸ hl.count⟩, ⟨?_, fun a ha hid => ?_, ?_, fun p hp hx => ?_⟩,
    fun va hva p fl hp hw => ?_⟩
  · rw [hi.allocations]
    exact hl.aligned.allocations
  · rw [hi.attached]
    exact hl.aligned.attachments
  · rw [hrec]
    exact hl.top
  · rw [hrec]
    exact hl.clear
  · rw [hrec] at hr
    rw [hmap _ (Nat.lt_of_lt_of_le lt_guardEnd (hl.top r hr)), hl.guards r hr]
    rfl
  · rw [hi.allocations]
    exact hl.sized
  · rw [hi.allocations] at ha
    exact (hi.records.map _).mem_iff.mpr (hl.backed a ha i hlt)
  · rw [hi.attached]
    exact h.attached.slots
  · rw [hi.attached] at ha
    obtain ⟨pages, h1, h2, h0, h3, h4⟩ := h.attached.pages a ha hid
    refine ⟨pages, h1, h2, h0, h3, fun i f hf => ?_⟩
    have hlt := (List.getElem?_eq_some_iff.mp hf).1
    have hal := hl.aligned.attachments a ha
    rw [hmap _ (by omega), h4 i f hf]
    -- an attached page is not private
    have hno : isPrivate t.toOwner ((a.vaddr + i * 4096) / 4096 * 4096)
        (BitVec.ofNat 64 f).toNat = false := by
      by_contra hp
      rw [Bool.not_eq_false, isPrivate_iff] at hp
      exact h.attached.apart _ hp ⟨a, ha, hid, by dsimp only; omega⟩
    simp only [Option.map_some, cloneView, hno, Bool.false_eq_true, if_false]
  · rw [hi.attached]
    exact h.attached.unused
  · exact h.attached.apart p (hi.records.mem_iff.mp hp) ((hin _).mp hx)
  · rw [hmap va hva] at hp
    obtain ⟨⟨q, fl'⟩, hq, he⟩ := Option.map_eq_some_iff.mp hp
    unfold cloneView at he
    dsimp only at he
    split at he
    · cases he
      rw [cowShare_nx]
      rw [cowShare_write, cowShare_cow, Bool.or_eq_true] at hw
      exact h.wx va hva _ _ hq (hw.resolve_left Bool.false_ne_true)
    · cases he
      exact h.wx va hva _ _ hq hw

/-! ## The world with the child -/

/-- **The child becomes an owner** with the pages of the parent `t`. -/
theorem World.inherit (h : World c m (us ++ [child]) rest ps) (ht : t ∈ us) (ho : t.owns = true)
    (hc : child.owns = true) (hk : SameSpace child t') (hst : Stable c c' (owners us))
    (hm : Memory c' (owners us ++ [t'.toOwner]) m.frames rest
      (t'.blocks ++ (userBlocks us ++ m.blocks ++ ps)))
    (hi : Inherits t t') (hmap : ∀ va < 0x800000000000, c'.phys.translate t'.pml4 va =
      (c'.phys.translate t.pml4 va).map fun q => cloneView t.toOwner va q.1 q.2)
    (hb : Bare child) (hr : m.Recounted m') (hcnt : ∀ i id s', m'.Names i id s' →
      ∃ s, m.Names i id s ∧
      s'.refcount.toNat = s.refcount.toNat + t.shmAttached.countP fun a => a.shmid == id) :
    World c' m' (us ++ [t']) rest ps := by
  have hbare : ∀ a ∈ child.shmAttached, a.shmid < 0 := World.bare_unattached hb
  have hsound : OwnerSound c'.phys m t :=
    (h.owner t (List.mem_append_left _ ht) ho).congr
      (hst.unaffected _ (mem_owners ht ho)) fun _ _ _ => rfl
  have hs := hsound.inherit hi hmap
  refine h.swap_last (hk.owns.trans hc) ⟨hm, hs.layout⟩ hs hst.unaffected hr fun s hs' hu => ?_
  obtain ⟨i, hi'⟩ := List.getElem?_of_mem hs'
  obtain ⟨x, hx, he⟩ := hcnt i s.shmid s ⟨hi', hu, rfl⟩
  have hpos := (h.shm.used x hx.mem hx.used).pos
  have h1 := @World.attachCount_unattached us [] child hbare s.shmid (by rw [← hx.id]; omega)
  have h2 := @attachCount_middle t' us [] s.shmid
  rw [List.append_nil] at h1 h2
  rw [he, h.counts x hx.mem hx.used, hx.id, h1, h2, hi.attached, Nat.add_comm]

/-- **The commit**: the private pages of the parent are write-protected as well. -/
theorem World.commit {l : List PageRecord} (h : World c m (us₁ ++ t :: us₂) rest ps)
    (ho : t.owns = true)
    (hl : l.Perm t.userPages) : ∃ s', cowCommit t.pml4 l c.phys = some s' ∧
      World (c.setPhys s') m (us₁ ++ t :: us₂) rest ps ∧ Committed c.phys s' t.toOwner l ∧
      (∀ va < 0x800000000000, s'.translate t.pml4 va =
        (c.phys.translate t.pml4 va).map fun q => cloneView t.toOwner va q.1 q.2) ∧
      ∀ u ∈ owners us₁ ++ owners us₂, Unaffected c.phys s' u := by
  have hsound := h.owner t (List.mem_append_right _ List.mem_cons_self) ho
  have huser := h.userOk rfl ho
  have hok := huser.memory.spaces.owner _ (List.mem_append_right _ List.mem_cons_self)
  obtain ⟨s', he, hm, hun, hC⟩ := cowCommit_spec huser.memory fun p hp => hl.mem_iff.mp hp
  have hview := hC.view hok hl
  have hs : OwnerSound s' m t := hsound.inherit hsound.layout.inherits hview
  exact ⟨s', he, h.replace rfl ho ⟨hm, hs.layout⟩ rfl hs hun, hC, hview, hun⟩

/-! ## `cow_clone_address_space` -/

/-- A clone that failed: `tw` is what the child `child'` owns. -/
structure CloneFailed (c c' : HeapClient) (m : Shm) (us : List UserTask) (rest ps : List Nat)
    (child child' : UserTask) (tw : Owner) : Prop where
  memory :
    Memory c' (owners us ++ [tw]) m.frames rest (child'.blocks ++ (userBlocks us ++ m.blocks ++ ps))
  stable : Stable c c' (owners us)
  trade : Trade c c' (owned c.phys child.toOwner) (owned c'.phys tw)
  same : SameSpace child child'
  root : tw.pml4 = child'.pml4
  pages : tw.userPages = child'.userPages
  attached : child'.shmAttached = child.shmAttached

/-- A clone of the owner `t`: the child sees the pages of the parent, and the private ones that
could be written are shared copy-on-write by both. -/
structure Cloned (s s' : Phys) (m m' : Shm) (t child' : UserTask) : Prop where
  parent : ∀ va < 0x800000000000, s'.translate t.pml4 va =
    (s.translate t.pml4 va).map fun q => cloneView t.toOwner va q.1 q.2
  child : ∀ va < 0x800000000000, s'.translate child'.pml4 va =
    (s.translate t.pml4 va).map fun q => cloneView t.toOwner va q.1 q.2
  contents : ∀ va < 0x800000000000, ∀ p flags, s.translate t.pml4 va = some (p, flags) →
    s'.mem p.toNat = s.mem p.toNat
  inherits : Inherits t child'
  recounted : m.Recounted m'

/-- Work before the clone that the parent does not see. -/
theorem Cloned.after {s₀ : Phys} (h : Cloned s s' m m' t child) (hu : Unaffected s₀ s t.toOwner) :
    Cloned s₀ s' m m' t child :=
  ⟨fun va hva => by rw [h.parent va hva, hu.map va hva],
    fun va hva => by rw [h.child va hva, hu.map va hva],
    fun va hva p fl hq => (h.contents va hva p fl ((hu.map va hva).trans hq)).trans
      (hu.contents va hva p fl hq),
    h.inherits, h.recounted⟩

/-- The child has its records, its allocations and an empty map. -/
structure Prepared (child child' : UserTask) (t : UserTask) : Prop where
  same : SameSpace child child'
  attached : child'.shmAttached = child.shmAttached
  pages : child'.userPages = []
  allocations : child'.allocations = t.allocations
  nodes : child'.allocationBlocks.length = child'.allocations.length
  room : t.userPages.length ≤ child'.userPageCapacity
  capacity : 0 < child'.userPageCapacity

/-- The part of `cow_clone_address_space` that maps the pages. -/
theorem clonePages_spec {child₂ : UserTask} (h : World c m (us ++ [child]) rest ps)
    (hus : us = us₁ ++ t :: us₂)
    (ho : t.owns = true) (hc : child.owns = true) (hb : Bare child) (hst : Stable c c' (owners us))
    (htr : Trade c c' (owned c.phys child.toOwner) (owned c'.phys child₂.toOwner))
    (hm : Memory c' (owners us ++ [child₂.toOwner]) m.frames rest
      (child₂.blocks ++ (userBlocks us ++ m.blocks ++ ps))) (hp : Prepared child child₂ t)
    (hempty : ∀ va < 0x800000000000, c'.phys.translate child₂.pml4 va = none) :
    (∃ c'' child' tw, clonePages c' m t.toOwner child₂ = some (false, c'', m, child') ∧
      CloneFailed c c'' m us rest ps child child' tw) ∨
    ∃ c'' m' child', clonePages c' m t.toOwner child₂ = some (true, c'', m', child') ∧
      SameSpace child child' ∧ World c'' m' (us ++ [child']) rest ps ∧
      Cloned c.phys c''.phys m m' t child' ∧ ∀ u ∈ owners us₁ ++ owners us₂,
        Unaffected c.phys c''.phys u := by
  have htm : t ∈ us := hus ▸ List.mem_append_right _ List.mem_cons_self
  have hown : t.toOwner ∈ owners us := mem_owners htm ho
  have hslots := (h.owner t (List.mem_append_left _ htm) ho).attached.slots
  rw [show owned c'.phys child₂.toOwner = c'.phys.tables child₂.pml4 lowerHalf by
    unfold owned
    rw [hp.pages, List.map_nil, List.append_nil]] at htr
  rcases cloneVisit_spec (m := m) hm hown hempty hp.pages with ⟨s₃, records, he₃, hT, hperm, hmap⟩ |
    ⟨s₃, records, he₃, hT⟩
  on_goal 2 =>
    rw [← hp.pages] at he₃
    unfold clonePages
    rw [he₃]
    exact .inl ⟨_, { child₂ with userPages := records }, child₂.toOwner.twin t.toOwner records,
      if_pos (.inl rfl),
      hT.memory, hst.trans hT.stable, htr.trans hT.trade, ⟨hp.same.thread, hp.same.root⟩, rfl,
      rfl, hp.attached⟩
  rw [← hp.pages] at he₃
  unfold clonePages
  rw [he₃]
  dsimp only
  have hall : ¬ ((!true) = true ∨ records.length ≠ t.userPages.length) :=
    not_or.mpr ⟨Bool.false_ne_true, not_not.mpr hperm.length_eq⟩
  rw [if_neg hall]
  have hstable := hst.trans hT.stable
  rcases @shmInheritAttachments_spec (c'.setPhys s₃).phys _ t.toOwner
    { child₂.toOwner with userPages := records } h.shm hslots with he₄ | ⟨m', he₄, hr, hcnt⟩
  · rw [he₄]
    exact .inl ⟨_, { child₂ with userPages := records }, child₂.toOwner.twin t.toOwner records, rfl,
      hT.memory, hstable, htr.trans hT.trade, ⟨hp.same.thread, hp.same.root⟩, rfl, rfl, hp.attached⟩
  rw [he₄]
  dsimp only
  -- the child is an owner
  obtain ⟨child', hchild'⟩ : ∃ x : UserTask, x = { child₂ with
    toOwner :=
      { child₂.toOwner with userPages := records, shmAttached := t.shmAttached } } := ⟨_, rfl⟩
  have hk : SameSpace child child' := by
    rw [hchild']
    exact ⟨hp.same.thread, hp.same.root⟩
  have hi : Inherits t child' := by
    rw [hchild']
    exact ⟨hp.same.thread.trans (owns_iff.mp hc).1, hperm, hp.allocations, rfl, hp.nodes,
      Nat.le_trans (Nat.le_of_eq hperm.length_eq) hp.room, hp.capacity⟩
  have hroot : child'.pml4 = child₂.pml4 := by rw [hchild']
  have hm' : Memory (c'.setPhys s₃) (owners us ++ [child'.toOwner]) m.frames rest
      (child'.blocks ++ (userBlocks us ++ m.blocks ++ ps)) := by
    rw [hchild']
    exact hT.memory.relabel rfl rfl rfl
  have hun₃ := hstable.unaffected t.toOwner hown
  have hview : ∀ va < 0x800000000000, (c'.setPhys s₃).phys.translate child'.pml4 va =
      ((c'.setPhys s₃).phys.translate t.pml4 va).map fun q => cloneView t.toOwner va q.1 q.2 :=
        fun va hva => by
    rw [hroot, hun₃.map va hva, ← (hst.unaffected t.toOwner hown).map va hva]
    exact hmap va hva
  have hw := h.inherit htm ho hc hk hstable hm' hi hview hb hr hcnt
  rw [hus, List.append_assoc, List.cons_append] at hw
  -- the commit
  obtain ⟨s₅, he₅, hw₅, hC, hview₅, hun₅⟩ := hw.commit ho hperm
  simp only [he₅, Option.bind_eq_bind, Option.bind_some]
  refine .inr ⟨_, m', child', congrArg (fun x => some (true, _, m', x)) hchild'.symm, hk, ?_,
    ⟨fun va hva => ?_, fun va hva => ?_, fun va hva p fl hq => ?_, hi, hr⟩,
    fun u hu => ?_⟩
  · rw [hus, List.append_assoc, List.cons_append]
    exact hw₅
  · rw [← hun₃.map va hva]
    exact hview₅ va hva
  · rw [← hun₃.map va hva, ← hview va hva]
    refine (hun₅ child'.toOwner (List.mem_append_right _ (mem_owners (List.mem_append_right _
      (List.mem_singleton.mpr rfl)) (hk.owns.trans hc)))).map va hva
  · exact (hC.contents va hva p fl ((hun₃.map va hva).trans hq)).trans
      (hun₃.contents va hva p fl hq)
  · refine (hstable.unaffected u ?_).trans (hun₅ u ?_)
    · rw [hus, owners_middle ho]
      exact mem_middle hu
    · rw [owners_append, ← List.append_assoc]
      exact List.mem_append_left _ hu

/-- **`cow_clone_address_space`** fails and leaves the parent as it was, or makes the child a second
owner of the same pages. -/
theorem cowCloneAddressSpace_spec (h : World c m (us ++ [child]) rest ps)
    (hus : us = us₁ ++ t :: us₂)
    (ho : t.owns = true) (hc : child.owns = true) (hb : Bare child)
    (hempty : ∀ va < 0x800000000000, c.phys.translate child.pml4 va = none) :
    (∃ c' child' tw, cowCloneAddressSpace c m (some t.toOwner) child = some (false, c', m, child') ∧
      CloneFailed c c' m us rest ps child child' tw) ∨
    ∃ c' m' child', cowCloneAddressSpace c m (some t.toOwner) child = some (true, c', m', child') ∧
      SameSpace child child' ∧ World c' m' (us ++ [child']) rest ps ∧
      Cloned c.phys c'.phys m m' t child' ∧ ∀ u ∈ owners us₁ ++ owners us₂,
        Unaffected c.phys c'.phys u := by
  have htm : t ∈ us := hus ▸ List.mem_append_right _ List.mem_cons_self
  have hsound := h.owner t (List.mem_append_left _ htm) ho
  have hown : t.toOwner ∈ owners us := mem_owners htm ho
  -- room for the records
  obtain ⟨room, c₁, child₁, he₁, hu₁, hst₁, hr₁, hroom⟩ :=
    userPagesReserve_spec (h.userOk_last hc) hsound.layout.count
  have hs₁ := hr₁.sameSpace
  have hsame₁ : child₁.shmAttached = child.shmAttached ∧ child₁.userPages = [] ∧
    child₁.allocations = [] ∧
      child₁.allocationBlocks = [] := by
    obtain ⟨block, capacity, he⟩ := hr₁.owner
    rw [he]
    exact ⟨rfl, hb.pages, hb.allocations, hb.nodes⟩
  have hown₁ : owned c₁.phys child₁.toOwner = owned c.phys child.toOwner := by
    have hown := userPagesReserve_owned (h.userOk_last hc) he₁
      (List.mem_append_right _ List.mem_cons_self)
    obtain ⟨block, capacity, he⟩ := hr₁.owner
    rw [he]
    exact hown
  have htr₁ : Trade c c₁ (owned c.phys child.toOwner) (owned c₁.phys child₁.toOwner) := by
    rw [hown₁]
    exact (hst₁.trade (h.userOk_last hc).memory).frame (owned c.phys child.toOwner)
  have hst₁ : Stable c c₁ (owners us ++ [child.toOwner]) := hst₁.stable
  have hstable₁ : Stable c c₁ (owners us) := hst₁.mono fun u hu => List.mem_append_left _ hu
  have hm₁ := hu₁.memory
  unfold cowCloneAddressSpace
  dsimp only
  rw [if_neg (by
    rintro (hx | hx | hx | hx)
    · exact (owns_iff.mp ho).2 hx
    · exact Nat.not_lt.mpr hsound.layout.count hx
    · exact (owns_iff.mp hc).2 hx
    · exact hx hb.pages)]
  simp only [he₁, Option.bind_eq_bind, Option.bind_some]
  cases room with
  | false => exact .inl ⟨c₁, child₁, child₁.toOwner, rfl, hm₁, hstable₁, htr₁, hs₁,
      rfl, rfl, hsame₁.1⟩
  | true =>
  -- the nodes
  obtain ⟨cloned, c₂, done, nodes, he₂, hm₂, hst₂, hown₂, hlen, hdone⟩ :=
    @userAllocationsClone_spec _ child₁ t.toOwner _ _ _ _ hm₁ hsame₁.2.2.1
  have htr₂ :
      Trade c c₂ (owned c.phys child.toOwner)
        (owned c₂.phys (child₁.withNodes done nodes).toOwner) := by
    refine htr₁.trans ?_
    rw [show owned c₂.phys (child₁.withNodes done nodes).toOwner = owned c₁.phys child₁.toOwner from
      hown₂ child₁.toOwner (List.mem_append_right _ (List.mem_singleton.mpr rfl))]
    exact (hst₂.trade hm₁).frame (owned c₁.phys child₁.toOwner)
  have hst₂ : Stable c₁ c₂ (owners us ++ [child₁.toOwner]) := hst₂.stable
  have hstable₂ : Stable c c₂ (owners us) :=
    hstable₁.trans (hst₂.mono fun u hu => List.mem_append_left _ hu)
  simp only [Bool.not_true, Bool.false_eq_true, if_false, he₂, Option.bind_some]
  cases cloned with
  | false => exact .inl ⟨c₂, _, (child₁.withNodes done nodes).toOwner, rfl, hm₂, hstable₂, htr₂,
      ⟨hs₁.thread, hs₁.root⟩,
      rfl, rfl, hsame₁.1⟩
  | true =>
  -- the pages
  have hempty₂ : ∀ va < 0x800000000000,
      c₂.phys.translate (child₁.withNodes done nodes).pml4 va = none := by
    intro va hva
    have h1 :=
      (hst₂.unaffected child₁.toOwner (List.mem_append_right _ (List.mem_singleton.mpr rfl))).map va
        hva
    have h2 :=
      (hst₁.unaffected child.toOwner (List.mem_append_right _ (List.mem_singleton.mpr rfl))).map va
        hva
    rw [show child.toOwner.pml4 = child₁.pml4 from hs₁.root.symm] at h2
    rw [← hs₁.root] at hempty
    rw [hempty va hva] at h2
    exact h1.trans h2
  have hprep : Prepared child (child₁.withNodes done nodes) t := by
    refine ⟨⟨hs₁.thread, hs₁.root⟩, hsame₁.1, hsame₁.2.1, ?_, ?_, hroom rfl, hu₁.layout.capacity⟩
    · exact (congrArg (· ++ done) hsame₁.2.2.1).trans (hdone rfl)
    · show (child₁.allocationBlocks ++ nodes).length = (child₁.allocations ++ done).length
      rw [hsame₁.2.2.1, hsame₁.2.2.2]
      exact hlen
  have := clonePages_spec h hus ho hc hb hstable₂ htr₂ hm₂ hprep hempty₂
  generalize clonePages c₂ m t.toOwner (child₁.withNodes done nodes) = x at this ⊢
  exact this

end GenOS
