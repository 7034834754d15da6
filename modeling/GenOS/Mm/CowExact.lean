import GenOS.Mm.Cow
import GenOS.Mm.Spaces

/-!
# Resolving a copy-on-write fault is exact

Where `cow_resolve` changes anything, it rewrites one leaf and one record of the faulting owner
(`leaf_change`): upgraded in place when the owner is the only holder of the frame, or with a fresh
copy of it.
-/

namespace GenOS.Phys

open Radix Pmm

variable {s s' : Phys} {t : Owner} {os os₁ os₂ : List Owner} {shared rest : List Nat}
variable {va u i old f : Nat} {es : List Word}

/-! ## Records -/

theorem privateIndex_some {phys : Nat} (h : privateIndex t va phys = some i) :
    t.userPages[i]? = some ⟨phys, va⟩ := by
  obtain ⟨hi, hp, -⟩ := List.findIdx?_eq_some_iff_getElem.mp h
  simp only [Bool.and_eq_true, beq_iff_eq] at hp
  rw [List.getElem?_eq_getElem hi, ← hp.1, ← hp.2]

/-- The list of records around the one that changes. -/
theorem setPage_split (h : t.userPages[i]? = some ⟨old, va⟩) (f : Nat) : ∃ l₁ l₂,
    t.userPages = l₁ ++ ⟨old, va⟩ :: l₂ ∧ (setPage t i f).userPages = l₁ ++ ⟨f, va⟩ :: l₂ := by
  obtain ⟨hi, he⟩ := List.getElem?_eq_some_iff.mp h
  refine ⟨t.userPages.take i, t.userPages.drop (i + 1), ?_, ?_⟩
  · rw [← he, List.getElem_cons_drop, List.take_append_drop]
  · show t.userPages.modify i _ = _
    rw [List.modify_eq_set_getElem?, h]
    exact List.set_eq_take_append_cons_drop.trans (if_pos hi)

/-! ## One leaf -/

/-- The leaf of a page and its record are rewritten: frame `old` is replaced by `f`, whose frame
number and flags are in `x`. Otherwise only free frames are written. -/
structure LeafStore (s s' : Phys) (t : Owner) (va u i old f : Nat) (x flags : Word) : Prop where
  reaches : ∃ es, s.Reaches t.pml4 va 0 u es
  record : t.userPages[i]? = some ⟨old, va⟩
  built : Word.Built x (BitVec.ofNat 64 f) flags
  present : x.has ptePresent = true
  written : flags.has pteWrite = true → flags.has pteCow = false
  tracked : s.pmm.Tracked f
  apart : ∀ g ∈ s.tables t.pml4 lowerHalf, g ≠ f ∧ g ∉ t.userPages.map PageRecord.phys
  fresh : f = old ∨ s.pmm.FreeAt f
  kernel : s'.kernelPml4 = s.kernelPml4
  moves : Moves s.pmm s'.pmm [old] [f]
  mem : ∃ m, (∀ g, ¬ s.pmm.FreeAt g → m g = s.mem g) ∧ s'.mem = put m u (indexAt va 0) x

variable {x flags : Word}

/-- The tree after the store. -/
theorem LeafStore.tree (ho : OwnerOk s t shared) (h : LeafStore s s' t va u i old f x flags) :
    s'.Tree t.pml4 lowerHalf [] ∧ (s'.tables t.pml4 lowerHalf).Perm (s.tables t.pml4 lowerHalf) ∧
      s'.Full t.pml4 lowerHalf (· = t.pml4) ∧
      ∀ b < 0x800000000000, s'.translate t.pml4 b =
        if b / 4096 = va / 4096 then some (BitVec.ofNat 64 f, flags) else s.translate t.pml4 b := by
  obtain ⟨es, hw⟩ := h.reaches
  obtain ⟨m, hm, hmem⟩ := h.mem
  have hva := (ho.records _ (List.mem_of_getElem? h.record)).user
  have hI := index_lower hva
  have hm : ∀ g ∈ s.tables t.pml4 lowerHalf, m g = s.mem g := fun g hg =>
    hm g (ho.tree.used_table hg)
  -- the memory before the store, as a state
  have htab : ({ s with mem := m } : Phys).tables t.pml4 lowerHalf = s.tables t.pml4 lowerHalf :=
    tables_of_mem hm
  have hag : Agree pageShape s.mem m 3 lowerHalf.idx t.pml4 := .of_tables lowerHalf.lt
    fun g hg j _ => .inl (by rw [hm g hg])
  have ht : ({ s with mem := m } : Phys).Tree t.pml4 lowerHalf [] :=
    ⟨ho.tree.inv, ho.tree.small, by rw [htab]; exact ho.tree.nodup, by
      rw [htab]
      exact ho.tree.used⟩
  have hw' : ({ s with mem := m } : Phys).Reaches t.pml4 va 0 u es :=
    Walk.congr hw hag (inRange_indexAt va) hI
  obtain ⟨heff, hperm, hview⟩ := ht.setLeaf hw' hI x
  have hs' : ∀ I : Slots, s'.tables t.pml4 I =
      (({ s with mem := m } : Phys).store u (indexAt va 0) x).tables t.pml4 I := fun I => by
    unfold tables
    rw [hmem]
    rfl
  have hp : (s'.tables t.pml4 lowerHalf).Perm (s.tables t.pml4 lowerHalf) := by
    rw [hs', ← htab]
    exact hperm
  refine ⟨⟨h.moves.inv, h.moves.total.symm ▸ ho.tree.small, ?_, fun g hg => ?_⟩, hp,
    fun g hg => ?_, fun b hb => ?_⟩
  · rw [List.append_nil]
    exact hp.nodup_iff.mpr ho.tree.nodup_tables
  · rw [List.append_nil] at hg
    have hg := hp.mem_iff.mp hg
    refine h.moves.not_freeAt (ho.tree.used_table hg) ?_
    have hne : old ≠ g := fun he => (h.apart g hg).2
      (List.mem_map.mpr ⟨_, List.mem_of_getElem? h.record, he⟩)
    rw [List.count_singleton, beq_eq_false_iff_ne.mpr hne]
    exact Nat.zero_le _
  · have hg := hp.mem_iff.mp hg
    by_cases hgu : g = u
    · refine .inr ⟨indexAt va 0, indexAt_lt va 0, ?_⟩
      rw [hmem, hgu, put_self]
      exact h.present
    · refine (ho.full g hg).imp_right fun ⟨j, hj, hl⟩ => ⟨j, hj, ?_⟩
      rw [hmem, put_ne_table hgu, hm g hg]
      exact hl
  · have hl : s'.lookup t.pml4 (indexAt b) =
        (({ s with mem := m } : Phys).store u (indexAt va 0) x).lookup t.pml4 (indexAt b) := by
      unfold lookup
      rw [hmem]
      rfl
    have hlen := hw.length
    by_cases hpage : b / 4096 = va / 4096
    · have hk : ∀ l ≤ 3, indexAt b l = indexAt va l := indexAt_page hpage
      have hb' := hview _ (inRange_indexAt b) (index_lower hb)
      rw [if_pos hk, if_pos h.present] at hb'
      rw [if_pos hpage, translate, canonical_lower hb, if_pos rfl, hl, hb']
      obtain ⟨a₁, a₂, a₃, rfl⟩ := List.length_eq_three.mp hlen
      simp [leafOf, h.built.address, h.built.flag]
    · rw [if_neg hpage]
      refine translate_congr ?_
      rw [hl, hview _ (inRange_indexAt b) (index_lower hb), if_neg fun hk => hpage ?_]
      · exact path_congr hag (inRange_indexAt b) (index_lower hb)
      · exact page_of_indexAt hk hb hva

/-- **The store of a leaf**, seen from all owners. -/
theorem LeafStore.change (ho : OwnerOk s t shared) (h : LeafStore s s' t va u i old f x flags)
    (hrest : ∀ g ∈ s.tables t.pml4 lowerHalf, g ∉ rest) :
    Change s s' t (setPage t i f) shared rest rest := by
  obtain ⟨htree, hperm, hfull, hmap⟩ := h.tree ho
  obtain ⟨l₁, l₂, hl, hl'⟩ := setPage_split h.record f
  have hrec := ho.records _ (List.mem_of_getElem? h.record)
  have hva : va < 0x800000000000 := hrec.user
  have haddr := toNat_address ho.tree.small h.tracked
  have hd := ho.distinct
  rw [hl, List.map_append, List.map_cons] at hd
  -- the other records are of other pages
  have hne : ∀ p ∈ l₁ ++ l₂, p.vaddr ≠ va := fun p hp he => by
    have hd' := (List.perm_middle.nodup_iff).mp hd
    rw [List.nodup_cons, ← List.map_append] at hd'
    exact hd'.1 (List.mem_map.mpr ⟨p, hp, he⟩)
  have hmem : ∀ p, p ∈ (setPage t i f).userPages ↔ p = ⟨f, va⟩ ∨ p ∈ l₁ ++ l₂ := fun p => by
    rw [hl']
    exact (List.perm_middle.mem_iff).trans List.mem_cons
  have hold : ∀ p, p ∈ t.userPages ↔ p = ⟨old, va⟩ ∨ p ∈ l₁ ++ l₂ := fun p => by
    rw [hl]
    exact (List.perm_middle.mem_iff).trans List.mem_cons
  have hrecords : ∀ p ∈ l₁ ++ l₂, Recorded s' (setPage t i f) p := fun p hp => by
    obtain ⟨h1, h2, h3, fl, h4⟩ := ho.records p ((hold p).mpr (.inr hp))
    refine ⟨h1, h2, h.moves.tracked.mpr h3, fl, ?_⟩
    show s'.translate t.pml4 p.vaddr = _
    rw [hmap _ h2, if_neg fun hp' => hne p hp ?_, h4]
    have := hrec.aligned
    simp only at this
    omega
  refine ⟨⟨ho.root, htree, hfull, fun p hp => ?_, ?_, fun b hb ha p fl hp => ?_,
    fun b hb p fl hp => ?_⟩, h.kernel, ?_, fun g hg hf => ?_,
    fun g hg => .inl (hperm.mem_iff.mp hg), fun g hg => ?_⟩
  · rcases (hmem p).mp hp with rfl | hp
    · refine ⟨hrec.aligned, hva, h.moves.tracked.mpr h.tracked, flags, ?_⟩
      show s'.translate t.pml4 va = _
      rw [hmap _ hva, if_pos rfl]
    · exact hrecords p hp
  · rw [hl', List.map_append, List.map_cons]
    exact hd
  · change s'.translate t.pml4 b = _ at hp
    rw [hmap b hb] at hp
    split at hp
    · next hpage =>
      cases hp
      have hbv : b = va := by
        have := hrec.aligned
        simp only at this
        omega
      exact .inl ((hmem _).mpr (.inl (by rw [haddr, hbv])))
    · next hpage =>
      rcases ho.leaves b hb ha p fl hp with hr | hsh
      · rcases (hold _).mp hr with he | hr
        · cases he
          exact absurd rfl hpage
        · exact .inl ((hmem _).mpr (.inr hr))
      · exact .inr hsh
  · change s'.translate t.pml4 b = _ at hp
    rw [hmap b hb] at hp
    split at hp
    · cases hp
      exact h.written
    · exact ho.written b hb p fl hp
  · refine h.moves.congr fun a _ => ?_
    unfold owned
    rw [hl, hl']
    change _ + ((s'.tables t.pml4 lowerHalf ++ _) ++ rest).count a = _
    simp only [List.map_append, List.map_cons, List.count_append, List.count_cons, List.count_nil,
      hperm.count_eq]
    omega
  · obtain ⟨m, hm, hmem'⟩ := h.mem
    obtain ⟨es, hw⟩ := h.reaches
    have hgu : g ≠ u := fun he => hg (by rw [he]; exact hw.mem_tables (index_lower hva))
    rw [hmem', put_ne_table hgu, hm g hf]
  · have hapart := fun g hg => h.apart g (hperm.mem_iff.mp hg)
    rcases List.mem_append.mp hg with hg | hg
    on_goal 2 => exact ⟨fun hgt => hrest g (hperm.mem_iff.mp hgt) hg,
      .inl (List.mem_append_right _ hg)⟩
    obtain ⟨p, hp, rfl⟩ := List.mem_map.mp hg
    rcases (hmem p).mp hp with rfl | hp
    · refine ⟨fun hg => (hapart f hg).1 rfl, ?_⟩
      rcases h.fresh with rfl | hf
      · exact .inl (List.mem_append_left _ (List.mem_map.mpr ⟨_, (hold _).mpr (.inl rfl), rfl⟩))
      · exact .inr hf
    · have hpt : p.phys ∈ t.userPages.map PageRecord.phys :=
        List.mem_map_of_mem ((hold p).mpr (.inr hp))
      exact ⟨fun hg => (hapart _ hg).2 hpt, .inl (List.mem_append_left _ hpt)⟩

/-! ## The new flags -/

/-- The flags of the leaf after the fault. -/
def cowFlags (pte : Word) : Word := pte &&& pteFlagMask &&& ~~~pteCow ||| pteWrite

theorem getLsbD_cowFlags (pte : Word) {k : Nat} (hk : k < 64) : (cowFlags pte).getLsbD k =
    (pte.getLsbD k && decide (k < 12 ∨ k = 63) && !decide (k = 9) || decide (k = 1)) := by
  unfold cowFlags pteCow pteWrite
  rw [BitVec.getLsbD_or, BitVec.getLsbD_and, BitVec.getLsbD_and, BitVec.getLsbD_not,
    Word.getLsbD_flagMask, Word.getLsbD_shift, Word.getLsbD_shift]
  simp [hk]

/-- All flags other than the two are preserved, the page may be written and is not shared. -/
structure FlagsResolved (flags flags' : Word) : Prop where
  rest : flags' &&& ~~~(pteWrite ||| pteCow) = flags &&& ~~~(pteWrite ||| pteCow)
  write : flags'.has pteWrite = true
  cow : flags'.has pteCow = false

theorem cowFlags_resolved (pte : Word) : FlagsResolved (pte &&& pteFlagMask) (cowFlags pte) := by
  refine ⟨BitVec.eq_of_getLsbD_eq fun k hk => ?_, ?_, ?_⟩
  · rw [BitVec.getLsbD_and, BitVec.getLsbD_and, getLsbD_cowFlags pte hk, BitVec.getLsbD_and,
      Word.getLsbD_flagMask, BitVec.getLsbD_not, BitVec.getLsbD_or, pteWrite, pteCow,
      Word.getLsbD_shift, Word.getLsbD_shift]
    by_cases h1 : k = 1
    · simp [h1]
    · by_cases h9 : k = 9
      · simp [h9]
      · simp [h1, h9]
  · rw [Word.has_write, getLsbD_cowFlags pte (by decide)]
    simp
  · rw [Word.has_cow, getLsbD_cowFlags pte (by decide)]
    simp

theorem cowFlags_built (pte : Word) {p : Word} (hp : p &&& ~~~pteAddrMask = 0#64) :
    Word.Built (p ||| cowFlags pte) p (cowFlags pte) := by
  refine Word.built hp (BitVec.eq_of_getLsbD_eq fun k hk => ?_)
  rw [BitVec.getLsbD_and, BitVec.getLsbD_not, Word.getLsbD_flagMask, getLsbD_cowFlags pte hk,
    BitVec.getLsbD_zero]
  by_cases hf : k < 12 ∨ k = 63
  · simp [hf]
  · have h1 : k ≠ 1 := by omega
    simp [hf, h1]

theorem cowFlags_present {pte p : Word} (h : pte.has ptePresent = true) :
    (p ||| cowFlags pte).has ptePresent = true := by
  rw [Word.has_present] at h ⊢
  rw [BitVec.getLsbD_or, getLsbD_cowFlags pte (by decide), h]
  simp

/-- The tests of the leaf. -/
theorem userWrite_iff (pte : Word) : pte &&& (pteUser ||| pteWrite) = pteUser ||| pteWrite ↔
    pte.has pteUser = true ∧ pte.has pteWrite = true := by
  rw [Word.has_user, Word.has_write]
  have h := @Word.and_ofBits pte [2, 1] [2, 1] (by decide) (by simp)
  rw [show pteUser ||| pteWrite = Word.ofBits [2, 1] by decide, h]
  simp

theorem userCow_iff (pte : Word) :
    pte &&& (pteUser ||| pteCow ||| pteWrite) = pteUser ||| pteCow ↔
      pte.has pteUser = true ∧ pte.has pteCow = true ∧ pte.has pteWrite = false := by
  rw [Word.has_user, Word.has_write, Word.has_cow]
  have h := @Word.and_ofBits pte [2, 9, 1] [2, 9] (by decide) (by simp)
  rw [show pteUser ||| pteCow ||| pteWrite = Word.ofBits [2, 9, 1] by decide,
    show pteUser ||| pteCow = Word.ofBits [2, 9] by decide, h]
  simp

/-- A write fault on a present page, from user or kernel mode. -/
theorem writeFault_iff (e : Word) : e &&& ~~~4#64 = 3#64 ↔ e = 3#64 ∨ e = 7#64 := by
  constructor
  · intro h
    have hsplit : e = e &&& 4#64 ||| e &&& ~~~4#64 := by
      rw [← BitVec.and_or_distrib_left, BitVec.or_not_self, BitVec.and_allOnes]
    have hbit : e &&& 4#64 = if e.getLsbD 2 then 4#64 else 0#64 := BitVec.and_twoPow e 2
    rw [h, hbit] at hsplit
    cases hb : e.getLsbD 2 with
    | true =>
      rw [hb] at hsplit
      exact .inr hsplit
    | false =>
      rw [hb] at hsplit
      exact .inl hsplit
  · rintro (rfl | rfl) <;> decide

/-! ## The fault -/

/-- A call that changes no table, record or count. -/
structure Idle (s s' : Phys) (t t' : Owner) : Prop where
  state : ∃ n, s' = { s with asked := n }
  owner : t' = t

/-- What a handled fault on the page `va` did. -/
structure CowHandled (s s' : Phys) (t t' : Owner) (va : Nat) (p flags p' flags' : Word) : Prop where
  before : s.translate t.pml4 va = some (p, flags)
  user : flags.has pteUser = true
  /-- The page is shared, or may be written meanwhile. -/
  cause : flags.has pteWrite = true ∨ flags.has pteCow = true
  root : t'.pml4 = t.pml4
  after : s'.translate t.pml4 va = some (p', flags')
  resolved : FlagsResolved flags flags'
  contents : s'.mem p'.toNat = s.mem p.toNat
  /-- The old frame loses one reference to the new one, which was free. -/
  refs : Moves s.pmm s'.pmm [p.toNat] [p'.toNat]
  fresh : p' = p ∨ s.pmm.FreeAt p'.toNat
  record : t' = t ∨ ∃ i, t.userPages[i]? = some ⟨p.toNat, va⟩ ∧ t' = setPage t i p'.toNat
  /-- The owner's other pages. -/
  elsewhere : ∀ b < 0x800000000000, b / 4096 ≠ va / 4096 →
    s'.translate t.pml4 b = s.translate t.pml4 b ∧
      ∀ q fl, s.translate t.pml4 b = some (q, fl) → s'.mem q.toNat = s.mem q.toNat

/-- The leaf's word is replaced; the frame behind it is `f` now. -/
theorem LeafStore.handled (h : Spaces s (os₁ ++ t :: os₂) shared rest)
    (hl : LeafStore s s' t va u i old f x flags) {pte : Word}
    (hb : s.translate t.pml4 va = some (BitVec.ofNat 64 old, pte &&& pteFlagMask))
    (hu : pte.has pteUser = true) (hc : pte.has pteCow = true) (hf : flags = cowFlags pte)
    (hm : s'.mem f = s.mem old) :
    CowHandled s s' t (setPage t i f) va (BitVec.ofNat 64 old) (pte &&& pteFlagMask)
      (BitVec.ofNat 64 f) flags := by
  have htm : t ∈ os₁ ++ t :: os₂ := List.mem_append_right _ List.mem_cons_self
  have ho := h.owner t htm
  obtain ⟨-, -, -, hmap⟩ := hl.tree ho
  have hch := hl.change ho (h.not_rest htm)
  have hva := (ho.records _ (List.mem_of_getElem? hl.record)).user
  have hold : (BitVec.ofNat 64 old).toNat = old :=
    toNat_address h.small (ho.records _ (List.mem_of_getElem? hl.record)).tracked
  have hfn : (BitVec.ofNat 64 f).toNat = f := toNat_address h.small hl.tracked
  refine ⟨hb, ?_, .inr ?_, rfl, ?_, hf ▸ cowFlags_resolved pte, ?_, ?_, ?_, ?_,
    fun b hbl hne => ⟨?_, fun q fl hq => ?_⟩⟩
  · rwa [Word.has_user, Word.getLsbD_flags pte (by decide), ← Word.has_user]
  · rwa [Word.has_cow, Word.getLsbD_flags pte (by decide), ← Word.has_cow]
  · rw [hmap va hva, if_pos rfl]
  · rw [hold, hfn]
    exact hm
  · rw [hold, hfn]
    exact hl.moves
  · rw [hfn]
    exact hl.fresh.imp_left fun he => by rw [he]
  · rw [hold, hfn]
    exact .inr ⟨i, hl.record, rfl⟩
  · rw [hmap b hbl, if_neg hne]
  · exact h.own_contents hch hbl hq

theorem setPage_same (h : t.userPages[i]? = some ⟨old, va⟩) : setPage t i old = t := by
  obtain ⟨hi, he⟩ := List.getElem?_eq_some_iff.mp h
  have hset : t.userPages.modify i (fun p => { p with phys := old }) = t.userPages := by
    rw [List.modify_eq_set_getElem?, h]
    show t.userPages.set i ⟨old, va⟩ = t.userPages
    rw [← he, List.set_getElem_self]
  unfold setPage
  rw [hset]

/-- A leaf that may be written already. -/
theorem handled_stale (ho : OwnerOk s t shared) (hva : va < 0x800000000000) {p flags : Word}
    (hb : s.translate t.pml4 va = some (p, flags)) (hu : flags.has pteUser = true)
    (hw : flags.has pteWrite = true) : CowHandled s s t t va p flags p flags :=
  ⟨hb, hu, .inl hw, rfl, hb, ⟨rfl, hw, ho.written va hva p flags hb hw⟩, rfl, .refl ho.tree.inv,
    .inl rfl, .inl rfl, fun _ _ _ => ⟨rfl, fun _ _ _ => rfl⟩⟩

/-- What `cow_resolve` does with the leaf it finds. -/
theorem resolveLeaf_spec (h : Spaces s (os₁ ++ t :: os₂) shared rest) (hva : va < 0x800000000000)
    (hw : s.Reaches t.pml4 va 0 u es) (hp : (s.mem u (indexAt va 0)).has ptePresent = true)
    (hb : s.translate t.pml4 va = some (vmmPteAddress (s.mem u (indexAt va 0)),
      s.mem u (indexAt va 0) &&& pteFlagMask)) :
    (∃ s', s.resolveLeaf t va u (indexAt va 0) = (false, s', t) ∧ Idle s s' t t) ∨
    ∃ s' t' p flags p' flags', s.resolveLeaf t va u (indexAt va 0) = (true, s', t') ∧
      CowHandled s s' t t' va p flags p' flags' ∧
      (s' = s ∧ t' = t ∨ flags.has pteCow = true ∧ Change s s' t t' shared rest rest) := by
  have htm : t ∈ os₁ ++ t :: os₂ := List.mem_append_right _ List.mem_cons_self
  have ho := h.owner t htm
  have hidle : Idle s s t t := ⟨⟨s.asked, rfl⟩, rfl⟩
  have hu := hw.mem_tables (index_lower hva)
  have hapart := fun g hg => h.apart g (mem_allTables htm hg)
  generalize hpte : s.mem u (indexAt va 0) = pte at hp hb
  have hflag := @Word.getLsbD_flags pte
  unfold resolveLeaf
  rw [hpte]
  dsimp only
  split
  · next hwr =>
    obtain ⟨h1, h2⟩ := (userWrite_iff pte).mp hwr
    refine .inr ⟨s, t, _, _, _, _, rfl, handled_stale ho hva hb ?_ ?_, .inl ⟨rfl, rfl⟩⟩
    · rwa [Word.has_user, hflag (by decide), ← Word.has_user]
    · rwa [Word.has_write, hflag (by decide), ← Word.has_write]
  split
  · exact .inl ⟨s, rfl, hidle⟩
  next hcow =>
  obtain ⟨h1, h2, -⟩ := (userCow_iff pte).mp (not_not.mp hcow)
  have hcow' : (pte &&& pteFlagMask).has pteCow = true := by
    rwa [Word.has_cow, hflag (by decide), ← Word.has_cow]
  generalize hold : (vmmPteAddress pte).toNat = old
  have haddr : vmmPteAddress pte = BitVec.ofNat 64 old := by
    rw [← hold, BitVec.ofNat_toNat, BitVec.setWidth_eq]
  split
  · exact .inl ⟨s, rfl, hidle⟩
  next i hi =>
  have hrec := privateIndex_some hi
  have hr := ho.records _ (List.mem_of_getElem? hrec)
  have htrack : s.pmm.Tracked old := hr.tracked
  have hused : ¬ s.pmm.FreeAt old := h.not_free (mem_held_page htm
    (List.mem_map_of_mem (List.mem_of_getElem? hrec)))
  have hsmall : ∀ f, s.pmm.Tracked f → (BitVec.ofNat 64 f : Word) &&& ~~~pteAddrMask = 0#64 := by
    intro f hf
    have := hf.aligned
    have := hf.lt
    have := h.small
    exact Word.address_ofNat (by omega) (by omega)
  have hwritten : (cowFlags pte).has pteWrite = true → (cowFlags pte).has pteCow = false :=
    fun _ => (cowFlags_resolved pte).cow
  split
  · exact .inl ⟨s, rfl, hidle⟩
  split
  · -- the last holder
    have hl : LeafStore s (s.store u (indexAt va 0) (vmmPteAddress pte ||| cowFlags pte)) t va u i
        old old (vmmPteAddress pte ||| cowFlags pte) (cowFlags pte) := by
      refine ⟨⟨es, hw⟩, hrec, ?_, cowFlags_present hp, hwritten, htrack, fun g hg => ⟨?_, ?_⟩,
        .inl rfl, rfl, .refl h.inv, s.mem, fun _ _ => rfl, rfl⟩
      · rw [haddr]
        exact cowFlags_built pte (hsmall old htrack)
      · rintro rfl
        exact (hapart g hg).2 t htm (List.mem_map_of_mem (List.mem_of_getElem? hrec))
      · exact (hapart g hg).2 t htm
    have hmem : (s.store u (indexAt va 0) (vmmPteAddress pte ||| cowFlags pte)).mem old =
        s.mem old := put_ne_table fun he => (hapart u hu).2 t htm
          (he ▸ List.mem_map_of_mem (List.mem_of_getElem? hrec))
    have hh := hl.handled h (haddr ▸ hb) h1 h2 rfl hmem
    have hch := hl.change ho (h.not_rest htm)
    rw [setPage_same hrec] at hh hch
    exact .inr ⟨_, t, _, _, _, _, rfl, hh, .inr ⟨hcow', hch⟩⟩
  · -- a copy
    rcases allocFrame_cases h.inv with ha | ⟨f, p, ha, hf0, hf, hm⟩
    · rw [ha]
      exact .inl ⟨_, rfl, ⟨_, rfl⟩, rfl⟩
    rw [ha]
    dsimp only
    rw [if_neg hf0]
    have hfu : u ≠ f := fun he => ho.tree.used_table hu (he ▸ hf)
    have hpold : ¬ p.FreeAt old := hm.not_freeAt hused (Nat.zero_le _)
    have hl : LeafStore s ((({ s with
          pmm := p
          mem := Cells.set s.mem f (s.mem old)
          asked := s.asked + 1 } : Phys).store u (indexAt va 0)
            (BitVec.ofNat 64 f ||| cowFlags pte)).freeFrame old) t va u i old f
        (BitVec.ofNat 64 f ||| cowFlags pte) (cowFlags pte) := by
      refine ⟨⟨es, hw⟩, hrec, cowFlags_built pte (hsmall f hf.1), cowFlags_present hp, hwritten,
        hf.1, fun g hg => ⟨?_, (hapart g hg).2 t htm⟩, .inr hf, rfl, ?_,
        Cells.set s.mem f (s.mem old), fun g hg => ?_, rfl⟩
      · rintro rfl
        exact ho.tree.used_table hg hf
      · show Moves s.pmm (p.pmmFreePage old) [old] [f]
        simpa using hm.trans (freePage_moves hm.inv hpold)
      · have hgf : g ≠ f := fun he => hg (by rw [he]; exact hf)
        exact Cells.set_of_ne hgf _ _
    refine .inr ⟨_, _, _, _, _, _, rfl, hl.handled h (haddr ▸ hb) h1 h2 rfl ?_,
      .inr ⟨hcow', hl.change ho (h.not_rest htm)⟩⟩
    show put (Cells.set s.mem f (s.mem old)) u _ _ f = s.mem old
    rw [put_ne_table hfu.symm, Cells.set_self]

/-- What the call says, and what it did. -/
structure CowSpec (s : Phys) (os₁ os₂ : List Owner) (t : Owner) (shared rest : List Nat)
    (faultAddr : Nat) (errorCode : Word) (handled : Bool) (s' : Phys) (t' : Owner) : Prop where
  resolved : handled = true → (errorCode = 3#64 ∨ errorCode = 7#64) ∧ faultAddr < 0x800000000000 ∧
    ∃ p flags p' flags', CowHandled s s' t t' (faultAddr / 4096 * 4096) p flags p' flags'
  idle : handled = false → Idle s s' t t'
  unaffected : ∀ u ∈ os₁ ++ os₂, Unaffected s s' u
  spaces : Spaces s' (os₁ ++ t' :: os₂) shared rest
  /-- Only a page that is shared copy-on-write is worked on. -/
  effect : Idle s s' t t' ∨ Change s s' t t' shared rest rest ∧ ∃ p flags,
    s.translate t.pml4 (faultAddr / 4096 * 4096) = some (p, flags) ∧ flags.has pteCow = true

theorem Spaces.idle (h : Spaces s os shared rest) (n : Nat) :
    Spaces { s with asked := n } os shared rest :=
  ⟨h.kernel.of_mem rfl (fun _ _ => rfl) h.inv rfl fun _ hg => h.kernel.tree.used_table hg,
    fun t ht => (h.owner t ht).of_mem (fun _ _ => rfl) h.inv rfl
      (fun _ hg => (h.owner t ht).tree.used_table hg) fun _ ha => ha,
    h.tables, h.apart, h.refs⟩

/-- **`cow_resolve` is exact**, for every fault of every owner. -/
theorem cow_resolve_exact (h : Spaces s (os₁ ++ t :: os₂) shared rest) (faultAddr : Nat)
    (errorCode : Word) : ∃ handled s' t',
      s.cowResolve (some t) faultAddr errorCode = (handled, s', some t') ∧
      CowSpec s os₁ os₂ t shared rest faultAddr errorCode handled s' t' := by
  have htm : t ∈ os₁ ++ t :: os₂ := List.mem_append_right _ List.mem_cons_self
  have ho := h.owner t htm
  have hnothing : CowSpec s os₁ os₂ t shared rest faultAddr errorCode false s t :=
    ⟨nofun, fun _ => ⟨⟨s.asked, rfl⟩, rfl⟩, fun _ _ => ⟨fun _ _ => rfl, fun _ _ _ _ _ => rfl⟩, h,
      .inl ⟨⟨s.asked, rfl⟩, rfl⟩⟩
  unfold cowResolve
  split
  · exact ⟨_, _, _, rfl, hnothing⟩
  next hfault =>
  obtain ⟨he, hlt⟩ := not_or.mp hfault
  have he := (writeFault_iff errorCode).mp (not_not.mp he)
  have hlt : faultAddr < 0x800000000000 := Nat.lt_of_not_le hlt
  have hva : faultAddr / 4096 * 4096 < 0x800000000000 := by omega
  dsimp only
  rw [if_neg ho.root]
  cases hpte : s.vmmPteIn t.pml4 (faultAddr / 4096 * 4096) with
  | none => exact ⟨_, _, _, rfl, hnothing⟩
  | some slot =>
    obtain ⟨u, j⟩ := slot
    obtain ⟨rfl, ⟨es, hw⟩, hp, hb⟩ := vmmPteIn_some ho.root (canonical_lower hva) hpte
    dsimp only
    rcases resolveLeaf_spec h hva hw hp hb with ⟨s', hr, hi⟩ | ⟨s', t', p, fl, p', fl', hr, hh, hch⟩
    · rw [hr]
      obtain ⟨n, rfl⟩ := hi.state
      exact ⟨_, _, _, rfl, nofun, fun _ => ⟨⟨n, rfl⟩, rfl⟩,
        fun v hv => ⟨fun _ _ => rfl, fun _ _ _ _ _ => rfl⟩, h.idle n, .inl ⟨⟨n, rfl⟩, rfl⟩⟩
    · rw [hr]
      refine ⟨_, _, _, rfl, fun _ => ⟨he, hlt, p, fl, p', fl', hh⟩, nofun, ?_, ?_, ?_⟩
      · rcases hch with ⟨rfl, rfl⟩ | ⟨-, hch⟩
        · exact fun _ _ => ⟨fun _ _ => rfl, fun _ _ _ _ _ => rfl⟩
        · exact fun v hv => h.unaffected hch hv
      · rcases hch with ⟨rfl, rfl⟩ | ⟨-, hch⟩
        · exact h
        · exact h.update hch
      · rcases hch with ⟨rfl, rfl⟩ | ⟨hcow, hch⟩
        · exact .inl ⟨⟨s'.asked, rfl⟩, rfl⟩
        · exact .inr ⟨hch, p, fl, hh.before, hcow⟩

end GenOS.Phys
