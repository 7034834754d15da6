import GenOS.Mm.UserAlloc
import GenOS.Mm.UserFree

/-!
# `user_realloc` moves the bytes

`copyPages_spec` is the copy loop, frame by frame: it writes frames of the new block only, and none
of them is a table or a source. From it the bytes of the new block (`Moved`), whoever else shares
the frames of the old one.
-/

namespace GenOS

open Phys Pmm

variable {c c' : HeapClient} {s s' : Phys} {t t' : UserTask} {os os₁ os₂ : List Owner}
variable {shared rest ps : List Nat} {new gone : List PageRecord} {a b : UserAllocation}
variable {k base size bytes r va : Nat}

/-! ## The copy loop -/

theorem vmmGetPhysicalIn_eq {p flags : Word} (hr : r ≠ 0) (hva : va < 0x800000000000)
    (h : s.translate r va = some (p, flags)) : s.vmmGetPhysicalIn r va = (p, flags) := by
  unfold vmmGetPhysicalIn
  cases hpte : s.vmmPteIn r va with
  | none =>
    rw [(vmmPteIn_none hr (canonical_lower hva)).mp hpte] at h
    cases h
  | some slot =>
    obtain ⟨u, i⟩ := slot
    obtain ⟨-, -, -, hb⟩ := vmmPteIn_some hr (canonical_lower hva) hpte
    rw [hb] at h
    exact Option.some.inj h

/-- The frames the loop copies from and to. -/
structure CopyFrames (s : Phys) (r base replacement n : Nat) (src dst : Nat → Word) : Prop where
  root : r ≠ 0
  source : ∀ i < n, base + i * 4096 < 0x800000000000 ∧
    ∃ flags, s.translate r (base + i * 4096) = some (src i, flags)
  target : ∀ i < n, replacement + i * 4096 < 0x800000000000 ∧
    ∃ flags, s.translate r (replacement + i * 4096) = some (dst i, flags)
  /-- No target is a table, a source, or another target. -/
  table : ∀ i < n, (dst i).toNat ∉ s.tables r lowerHalf
  apart : ∀ i < n, ∀ j < n, (dst i).toNat ≠ (src j).toNat
  inj : ∀ i < n, ∀ j < n, (dst i).toNat = (dst j).toNat → i = j

/-- What is copied to page `i`. -/
def copyLen (bytes i : Nat) : Nat := if bytes - i * 4096 < 4096 then bytes - i * 4096 else 4096

/-- What the first `n` rounds leave. -/
structure Copied (s s' : Phys) (bytes n : Nat) (src dst : Nat → Word) : Prop where
  state : ∃ m, s' = { s with mem := m }
  other : ∀ g, (∀ i < n, g ≠ (dst i).toNat) → s'.mem g = s.mem g
  page : ∀ i < n, s'.mem (dst i).toNat =
    WordBytes.copy (s.mem (dst i).toNat) (s.mem (src i).toNat) (copyLen bytes i)

theorem copyPages_spec {replacement : Nat} {src dst : Nat → Word}
    (h : CopyFrames s r base replacement ((bytes + 4095) / 4096) src dst) :
    Copied s (s.copyPages r base replacement bytes) bytes ((bytes + 4095) / 4096) src dst := by
  unfold copyPages
  generalize hn : (bytes + 4095) / 4096 = n at h ⊢
  -- the rounds so far
  suffices hk : ∀ k ≤ n, Copied s ((List.range k).foldl (fun s i =>
      let offset := i * 4096
      let src := (s.vmmGetPhysicalIn r (base + offset)).1.toNat
      let dst := (s.vmmGetPhysicalIn r (replacement + offset)).1.toNat
      s.copyFrame dst src
        (if bytes - offset < 4096 then bytes - offset else 4096)) s) bytes k src dst
    from hk n (Nat.le_refl n)
  intro k
  induction k with
  | zero => exact fun _ => ⟨⟨s.mem, rfl⟩, fun _ _ => rfl, fun i hi => absurd hi (Nat.not_lt_zero i)⟩
  | succ k ih =>
    intro hk
    rw [List.range_succ, List.foldl_append]
    obtain ⟨⟨m, hs⟩, hother, hpage⟩ := ih (Nat.le_of_succ_le hk)
    generalize List.foldl _ s (List.range k) = s₁ at hs hother hpage ⊢
    have htab : ∀ g ∈ s.tables r lowerHalf, s₁.mem g = s.mem g := fun g hg =>
      hother g fun i hi he => h.table i (by omega) (he ▸ hg)
    obtain ⟨hlts, fls, htrs⟩ := h.source k hk
    obtain ⟨hltd, fld, htrd⟩ := h.target k hk
    have hsrc : s₁.vmmGetPhysicalIn r (base + k * 4096) = (src k, fls) :=
      vmmGetPhysicalIn_eq h.root hlts ((translate_of_mem htab hlts).trans htrs)
    have hdst : s₁.vmmGetPhysicalIn r (replacement + k * 4096) = (dst k, fld) :=
      vmmGetPhysicalIn_eq h.root hltd ((translate_of_mem htab hltd).trans htrd)
    simp only [List.foldl_cons, List.foldl_nil, hsrc, hdst]
    have hold : s₁.mem (src k).toNat = s.mem (src k).toNat :=
      hother _ fun i hi he => h.apart i (by omega) k hk he.symm
    have hnew : s₁.mem (dst k).toNat = s.mem (dst k).toNat :=
      hother _ fun i hi he => by
        have := h.inj k hk i (by omega) he
        omega
    refine ⟨⟨_, by rw [hs]; rfl⟩, fun g hg => ?_, fun i hi => ?_⟩
    · refine (Cells.set_of_ne (hg k (Nat.lt_succ_self k)) _ _).trans ?_
      exact hother g fun i hi => hg i (by omega)
    · by_cases hik : i = k
      · subst hik
        refine (Cells.set_self ..).trans ?_
        rw [hnew, hold]
        rfl
      · refine (Cells.set_of_ne (fun he => hik (h.inj i (by omega) k hk he)) _ _).trans ?_
        exact hpage i (by omega)

/-! ## The new block -/

/-- The pages of the allocation are recorded, and mapped. -/
theorem UserOk.page (h : UserOk c os₁ os₂ t shared rest ps) (ha : a ∈ t.allocations) {i : Nat}
    (hi : i < a.pages.toNat) : ∃ p ∈ t.userPages, ∃ flags,
      c.phys.translate t.pml4 (a.base + i * 4096) = some (BitVec.ofNat 64 p.phys, flags) := by
  obtain ⟨p, hp, hv⟩ := List.mem_map.mp (h.layout.backed a ha i hi)
  obtain ⟨-, -, -, flags, hm⟩ := (h.memory.spaces.owner _
    (List.mem_append_right _ List.mem_cons_self)).records p hp
  exact ⟨p, hp, flags, hv ▸ hm⟩

/-- The copy from an old block to a new one. -/
theorem Allocated.copied {c₁ : HeapClient} {t₁ : UserTask} {r : Nat}
    (h : UserOk c os₁ os₂ t shared rest ps) (h₁ : UserOk c₁ os₁ os₂ t₁ shared rest ps)
    (hA : Allocated c.phys c₁.phys t t₁ size r new) (ha : a ∈ t.allocations)
    (hold : bytes ≤ a.size) (hnew : bytes ≤ size) : ∃ src dst : Nat → Word,
      Copied c₁.phys (c₁.phys.copyPages t.pml4 a.base r bytes) bytes ((bytes + 4095) / 4096)
        src dst ∧
      (∀ i < (bytes + 4095) / 4096, ∃ flags,
        c.phys.translate t.pml4 (a.base + i * 4096) = some (src i, flags)) ∧
      ∀ i < (bytes + 4095) / 4096, ∃ p, new[i]? = some p ∧ dst i = BitVec.ofNat 64 p.phys := by
  have htm : t₁.toOwner ∈ os₁ ++ t₁.toOwner :: os₂ := List.mem_append_right _ List.mem_cons_self
  have ho := h.memory.spaces.owner t.toOwner (List.mem_append_right _ List.mem_cons_self)
  have ho₁ := h₁.memory.spaces.owner _ htm
  have hpages := (h.layout.sized a ha).2
  have ha₁ : a ∈ t₁.allocations := by
    rw [hA.allocations]
    exact List.mem_cons_of_mem _ ha
  have hcount := hA.count
  have hn : (bytes + 4095) / 4096 ≤ a.pages.toNat ∧ (bytes + 4095) / 4096 ≤ new.length := by omega
  generalize hnn : (bytes + 4095) / 4096 = n at hn ⊢
  have hpage : ∀ i < n, ∃ p ∈ t.userPages, p.vaddr = a.base + i * 4096 := fun i hi =>
    List.mem_map.mp (h.layout.backed a ha i (by omega))
  have : Nonempty PageRecord := ⟨⟨0, 0⟩⟩
  choose! f hf hfv using hpage
  have hnewpage : ∀ i < n, ∃ p, new[i]? = some p := fun i hi =>
    ⟨_, List.getElem?_eq_getElem (by omega)⟩
  choose! g hg using hnewpage
  have hnewmem : ∀ i < n, g i ∈ new := fun i hi => List.mem_of_getElem? (hg i hi)
  have hmem₁ : ∀ i < n, f i ∈ t₁.userPages ∧ g i ∈ t₁.userPages := fun i hi => by
    rw [hA.records]
    exact ⟨List.mem_append_left _ (hf i hi), List.mem_append_right _ (hnewmem i hi)⟩
  -- an old frame is in use, a new one was free
  have hused : ∀ i < n, ¬ c.phys.pmm.FreeAt (f i).phys := fun i hi =>
    h.memory.spaces.not_free (mem_held_page (List.mem_append_right _ List.mem_cons_self)
      (List.mem_map_of_mem (hf i hi)))
  have hsmall := h.memory.spaces.small
  have hfit : ∀ p ∈ t₁.userPages, (BitVec.ofNat 64 p.phys).toNat = p.phys := fun p hp =>
    toNat_address h₁.memory.spaces.small (ho₁.records p hp).tracked
  refine ⟨fun i => BitVec.ofNat 64 (f i).phys, fun i => BitVec.ofNat 64 (g i).phys, ?_,
    fun i hi => ?_, fun i hi => ⟨g i, hg i hi, rfl⟩⟩
  · rw [← hnn]
    refine copyPages_spec ⟨ho.root, fun i hi => ?_, fun i hi => ?_, fun i hi => ?_,
      fun i hi j hj he => ?_, fun i hi j hj he => ?_⟩
    all_goals rw [hnn] at hi
    · obtain ⟨-, hlt, -, flags, hm⟩ := ho₁.records _ (hmem₁ i hi).1
      rw [hA.root, hfv i hi] at hm
      rw [hfv i hi] at hlt
      exact ⟨hlt, flags, hm⟩
    · obtain ⟨-, hlt, -, flags, hm⟩ := ho₁.records _ (hmem₁ i hi).2
      have hv := hA.vaddr i _ (hg i hi)
      rw [hA.root, hv] at hm
      rw [hv] at hlt
      exact ⟨hlt, flags, hm⟩
    · rw [hfit _ (hmem₁ i hi).2]
      intro htab
      rw [← hA.root] at htab
      exact (h₁.memory.spaces.apart _ (mem_allTables htm htab)).2 _ htm
        (List.mem_map_of_mem (hmem₁ i hi).2)
    · rw [hnn] at hj
      rw [hfit _ (hmem₁ i hi).2, hfit _ (hmem₁ j hj).1] at he
      exact hused j hj (he ▸ hA.fresh _ (hnewmem i hi))
    · rw [hnn] at hj
      rw [hfit _ (hmem₁ i hi).2, hfit _ (hmem₁ j hj).2] at he
      have h1 : (new.map PageRecord.phys)[i]? = some (g i).phys := by
        rw [List.getElem?_map, hg i hi]
        rfl
      have h2 : (new.map PageRecord.phys)[j]? = some (g i).phys := by
        rw [List.getElem?_map, hg j hj, he]
        rfl
      exact (List.getElem?_inj (List.getElem?_eq_some_iff.mp h1).1 hA.distinct).mp
        (h1.trans h2.symm)
  · obtain ⟨-, -, -, flags, hm⟩ := ho.records _ (hf i hi)
    exact ⟨flags, hfv i hi ▸ hm⟩

/-- Only the new frames were written, and the new block has the bytes of the old one. -/
structure Filled (s s₁ s₂ : Phys) (r old base bytes size : Nat) (new : List PageRecord) : Prop where
  state : ∃ m, s₂ = { s₁ with mem := m }
  other : ∀ g, g ∉ new.map PageRecord.phys → s₂.mem g = s₁.mem g
  map : ∀ va < 0x800000000000, s₂.translate r va = s₁.translate r va
  bytes : ∀ i < size, s₂.byteAt r (base + i) =
    if i < bytes then s.byteAt r (old + i) else some 0

theorem Allocated.filled {c₁ : HeapClient} {t₁ : UserTask} {r : Nat}
    (h : UserOk c os₁ os₂ t shared rest ps) (h₁ : UserOk c₁ os₁ os₂ t₁ shared rest ps)
    (hA : Allocated c.phys c₁.phys t t₁ size r new) (ha : a ∈ t.allocations)
    (hold : bytes ≤ a.size) (hnew : bytes ≤ size) :
    Filled c.phys c₁.phys (c₁.phys.copyPages t.pml4 a.base r bytes) t.pml4 a.base r bytes size
      new := by
  have htm : t₁.toOwner ∈ os₁ ++ t₁.toOwner :: os₂ := List.mem_append_right _ List.mem_cons_self
  have ho₁ := h₁.memory.spaces.owner _ htm
  obtain ⟨src, dst, hc, hsrc, hdst⟩ := hA.copied h h₁ ha hold hnew
  generalize c₁.phys.copyPages t.pml4 a.base r bytes = s₂ at hc ⊢
  have hnewmem : ∀ p ∈ new, p ∈ t₁.userPages := fun p hp => by
    rw [hA.records]
    exact List.mem_append_right _ hp
  have hfit : ∀ p ∈ new, (BitVec.ofNat 64 p.phys).toNat = p.phys := fun p hp =>
    toNat_address h₁.memory.spaces.small (ho₁.records p (hnewmem p hp)).tracked
  have hother : ∀ g, g ∉ new.map PageRecord.phys → s₂.mem g = c₁.phys.mem g := fun g hg =>
    hc.other g fun i hi he => by
      obtain ⟨p, hp, hd⟩ := hdst i hi
      have hpm := List.mem_of_getElem? hp
      rw [hd, hfit p hpm] at he
      exact hg (he ▸ List.mem_map_of_mem hpm)
  have hmap : ∀ va < 0x800000000000, s₂.translate t.pml4 va = c₁.phys.translate t.pml4 va :=
    fun va hva => translate_of_mem (fun g hg => hother g fun hm => by
      obtain ⟨p, hp, rfl⟩ := List.mem_map.mp hm
      rw [← hA.root] at hg
      exact (h₁.memory.spaces.apart _ (mem_allTables htm hg)).2 _ htm
        (List.mem_map_of_mem (hnewmem p hp))) hva
  obtain ⟨hlow, hend, hal, -⟩ := hA.room
  have hlimit : r + (new.length + 1) * 4096 ≤ 0x800000000000 := Nat.le_trans hend (by decide)
  have hcount := hA.count
  have hpages := (h.layout.sized a ha).2
  refine ⟨hc.state, hother, hmap, fun i hi => ?_⟩
  -- page `i / 4096` of the new block
  have hq : i / 4096 < new.length := by omega
  obtain ⟨p, hp⟩ : ∃ p, new[i / 4096]? = some p := ⟨_, List.getElem?_eq_getElem hq⟩
  have hpm := List.mem_of_getElem? hp
  have hva : r + i < 0x800000000000 := Nat.lt_of_lt_of_le (by omega) hlimit
  have htr : s₂.translate t.pml4 (r + i) = some (BitVec.ofNat 64 p.phys, vmmFlagsUserData) := by
    rw [hmap _ hva, hA.map _ hva]
    unfold AddrMap.insert
    rw [if_pos ⟨by omega, by rw [List.length_map]; omega⟩, List.getElem?_map,
      Nat.add_sub_cancel_left,
      hp]
    rfl
  unfold byteAt
  rw [htr, Option.map_some, hfit p hpm, show (r + i) % 4096 = i % 4096 by omega]
  by_cases hn : i / 4096 < (bytes + 4095) / 4096
  · obtain ⟨p', hp', hd⟩ := hdst _ hn
    rw [hp] at hp'
    cases hp'
    have hpage := hc.page _ hn
    rw [hd, hfit p hpm] at hpage
    obtain ⟨flags, hs⟩ := hsrc _ hn
    rw [hpage, WordBytes.get_copy, hA.zero p hpm, WordBytes.get_zero]
    have hlen : i % 4096 < copyLen bytes (i / 4096) ↔ i < bytes := by
      unfold copyLen
      split
      · omega
      · omega
    simp only [hlen]
    split
    · have hsame : (a.base + i) / 4096 = (a.base + i / 4096 * 4096) / 4096 := by
        have := h.layout.aligned.allocations a ha
        omega
      have hlt : a.base + i / 4096 * 4096 < 0x800000000000 := by
        have := (h.layout.userRange ha).top
        omega
      rw [translate_page hsame, hs, Option.map_some, hA.contents _ hlt _ _ hs]
      have := h.layout.aligned.allocations a ha
      rw [show (a.base + i) % 4096 = i % 4096 by omega]
    · rfl
  · have hno : ∀ j < (bytes + 4095) / 4096, p.phys ≠ (dst j).toNat := fun j hj he => by
      obtain ⟨p', hp', hd⟩ := hdst j hj
      rw [hd, hfit p' (List.mem_of_getElem? hp')] at he
      have h1 : (new.map PageRecord.phys)[i / 4096]? = some p.phys := by
        rw [List.getElem?_map, hp]
        rfl
      have h2 : (new.map PageRecord.phys)[j]? = some p.phys := by
        rw [List.getElem?_map, hp', he]
        rfl
      have := (List.getElem?_inj (List.getElem?_eq_some_iff.mp h1).1 hA.distinct).mp
        (h1.trans h2.symm)
      omega
    rw [if_neg (by omega), hc.other _ hno, hA.zero p hpm, WordBytes.get_zero]
    rfl

/-! ## `user_realloc` -/

/-- The block `a` moved to `base`. -/
structure Moved (s s' : Phys) (t t' : UserTask) (a : UserAllocation) (size base : Nat) : Prop where
  allocations : ∃ k pages, t.allocations[k]? = some a ∧
    t'.allocations = ⟨base, size, pages⟩ :: t.allocations.eraseIdx k
  /-- The old bytes, as far as they fit, and zeros behind them. -/
  bytes : ∀ i < size, s'.byteAt t.pml4 (base + i) =
    if i < a.size then s.byteAt t.pml4 (a.base + i) else some 0
  /-- Each old byte was there. -/
  backed : ∀ i < a.size, s.byteAt t.pml4 (a.base + i) ≠ none
  records : FreshRecords s t.toOwner t'.toOwner
  root : t'.pml4 = t.pml4
  /-- The other mappings. -/
  elsewhere : ∀ va < 0x800000000000, ¬ InRange base ((size + 4095) / 4096) va →
    ¬ InRange a.base a.pages.toNat va → s'.translate t.pml4 va = s.translate t.pml4 va
  contents : ∀ va < 0x800000000000, ∀ p flags, s.translate t.pml4 va = some (p, flags) →
    s'.mem p.toNat = s.mem p.toNat

theorem UserOk.backed (h : UserOk c os₁ os₂ t shared rest ps) (ha : a ∈ t.allocations) {i : Nat}
    (hi : i < a.size) : c.phys.byteAt t.pml4 (a.base + i) ≠ none := by
  have hpages := (h.layout.sized a ha).2
  have hal := h.layout.aligned.allocations a ha
  obtain ⟨p, -, flags, hm⟩ := h.page ha (i := i / 4096) (by omega)
  unfold byteAt
  rw [translate_page (show (a.base + i) / 4096 = (a.base + i / 4096 * 4096) / 4096 by omega), hm]
  exact Option.some_ne_none _

/-- The new frames are behind no page that was mapped before, of any owner. -/
theorem Allocated.not_leaf {r : Nat} (h : UserOk c os₁ os₂ t shared rest ps)
    (hA : Allocated c.phys s' t t' size r new) {u : Owner} (hu : u ∈ os₁ ++ t.toOwner :: os₂)
    (hva : va < 0x800000000000) {p flags : Word}
    (hp : c.phys.translate u.pml4 va = some (p, flags)) : p.toNat ∉ new.map PageRecord.phys := by
  intro hm
  obtain ⟨q, hq, he⟩ := List.mem_map.mp hm
  exact (h.memory.spaces.leaf_frame hu hva hp).1 (he ▸ hA.fresh q hq)

/-- What stays mapped reads the same after `user_free`. -/
theorem Freed.byteAt (h : Freed s s' t t' k a gone) (hva : va < 0x800000000000)
    (hr : ¬ InRange a.base a.pages.toNat va) : s'.byteAt t.pml4 va = s.byteAt t.pml4 va := by
  have hm : s'.translate t.pml4 va = s.translate t.pml4 va := (h.map va hva).trans (if_neg hr)
  unfold Phys.byteAt
  rw [hm]
  cases hp : s.translate t.pml4 va with
  | none => rfl
  | some p => rw [Option.map_some, Option.map_some, h.contents va hva _ _ hp]

theorem Allocated.moved {c₁ : HeapClient} {t₁ : UserTask} {s₂ : Phys} {r : Nat}
    (h : UserOk c os₁ os₂ t shared rest ps) (h₁ : UserOk c₁ os₁ os₂ t₁ shared rest ps)
    (hA : Allocated c.phys c₁.phys t t₁ size r new) (ha : a ∈ t.allocations) (hne : size ≠ a.size)
    (hF : Filled c.phys c₁.phys s₂ t.pml4 a.base r bytes size new)
    (hG : Freed s₂ s' t₁ t' k a gone) (hb : ∀ i < size, i < bytes ↔ i < a.size) :
    Moved c.phys s' t t' a size r := by
  obtain ⟨hlow, hend, hal, -⟩ := hA.room
  have hlimit : r + (new.length + 1) * 4096 ≤ 0x800000000000 := Nat.le_trans hend (by decide)
  have hcount := hA.count
  have hroot := hA.root
  have hmem : ⟨r, size, .ofNat new.length⟩ ∈ t₁.allocations := by
    rw [hA.allocations]
    exact List.mem_cons_self
  have ha₁ : a ∈ t₁.allocations := by
    rw [hA.allocations]
    exact List.mem_cons_of_mem _ ha
  have hother : (⟨r, size, .ofNat new.length⟩ : UserAllocation) ≠ a := fun he =>
    hne (congrArg UserAllocation.size he)
  have hclear := h₁.layout.apart hmem ha₁ hother
  have hpages := (h₁.layout.sized _ hmem).2
  refine ⟨?_, fun i hi => ?_, fun i hi => h.backed ha hi, fun x hx => ?_, hG.root.trans hroot,
    fun va hva h1 h2 => ?_, fun va hva p flags hp => ?_⟩
  · have hfound := hG.found
    have halloc := hG.allocations
    rw [hA.allocations] at hfound halloc
    cases k with
    | zero => exact absurd (Option.some.inj hfound) hother
    | succ k => exact ⟨k, _, hfound, halloc⟩
  · have hva : r + i < 0x800000000000 := Nat.lt_of_lt_of_le (by omega) hlimit
    have hout : ¬ InRange a.base a.pages.toNat (r + i) := by
      unfold Clear Apart guardEnd at hclear
      unfold InRange
      simp only at hclear hpages
      omega
    have hread := hG.byteAt hva hout
    rw [hroot] at hread
    rw [hread, hF.bytes i hi]
    simp only [hb i hi]
  · rcases mem_recordsOf.mp hx with ⟨b, hbm, rfl⟩ | ⟨b, hbm, hid, rfl⟩
    · rw [hG.allocations] at hbm
      have hbm := List.mem_of_mem_eraseIdx hbm
      rw [hA.allocations] at hbm
      rcases List.mem_cons.mp hbm with rfl | hbm
      · refine .inr ?_
        have hspan : (UInt32.ofNat new.length).toNat = new.length := hpages.trans hcount.symm
        simp only [hspan]
        exact hA.room.2.2.2
      · exact .inl (mem_recordsOf.mpr (.inl ⟨b, hbm, rfl⟩))
    · rw [hG.attached, hA.attached] at hbm
      exact .inl (mem_recordsOf.mpr (.inr ⟨b, hbm, hid, rfl⟩))
  · have hm := hG.map va hva
    rw [hroot] at hm
    rw [hm]
    refine (if_neg h2).trans ?_
    rw [hF.map va hva, hA.map va hva]
    refine if_neg ?_
    rw [List.length_map, hcount]
    exact h1
  · have hp₂ : s₂.translate t₁.pml4 va = some (p, flags) := by
      rw [hroot, hF.map va hva, hA.map va hva]
      refine (if_neg fun hr => ?_).trans hp
      rw [List.length_map] at hr
      have := hA.room.2.2.2.unmapped va hr.1 (by omega)
      rw [this] at hp
      cases hp
    rw [hG.contents va hva p flags hp₂, hF.other _ fun hgn => ?_]
    · exact hA.contents va hva p flags hp
    · exact hA.not_leaf h (List.mem_append_right _ List.mem_cons_self) hva hp hgn

end GenOS
