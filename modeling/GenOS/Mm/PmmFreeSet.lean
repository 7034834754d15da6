import Mathlib.Data.Set.Card
import GenOS.Mm.PmmInit

/-!
# The free set that `pmm_init` builds

`InitOk entries s` says what the state after `pmm_init` has to be, in terms of the bytes of the
memory map and of the storage of the bitmap and the counts. It holds exactly when the frame count
is not wrapped (`NoWrap`), or there is no page to mark.
-/

namespace GenOS

/-- Frame `i` lies inside the usable entry `e`. -/
def MemmapEntry.HoldsFrame (e : MemmapEntry) (i : Nat) : Prop :=
  e.type.toNat = limineMemmapUsable ∧ e.base.toNat ≤ i * 4096 ∧
    i * 4096 + 4096 ≤ e.base.toNat + e.length.toNat

/-- The usable entry `e` has room for `pages` whole frames, frame 0 not among them. -/
def MemmapEntry.CanHold (e : MemmapEntry) (pages : Nat) : Prop :=
  e.type.toNat = limineMemmapUsable ∧ ∃ p ≠ 0, e.base.toNat ≤ p * 4096 ∧
    (p + pages) * 4096 ≤ e.base.toNat + e.length.toNat

namespace Pmm

/-- `bitmap_size`. -/
def bitmapBytes (entries : List MemmapEntry) : Nat := (mapPages entries + 7) / 8

/-- `refs_offset`. -/
def refsOffset (entries : List MemmapEntry) : Nat := (bitmapBytes entries + 3) / 4 * 4

/-- `metadata_bytes`. -/
def metadataBytes (entries : List MemmapEntry) : Nat := refsOffset entries + mapPages entries * 4

/-- `metadata_phys`. -/
def storagePhys (entries : List MemmapEntry) : Nat := metadataPhys (metadataPages entries) entries

/-- Frame `i` has a byte of the pages of the bitmap and the counts. -/
def InStorage (entries : List MemmapEntry) (i : Nat) : Prop :=
  storagePhys entries < i * 4096 + 4096 ∧
    i * 4096 < storagePhys entries + metadataPages entries * 4096

/-- The frames that the two marking loops visit. -/
def markedPages (entries : List MemmapEntry) : List Nat :=
  entries.flatMap usablePages ++
    List.range' (storagePhys entries / 4096) (metadataPages entries)

/-- The state after `pmm_init`, for the memory map `entries`. -/
structure InitOk (entries : List MemmapEntry) (s : Pmm) : Prop where
  free : ∀ i, s.Free i ↔ i ≠ 0 ∧ (∃ e ∈ entries, e.HoldsFrame i) ∧ ¬ InStorage entries i
  inside : ∃ e ∈ entries, e.type.toNat = limineMemmapUsable ∧ e.base.toNat ≤ storagePhys entries ∧
    storagePhys entries + metadataPages entries * 4096 ≤ e.base.toNat + e.length.toNat
  room : metadataBytes entries ≤ metadataPages entries * 4096
  covers : ∀ i ∈ markedPages entries, i / 8 < bitmapBytes entries ∧
    bitmapBytes entries ≤ refsOffset entries ∧
      refsOffset entries + (i + 1) * 4 ≤ metadataBytes entries
  counter : s.freePages = {i | s.Free i}.ncard

variable {entries : List MemmapEntry} {e : MemmapEntry} {s s₀ : Pmm} {i pages : Nat}

/-! ## Entries -/

theorem le_highestAddress (he : e ∈ entries) (hu : e.type.toNat = limineMemmapUsable)
    (hs : e.base.toNat + e.length.toNat < 2 ^ 64) :
    e.base.toNat + e.length.toNat ≤ highestAddress entries := by
  have h := top_le_highestAddress he hu
  rwa [MemmapEntry.top, Nat.mod_eq_of_lt hs] at h

/-- Rounding the base of an entry up does not wrap. -/
theorem firstPage_eq (hb : e.base.toNat + 4095 < 2 ^ 64) :
    firstPage e = max 1 ((e.base.toNat + 4095) / 4096) := by
  unfold firstPage pagesFor
  rw [Nat.mod_eq_of_lt (by omega)]
  dsimp only
  split <;> omega

theorem mem_usablePages_iff (hs : e.base.toNat + e.length.toNat < 2 ^ 64)
    (hb : e.base.toNat + 4095 < 2 ^ 64) : i ∈ usablePages e ↔ i ≠ 0 ∧ e.HoldsFrame i := by
  unfold usablePages MemmapEntry.HoldsFrame
  by_cases hu : e.type.toNat = limineMemmapUsable
  · rw [if_neg (not_not.mpr hu), List.mem_range'_1, firstPage_eq hb, MemmapEntry.top,
      Nat.mod_eq_of_lt hs, and_iff_right hu]
    omega
  · rw [if_pos hu]
    simp [hu]

/-- A frame inside an entry is one that the marking loop visits. -/
theorem MemmapEntry.HoldsFrame.usable (hs : e.base.toNat + e.length.toNat < 2 ^ 64) (h0 : i ≠ 0)
    (h : e.HoldsFrame i) : i ∈ usablePages e :=
  (mem_usablePages_iff hs (by have := h.2.1; have := h.2.2; omega)).mpr ⟨h0, h⟩

/-- The entry whose first pages the storage is. -/
theorem metadataPhys_entry (h : metadataPhys pages entries ≠ 0) : ∃ e ∈ entries,
    e.type.toNat = limineMemmapUsable ∧ metadataPhys pages entries = firstPage e * 4096 ∧
      firstPage e + pages ≤ e.top / 4096 := by
  induction entries with
  | nil => exact absurd rfl h
  | cons e es ih =>
    have hskip : metadataPhys pages (e :: es) = metadataPhys pages es → ∃ e' ∈ e :: es,
        e'.type.toNat = limineMemmapUsable ∧ metadataPhys pages (e :: es) = firstPage e' * 4096 ∧
          firstPage e' + pages ≤ e'.top / 4096 := fun heq => by
      rw [heq] at h ⊢
      obtain ⟨e', he', h'⟩ := ih h
      exact ⟨e', List.mem_cons_of_mem _ he', h'⟩
    simp only [metadataPhys] at hskip ⊢
    by_cases hu : e.type.toNat = limineMemmapUsable
    · rw [if_neg (not_not.mpr hu)] at hskip ⊢
      by_cases hfit : firstPage e * 4096 ≤ e.top / 4096 * 4096 ∧
          pages * 4096 ≤ e.top / 4096 * 4096 - firstPage e * 4096
      · rw [if_pos hfit]
        exact ⟨e, List.mem_cons_self, hu, rfl, by omega⟩
      · rw [if_neg hfit] at hskip ⊢
        exact hskip rfl
    · rw [if_pos hu] at hskip ⊢
      exact hskip rfl

/-- An entry with room for the storage is enough. -/
theorem metadataPhys_ne_zero (he : e ∈ entries) (hs : e.base.toNat + e.length.toNat < 2 ^ 64)
    (h : e.CanHold pages) : metadataPhys pages entries ≠ 0 := by
  obtain ⟨hu, p, h0, hp, hend⟩ := h
  induction entries with
  | nil => cases he
  | cons a es ih =>
    rw [metadataPhys]
    dsimp only
    have hfirst := firstPage_ne_zero a
    rcases List.mem_cons.mp he with rfl | he
    · rw [if_neg (not_not.mpr hu), if_pos]
      · omega
      · rw [firstPage_eq (by omega), MemmapEntry.top, Nat.mod_eq_of_lt hs]
        omega
    · split
      · exact ih he
      · split
        · omega
        · exact ih he

/-- Then the initialisation does not halt. -/
theorem exists_pmmInit (s₀ : Pmm) (h : metadataPhys (metadataPages entries) entries ≠ 0) :
    ∃ s, pmmInit s₀ (some entries) = some s := by
  simp only [pmmInit, if_neg h]
  exact ⟨_, rfl⟩

/-! ## Without a wrap -/

theorem inStorage_iff (h : storagePhys entries % 4096 = 0) : InStorage entries i ↔
    storagePhys entries / 4096 ≤ i ∧ i < storagePhys entries / 4096 + metadataPages entries := by
  unfold InStorage
  omega

theorem mapPages_le (entries : List MemmapEntry) : mapPages entries < 2 ^ 52 := by
  unfold mapPages pagesFor
  omega

theorem metadataPages_room (entries : List MemmapEntry) :
    metadataBytes entries ≤ metadataPages entries * 4096 := by
  have h := mapPages_le entries
  have hp : metadataPages entries = pagesFor (metadataBytes entries) := rfl
  rw [hp]
  unfold pagesFor metadataBytes refsOffset bitmapBytes
  rw [Nat.mod_eq_of_lt (by omega)]
  omega

/-- The bit and the count of a frame below the frame count are in the storage. -/
theorem covers_of_lt (h : i < mapPages entries) : i / 8 < bitmapBytes entries ∧
    bitmapBytes entries ≤ refsOffset entries ∧
      refsOffset entries + (i + 1) * 4 ≤ metadataBytes entries := by
  unfold metadataBytes refsOffset bitmapBytes
  omega

/-- The free counter counts the free frames. -/
theorem Inv.freePages_eq (h : s.Inv) : s.freePages = {i | s.Free i}.ncard := by
  have hset : {i | s.Free i} = (s.clearBits : Set Nat) := Set.ext fun i => mem_clearBits.symm
  rw [hset, Set.ncard_coe_finset, h.counter]

theorem pmmInit_ok (hs : ∀ e ∈ entries, e.base.toNat + e.length.toNat < 2 ^ 64)
    (hw : NoWrap entries) (h : pmmInit s₀ (some entries) = some s) : InitOk entries s := by
  obtain ⟨hinv, -, htotal, hfree⟩ := pmmInit_spec h hw
  have hphys : storagePhys entries ≠ 0 := fun h0 => by
    simp only [pmmInit] at h
    rw [show metadataPhys (metadataPages entries) entries = 0 from h0, if_pos rfl] at h
    cases h
  obtain ⟨e, he, hu, heq, hend⟩ := metadataPhys_entry hphys
  have heq : storagePhys entries = firstPage e * 4096 := heq
  have hbase : ∀ e ∈ entries, e.type.toNat = limineMemmapUsable → e.base.toNat + 4095 < 2 ^ 64 :=
    fun e he hu => by
      have := le_highestAddress he hu (hs e he)
      unfold NoWrap at hw
      omega
  have hmem : ∀ i, i ∈ entries.flatMap usablePages ↔ i ≠ 0 ∧ ∃ e ∈ entries, e.HoldsFrame i := by
    intro i
    rw [List.mem_flatMap]
    constructor
    · rintro ⟨e, he, hi⟩
      have hu := (mem_usablePages hi).1
      obtain ⟨h0, hf⟩ := (mem_usablePages_iff (hs e he) (hbase e he hu)).mp hi
      exact ⟨h0, e, he, hf⟩
    · rintro ⟨h0, e, he, hf⟩
      exact ⟨e, he, MemmapEntry.HoldsFrame.usable (hs e he) h0 hf⟩
  refine ⟨fun i => ?_, ⟨e, he, hu, ?_, ?_⟩, metadataPages_room entries, fun i hi => ?_,
    hinv.freePages_eq⟩
  · rw [hfree, hmem, and_assoc, inStorage_iff (by omega)]
    exact Iff.rfl
  · rw [heq, firstPage_eq (hbase e he hu)]
    omega
  · rw [MemmapEntry.top, Nat.mod_eq_of_lt (hs e he)] at hend
    omega
  · refine covers_of_lt ?_
    rcases List.mem_append.mp hi with hi | hi
    · exact (usable_lt_totalPages hw hi).2
    · rw [List.mem_range'_1] at hi
      obtain ⟨e', he', hp⟩ := metadata_usable hphys hi.1 hi.2
      exact (usable_lt_totalPages hw (List.mem_flatMap.mpr ⟨e', he', hp⟩)).2

/-! ## With a wrap -/

theorem highestAddress_lt (entries : List MemmapEntry) : highestAddress entries < 2 ^ 64 := by
  suffices ∀ highest < 2 ^ 64, entries.foldl raiseHighest highest < 2 ^ 64 from this 0 (by decide)
  induction entries with
  | nil => exact fun _ h => h
  | cons e es ih =>
    refine fun highest h => ih _ ?_
    have htop : e.top < 2 ^ 64 := Nat.mod_lt _ (by decide)
    simp only [raiseHighest]
    split
    · split
      · exact htop
      · exact h
    · exact h

/-- A wrapped frame count is 0. -/
theorem mapPages_of_wrap (hw : ¬ NoWrap entries) : mapPages entries = 0 := by
  have := highestAddress_lt entries
  unfold NoWrap at hw
  unfold mapPages pagesFor
  omega

theorem metadataPages_of_wrap (hw : ¬ NoWrap entries) :
    metadataPages entries = 0 := by
  have hp : metadataPages entries = pagesFor (metadataBytes entries) := rfl
  rw [hp, metadataBytes, refsOffset, bitmapBytes, mapPages_of_wrap hw]
  rfl

theorem initOk_of_wrap (hs : ∀ e ∈ entries, e.base.toNat + e.length.toNat < 2 ^ 64)
    (hw : ¬ NoWrap entries) (h : pmmInit s₀ (some entries) = some s) :
    InitOk entries s ↔ entries.flatMap usablePages = [] := by
  have hmap := mapPages_of_wrap hw
  have hpages := metadataPages_of_wrap hw
  constructor
  · intro hok
    refine List.eq_nil_iff_forall_not_mem.mpr fun i hi => ?_
    have hc := (hok.covers i (List.mem_append_left _ hi)).1
    rw [bitmapBytes, hmap] at hc
    omega
  · intro hnil
    simp only [pmmInit] at h
    split at h
    · cases h
    next hphys =>
    rw [hnil, hpages] at h
    obtain rfl := Option.some.inj h
    obtain ⟨e, he, hu, heq, hend⟩ := metadataPhys_entry hphys
    have hnone : ∀ e ∈ entries, usablePages e = [] := List.flatMap_eq_nil_iff.mp hnil
    -- the entry has no whole page, so its base is no further up than its end
    have hfirst : e.top / 4096 ≤ firstPage e := by
      have hl := hnone e he
      unfold usablePages at hl
      rw [if_neg (not_not.mpr hu)] at hl
      have := congrArg List.length hl
      rw [List.length_range', List.length_nil] at this
      omega
    have htop := hs e he
    rw [MemmapEntry.top, Nat.mod_eq_of_lt htop] at hend hfirst
    have hbase : e.base.toNat + 4095 < 2 ^ 64 := by
      by_contra hc
      have hone : firstPage e = 1 := by
        unfold firstPage pagesFor
        rw [if_pos (by omega)]
      omega
    have heq : storagePhys entries = firstPage e * 4096 := heq
    rw [firstPage_eq hbase] at heq hend
    refine ⟨fun i => iff_of_false (reserveAll_not_free s₀ (mapPages entries) i) ?_,
      ⟨e, he, hu, by omega, by omega⟩, metadataPages_room entries, fun i hi => ?_, ?_⟩
    · rintro ⟨h0, ⟨e, he, hi⟩, -⟩
      have hm := MemmapEntry.HoldsFrame.usable (hs e he) h0 hi
      rw [hnone e he] at hm
      cases hm
    · rw [markedPages, hnil, hpages] at hi
      cases hi
    · exact (reserveAll_inv s₀ (mapPages entries)).freePages_eq

/-! ## The free set -/

/-- **`pmm_init` builds the right free set** for every memory map with room for the storage, exactly
when rounding the highest address up does not wrap, or there is nothing to mark. -/
theorem pmm_init_free_set (s₀ : Pmm) (entries : List MemmapEntry)
    (hs : ∀ e ∈ entries, e.base.toNat + e.length.toNat < 2 ^ 64)
    (hfit : ∃ e ∈ entries, e.CanHold (metadataPages entries)) :
    ∃ s, pmmInit s₀ (some entries) = some s ∧
      (InitOk entries s ↔ NoWrap entries ∨ entries.flatMap usablePages = []) := by
  obtain ⟨e, he, hc⟩ := hfit
  obtain ⟨s, h⟩ := exists_pmmInit s₀ (metadataPhys_ne_zero he (hs e he) hc)
  refine ⟨s, h, ?_⟩
  by_cases hw : NoWrap entries
  · exact iff_of_true (pmmInit_ok hs hw h) (.inl hw)
  · rw [initOk_of_wrap hs hw h]
    exact (or_iff_right hw).symm

/-- A map of 16 pages. -/
theorem pmm_init_free_set_small :
    ∃ s, pmmInit (boot (fun _ => 0) fun _ => 0) (some [⟨0, 0x10000, 0⟩]) = some s ∧
      (InitOk [⟨0, 0x10000, 0⟩] s ↔ NoWrap [⟨0, 0x10000, 0⟩] ∨
        ([⟨0, 0x10000, 0⟩] : List MemmapEntry).flatMap usablePages = []) :=
  pmm_init_free_set _ _ (by decide)
    ⟨_, List.mem_singleton_self _, by decide, 1, by decide, by decide, by decide⟩

/-- One usable entry that ends one byte below the top of the address space. -/
def wrapMap : List MemmapEntry := [⟨0x1000, 0xFFFFFFFFFFFFEFFF, 0⟩]

/-- No frame has storage, and the marking loop runs over all of them. -/
theorem pmm_init_free_set_wraps :
    (∀ e ∈ wrapMap, e.base.toNat + e.length.toNat < 2 ^ 64) ∧
    (∃ e ∈ wrapMap, e.CanHold (metadataPages wrapMap)) ∧
    ∀ s₀, ∃ s, pmmInit s₀ (some wrapMap) = some s ∧ ¬ InitOk wrapMap s := by
  refine ⟨by decide, ⟨_, List.mem_singleton_self _, by decide, 1, by decide, by decide, by decide⟩,
    fun s₀ => ?_⟩
  obtain ⟨s, h⟩ := exists_pmmInit s₀
    (show metadataPhys (metadataPages wrapMap) wrapMap ≠ 0 by decide)
  refine ⟨s, h, fun hok => ?_⟩
  have hmem : 1 ∈ markedPages wrapMap := by
    refine List.mem_append_left _ (List.mem_flatMap.mpr ⟨_, List.mem_singleton_self _, ?_⟩)
    rw [mem_usablePages_iff (by decide) (by decide)]
    exact ⟨by decide, by decide, by decide, by decide⟩
  exact absurd (hok.covers 1 hmem).1 (by decide)

end Pmm

end GenOS
