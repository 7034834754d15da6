import GenOS.Mm.PmmInv

/-!
# The state `pmm_init` builds

`NoWrap entries` says rounding the highest address up to a page does not wrap in 64 bits; the
frame count is then the real one and every page the usable entries contain is below it. Under
it `pmm_init` establishes `Pmm.Inv`, and its free frames are the pages of the usable entries
outside the metadata (`pmmInit_free`).
-/

namespace GenOS.Pmm

/-- Rounding the highest RAM address up to a page stays below `2 ^ 64`. -/
def NoWrap (entries : List MemmapEntry) : Prop := highestAddress entries + 4095 < 2 ^ 64

instance (entries : List MemmapEntry) : Decidable (NoWrap entries) :=
  inferInstanceAs (Decidable (_ < _))

/-! ## The highest address -/

theorem le_raiseHighest (highest : Nat) (e : MemmapEntry) : highest ≤ raiseHighest highest e := by
  simp only [raiseHighest]
  split
  · split <;> omega
  · exact Nat.le_refl _

theorem le_foldl_raiseHighest (entries : List MemmapEntry) (highest : Nat) :
    highest ≤ entries.foldl raiseHighest highest := by
  induction entries generalizing highest with
  | nil => exact Nat.le_refl _
  | cons e es ih => exact Nat.le_trans (le_raiseHighest highest e) (ih _)

theorem top_le_highestAddress {entries : List MemmapEntry} {e : MemmapEntry} (he : e ∈ entries)
    (hu : e.type.toNat = limineMemmapUsable) : e.top ≤ highestAddress entries := by
  suffices ∀ highest, e.top ≤ entries.foldl raiseHighest highest from this 0
  induction entries with
  | nil => cases he
  | cons a es ih =>
    intro highest
    rcases List.mem_cons.mp he with rfl | he
    · refine Nat.le_trans ?_ (le_foldl_raiseHighest es _)
      have hty : e.type.toNat % 2 ^ 32 = limineMemmapUsable := by
        rw [hu]; rfl
      simp only [raiseHighest, hty, true_or, ↓reduceIte]
      split <;> omega
    · exact ih he _

/-! ## Usable pages -/

theorem firstPage_ne_zero (e : MemmapEntry) : firstPage e ≠ 0 := by
  simp only [firstPage]
  split <;> omega

theorem mem_usablePages {e : MemmapEntry} {page : Nat} (h : page ∈ usablePages e) :
    e.type.toNat = limineMemmapUsable ∧ page ≠ 0 ∧ page < e.top / 4096 := by
  unfold usablePages at h
  split at h
  · cases h
  · rename_i hu
    have h1 := List.mem_range'_1.mp h
    have h2 := firstPage_ne_zero e
    exact ⟨not_not.mp hu, by omega, by omega⟩

theorem usable_lt_totalPages {entries : List MemmapEntry} (hw : NoWrap entries) {page : Nat}
    (h : page ∈ entries.flatMap usablePages) :
    page ≠ 0 ∧ page < mapPages entries := by
  obtain ⟨e, he, hp⟩ := List.mem_flatMap.mp h
  obtain ⟨hu, h0, hlt⟩ := mem_usablePages hp
  have htop := top_le_highestAddress he hu
  unfold NoWrap at hw
  refine ⟨h0, ?_⟩
  rw [mapPages, pagesFor, Nat.mod_eq_of_lt (by omega)]
  omega

/-- The metadata lies inside the pages of one usable entry. -/
theorem metadata_usable {entries : List MemmapEntry} {pages page : Nat}
    (h : metadataPhys pages entries ≠ 0) (h1 : metadataPhys pages entries / 4096 ≤ page)
    (h2 : page < metadataPhys pages entries / 4096 + pages) :
    ∃ e ∈ entries, page ∈ usablePages e := by
  induction entries with
  | nil => exact absurd rfl h
  | cons e es ih =>
    simp only [metadataPhys] at h h1 h2
    by_cases hu : e.type.toNat ≠ limineMemmapUsable
    · simp only [hu, ne_eq, not_false_eq_true, ↓reduceIte] at h h1 h2
      obtain ⟨e', he', hp⟩ := ih h h1 h2
      exact ⟨e', List.mem_cons_of_mem _ he', hp⟩
    · rw [if_neg hu] at h h1 h2
      split at h
      · rename_i hfit
        rw [if_pos hfit] at h1 h2
        refine ⟨e, List.mem_cons_self, ?_⟩
        rw [usablePages, if_neg hu]
        exact List.mem_range'_1.mpr ⟨by omega, by omega⟩
      · rename_i hfit
        rw [if_neg hfit] at h1 h2
        obtain ⟨e', he', hp⟩ := ih h h1 h2
        exact ⟨e', List.mem_cons_of_mem _ he', hp⟩

/-! ## The marking loops -/

/-- A frame the initialisation may still be free to mark: no owner, or reserved so far. -/
def Unowned (s : Pmm) : Prop := ∀ i < s.totalPages, s.refcounts i = 0 ∨ s.Reserved i

theorem markUsable_spec {s : Pmm} {page : Nat} (h : s.Inv) (hu : s.Unowned) (h0 : page ≠ 0)
    (hlt : page < s.totalPages) :
    (s.markUsable page).Inv ∧ (s.markUsable page).Unowned ∧
    (s.markUsable page).totalPages = s.totalPages ∧
    ∀ i, (s.markUsable page).Free i ↔ i = page ∨ s.Free i := by
  have htotal : (s.markUsable page).totalPages = s.totalPages := by
    unfold markUsable; split <;> rfl
  have hrefs : (s.markUsable page).refcounts = Cells.set s.refcounts page 0 := by
    unfold markUsable; split <;> rfl
  have htest : ∀ i, (s.markUsable page).bitmapTest i = (decide (i ≠ page) && s.bitmapTest i) := by
    intro i
    rw [← bitmapTest_clear]
    unfold markUsable; split <;> rfl
  have hfree : ∀ i, (s.markUsable page).Free i ↔ i = page ∨ s.Free i := by
    intro i
    simp only [Free, htotal, htest, Bool.and_eq_false_iff, decide_eq_false_iff_not, not_not]
    constructor
    · rintro ⟨hi, rfl | hf⟩
      · exact .inl rfl
      · exact .inr ⟨hi, hf⟩
    · rintro (rfl | ⟨hi, hf⟩)
      · exact ⟨hlt, .inl rfl⟩
      · exact ⟨hi, .inr hf⟩
  refine ⟨⟨fun i hi => ?_, ?_, fun hpos => ?_, fun i hi => ?_⟩, fun i hi => ?_, htotal, hfree⟩
  · rw [htest, hrefs]
    by_cases hx : i = page
    · simp [hx]
    · simpa [hx] using h.clear_iff i (htotal ▸ hi)
  · have hset : (s.markUsable page).clearBits = insert page s.clearBits := by
      ext i
      rw [Finset.mem_insert, mem_clearBits, mem_clearBits, hfree]
    have hcount : (s.markUsable page).freePages =
        if s.bitmapTest page then s.freePages + 1 else s.freePages := by
      unfold markUsable; split <;> rfl
    rw [hset, hcount, h.counter]
    cases ht : s.bitmapTest page with
    | true =>
      have : page ∉ s.clearBits := fun hm => by
        have := (mem_clearBits.mp hm).2
        rw [ht] at this
        cases this
      rw [Finset.card_insert_of_notMem this]
      rfl
    | false =>
      rw [Finset.insert_eq_of_mem (mem_clearBits.mpr ⟨hlt, ht⟩)]
      rfl
  · show (s.markUsable page).refcounts 0 = uint32Max
    rw [hrefs, Cells.set_of_ne h0.symm]
    exact h.zero (htotal ▸ hpos)
  · rw [hrefs]
    by_cases hx : i = page
    · rw [hx, Cells.set_self]
      exact Nat.zero_le _
    · rw [Cells.set_of_ne hx]
      exact h.bound i (htotal ▸ hi)
  · unfold Reserved
    rw [hrefs]
    by_cases hx : i = page
    · exact .inl (by rw [hx, Cells.set_self])
    · rw [Cells.set_of_ne hx]
      exact hu i (htotal ▸ hi)

theorem foldl_markUsable (pages : List Nat) :
    ∀ {s : Pmm}, s.Inv → s.Unowned → (∀ p ∈ pages, p ≠ 0 ∧ p < s.totalPages) →
      (pages.foldl markUsable s).Inv ∧ (pages.foldl markUsable s).Unowned ∧
      (pages.foldl markUsable s).totalPages = s.totalPages ∧
      ∀ i, (pages.foldl markUsable s).Free i ↔ i ∈ pages ∨ s.Free i := by
  induction pages with
  | nil => exact fun h hu _ => ⟨h, hu, rfl, fun i => by simp⟩
  | cons p ps ih =>
    intro s h hu hp
    obtain ⟨h1, h2, h3, h4⟩ := markUsable_spec h hu (hp p List.mem_cons_self).1
      (hp p List.mem_cons_self).2
    obtain ⟨g1, g2, g3, g4⟩ := ih h1 h2 fun q hq => by
      rw [h3]
      exact hp q (List.mem_cons_of_mem _ hq)
    refine ⟨g1, g2, g3.trans h3, fun i => ?_⟩
    rw [List.foldl_cons, g4, h4, List.mem_cons]
    tauto

theorem markMetadata_spec {s : Pmm} {page : Nat} (h : s.Inv) (hu : s.Unowned)
    (hf : s.Free page) :
    (s.markMetadata page).Inv ∧ (s.markMetadata page).Unowned ∧
    (s.markMetadata page).totalPages = s.totalPages ∧
    ∀ i, (s.markMetadata page).Free i ↔ i ≠ page ∧ s.Free i := by
  have hrefs : (s.markMetadata page).refcounts = Cells.set s.refcounts page uint32Max := rfl
  have htest : ∀ i, (s.markMetadata page).bitmapTest i = (decide (i = page) || s.bitmapTest i) :=
    fun i => bitmapTest_set s page i
  have hfree : ∀ i, (s.markMetadata page).Free i ↔ i ≠ page ∧ s.Free i := by
    intro i
    show i < s.totalPages ∧ (s.markMetadata page).bitmapTest i = false ↔ _
    rw [htest, Bool.or_eq_false_iff, decide_eq_false_iff_not]
    unfold Free
    tauto
  refine ⟨⟨fun i hi => ?_, ?_, fun hpos => ?_, fun i hi => ?_⟩, fun i hi => ?_, rfl, hfree⟩
  · rw [htest, hrefs]
    by_cases hx : i = page
    · simp [hx]
    · simpa [hx] using h.clear_iff i hi
  · have hset : (s.markMetadata page).clearBits = s.clearBits.erase page := by
      ext i
      rw [Finset.mem_erase, mem_clearBits, mem_clearBits, hfree]
    show s.freePages - 1 = _
    rw [hset, Finset.card_erase_of_mem (mem_clearBits.mpr hf), h.counter]
  · show (s.markMetadata page).refcounts 0 = uint32Max
    rw [hrefs, Cells.set_of_ne (h.free_ne_zero hf).symm]
    exact h.zero hpos
  · rw [hrefs]
    by_cases hx : i = page
    · rw [hx, Cells.set_self]
    · rw [Cells.set_of_ne hx]
      exact h.bound i hi
  · unfold Reserved
    rw [hrefs]
    by_cases hx : i = page
    · exact .inr (by rw [hx, Cells.set_self])
    · rw [Cells.set_of_ne hx]
      exact hu i hi

theorem foldl_markMetadata (count : Nat) :
    ∀ {s : Pmm} (first : Nat), s.Inv → s.Unowned → s.FreeRun first count →
      ((List.range' first count).foldl markMetadata s).Inv ∧
      ((List.range' first count).foldl markMetadata s).Unowned ∧
      ((List.range' first count).foldl markMetadata s).totalPages = s.totalPages ∧
      ∀ i, ((List.range' first count).foldl markMetadata s).Free i ↔
        ¬ (first ≤ i ∧ i < first + count) ∧ s.Free i := by
  induction count with
  | zero =>
    intro s first h hu _
    exact ⟨h, hu, rfl, fun i => ⟨fun hi => ⟨by omega, hi⟩, fun hi => hi.2⟩⟩
  | succ n ih =>
    intro s first h hu hf
    have hf0 : s.Free first := hf 0 (by omega)
    obtain ⟨h1, h2, h3, h4⟩ := markMetadata_spec h hu hf0
    obtain ⟨g1, g2, g3, g4⟩ := ih (first + 1) h1 h2 fun j hj => by
      rw [show first + 1 + j = first + (j + 1) by omega]
      exact (h4 _).mpr ⟨by omega, hf (j + 1) (by omega)⟩
    rw [List.range'_succ, List.foldl_cons]
    refine ⟨g1, g2, g3.trans h3, fun i => ?_⟩
    rw [g4, h4]
    constructor
    · rintro ⟨ha, hb, hc⟩
      exact ⟨by omega, hc⟩
    · rintro ⟨ha, hc⟩
      exact ⟨by omega, by omega, hc⟩

/-! ## The initial state -/

theorem reserveAll_test {s : Pmm} {n i : Nat} (h : i < n) :
    (s.reserveAll n).bitmapTest i = true := by
  have h8 : i % 8 < 8 := Nat.mod_lt _ (by decide)
  rw [bitmapTest_eq]
  simp only [reserveAll, show i / 8 < (n + 7) / 8 by omega, ↓reduceIte]
  generalize i % 8 = k at h8
  revert k
  decide

theorem reserveAll_reserved {s : Pmm} {n i : Nat} (h : i < n) : (s.reserveAll n).Reserved i :=
  if_pos h

theorem reserveAll_not_free (s : Pmm) (n i : Nat) : ¬ (s.reserveAll n).Free i := fun hf => by
  have := hf.2
  rw [reserveAll_test (n := n) hf.1] at this
  cases this

theorem reserveAll_inv (s : Pmm) (n : Nat) : (s.reserveAll n).Inv := by
  refine ⟨fun i hi => ?_, ?_, fun hpos => reserveAll_reserved hpos,
    fun i hi => Nat.le_of_eq (reserveAll_reserved hi)⟩
  · have hr : (s.reserveAll n).refcounts i = uint32Max := reserveAll_reserved hi
    rw [reserveAll_test (n := n) hi, hr]
    decide
  · have : (s.reserveAll n).clearBits = ∅ := Finset.eq_empty_of_forall_notMem fun i hi =>
      reserveAll_not_free s n i (mem_clearBits.mp hi)
    rw [this]
    rfl

/-- **`pmm_init` builds the invariant**, and frees exactly the usable pages outside the
metadata. -/
theorem pmmInit_spec {s₀ s : Pmm} {entries : List MemmapEntry}
    (h : pmmInit s₀ (some entries) = some s) (hw : NoWrap entries) :
    s.Inv ∧ s.Unowned ∧ s.totalPages = mapPages entries ∧
    ∀ i, s.Free i ↔ i ∈ entries.flatMap usablePages ∧
      ¬ (metadataPhys (metadataPages entries) entries / 4096 ≤ i ∧
        i < metadataPhys (metadataPages entries) entries / 4096 + metadataPages entries) := by
  simp only [pmmInit] at h
  split at h
  · cases h
  · rename_i hphys
    cases h
    obtain ⟨h1, h2, h3, h4⟩ := foldl_markUsable (entries.flatMap usablePages)
      (reserveAll_inv s₀ (mapPages entries)) (fun i hi => .inr (reserveAll_reserved hi))
      fun p hp => usable_lt_totalPages hw hp
    obtain ⟨g1, g2, g3, g4⟩ := foldl_markMetadata (metadataPages entries)
      (metadataPhys (metadataPages entries) entries / 4096) h1 h2 fun j hj =>
        (h4 _).mpr (.inl (List.mem_flatMap.mpr
          (metadata_usable hphys (Nat.le_add_right _ _) (by omega))))
    refine ⟨g1, g2, g3.trans h3, fun i => (g4 i).trans ?_⟩
    rw [h4]
    have := reserveAll_not_free s₀ (mapPages entries) i
    tauto

theorem pmmInit_none (bitmap : Nat → BitVec 8) (refcounts : Nat → Nat) :
    (boot bitmap refcounts).Inv :=
  ⟨fun i hi => absurd hi (Nat.not_lt_zero i), rfl, fun h => absurd h (Nat.lt_irrefl 0),
    fun i hi => absurd hi (Nat.not_lt_zero i)⟩

end GenOS.Pmm
