import GenOS.Mm.Pmm
import GenOS.Lib.RefPool
import Mathlib.Data.Finset.Card
import Mathlib.Data.Finset.Range
import Mathlib.Order.Interval.Finset.Nat

/-!
# The allocator invariant

`Pmm.Inv` ties the four representations of the free set together: bitmap, reference counts, free
counter, and (through the bound it needs) the rotating hint. Each function gets one lemma saying
what it changes (`AllocPage`, `AllocRun`, `freePage_cases`, `refPage_cases`); preservation and the
behaviour of whole runs follow from these. `Op.events` views a call as events of a reference-counted
pool, and `run_events` says a run of the allocator is a run of the pool.
-/

namespace GenOS.Pmm

open RefPool

/-! ## The bitmap -/

theorem and_bit_ne_zero (x : BitVec 8) {k : Nat} (hk : k < 8) :
    (x &&& 1#8 <<< k != 0#8) = x.getLsbD k := by
  rw [show (1#8 <<< k) = BitVec.twoPow 8 k from rfl, BitVec.and_twoPow]
  cases h : x.getLsbD k
  · simp
  · simp only [if_true, bne_iff_ne, ne_eq]
    intro hz
    have := congrArg (fun y => BitVec.getLsbD y k) hz
    simp [hk] at this

theorem bitmapTest_eq (s : Pmm) (i : Nat) :
    s.bitmapTest i = (s.bitmap (i / 8)).getLsbD (i % 8) :=
  and_bit_ne_zero _ (Nat.mod_lt _ (by decide))

theorem getLsbD_bit (k j : Nat) (hj : j < 8) : (1#8 <<< k).getLsbD j = decide (j = k) := by
  rw [show (1#8 <<< k) = BitVec.twoPow 8 k from rfl, BitVec.getLsbD_twoPow]
  by_cases h : k = j
  · simp [h, hj]
  · simp [h, Ne.symm h]

@[simp] theorem bitmapTest_set (s : Pmm) (b i : Nat) :
    (s.bitmapSet b).bitmapTest i = (decide (i = b) || s.bitmapTest i) := by
  have h8 : i % 8 < 8 := Nat.mod_lt _ (by decide)
  simp only [bitmapTest_eq, bitmapSet, Cells.set_apply]
  split
  · rename_i hd
    rw [BitVec.getLsbD_or, getLsbD_bit _ _ h8, hd, Bool.or_comm]
    congr 1
    exact decide_eq_decide.mpr (by omega)
  · rename_i hd
    have : i ≠ b := fun h => hd (h ▸ rfl)
    simp [this]

@[simp] theorem bitmapTest_clear (s : Pmm) (b i : Nat) :
    (s.bitmapClear b).bitmapTest i = (decide (i ≠ b) && s.bitmapTest i) := by
  have h8 : i % 8 < 8 := Nat.mod_lt _ (by decide)
  simp only [bitmapTest_eq, bitmapClear, Cells.set_apply]
  split
  · rename_i hd
    rw [BitVec.getLsbD_and, BitVec.getLsbD_not, getLsbD_bit _ _ h8, hd, Bool.and_comm]
    have : (i % 8 = b % 8) ↔ i = b := by omega
    simp [h8, this]
  · rename_i hd
    have : i ≠ b := fun h => hd (h ▸ rfl)
    simp [this]

@[simp] theorem bitmapTest_setRef (s : Pmm) (b n i : Nat) :
    (s.setRef b n).bitmapTest i = s.bitmapTest i := rfl

/-! ## Field lemmas -/

@[simp] theorem bitmapSet_totalPages (s : Pmm) (b : Nat) :
    (s.bitmapSet b).totalPages = s.totalPages := rfl
@[simp] theorem bitmapSet_freePages (s : Pmm) (b : Nat) :
    (s.bitmapSet b).freePages = s.freePages := rfl
@[simp] theorem bitmapSet_refcounts (s : Pmm) (b : Nat) :
    (s.bitmapSet b).refcounts = s.refcounts := rfl
@[simp] theorem bitmapClear_totalPages (s : Pmm) (b : Nat) :
    (s.bitmapClear b).totalPages = s.totalPages := rfl
@[simp] theorem bitmapClear_freePages (s : Pmm) (b : Nat) :
    (s.bitmapClear b).freePages = s.freePages := rfl
@[simp] theorem bitmapClear_refcounts (s : Pmm) (b : Nat) :
    (s.bitmapClear b).refcounts = s.refcounts := rfl
@[simp] theorem setRef_totalPages (s : Pmm) (b n : Nat) :
    (s.setRef b n).totalPages = s.totalPages := rfl
@[simp] theorem setRef_freePages (s : Pmm) (b n : Nat) :
    (s.setRef b n).freePages = s.freePages := rfl
@[simp] theorem setRef_refcounts (s : Pmm) (b n : Nat) :
    (s.setRef b n).refcounts = Cells.set s.refcounts b n := rfl

/-- A bit below `totalPages` that is clear. -/
def Free (s : Pmm) (i : Nat) : Prop := i < s.totalPages ∧ s.bitmapTest i = false

/-- The frames withheld for good: their count is the marker. -/
def Reserved (s : Pmm) (i : Nat) : Prop := s.refcounts i = uint32Max

/-- The clear bits. -/
def clearBits (s : Pmm) : Finset Nat :=
  (Finset.range s.totalPages).filter fun i => s.bitmapTest i = false

theorem mem_clearBits {s : Pmm} {i : Nat} : i ∈ s.clearBits ↔ s.Free i := by
  simp [clearBits, Free]

theorem clearBits_set (s : Pmm) (b : Nat) : (s.bitmapSet b).clearBits = s.clearBits.erase b := by
  ext i
  simp only [clearBits, bitmapSet_totalPages, bitmapTest_set, Finset.mem_filter,
    Finset.mem_erase, Bool.or_eq_false_iff, decide_eq_false_iff_not]
  tauto

/-- **The allocator invariant.** -/
structure Inv (s : Pmm) : Prop where
  /-- A bit is clear exactly when its frame has no owner. -/
  clear_iff : ∀ i < s.totalPages, s.bitmapTest i = false ↔ s.refcounts i = 0
  /-- The counter is the number of clear bits. -/
  counter : s.freePages = s.clearBits.card
  /-- Frame `0` is never handed out. -/
  zero : 0 < s.totalPages → s.Reserved 0
  /-- Counts stay below the marker or are the marker. -/
  bound : ∀ i < s.totalPages, s.refcounts i ≤ uint32Max

theorem Inv.free_iff {s : Pmm} (h : s.Inv) {i : Nat} (hi : i < s.totalPages) :
    s.Free i ↔ s.refcounts i = 0 :=
  ⟨fun hf => (h.clear_iff i hi).mp hf.2, fun hr => ⟨hi, (h.clear_iff i hi).mpr hr⟩⟩

theorem Inv.free_ne_zero {s : Pmm} (h : s.Inv) {i : Nat} (hf : s.Free i) : i ≠ 0 := by
  rintro rfl
  have h0 := (h.clear_iff 0 hf.1).mp hf.2
  have hr : s.refcounts 0 = uint32Max := h.zero (by have := hf.1; omega)
  rw [h0] at hr
  cases hr

theorem Inv.free_not_reserved {s : Pmm} (h : s.Inv) {i : Nat} (hf : s.Free i) : ¬ s.Reserved i := by
  intro hr
  have hr : s.refcounts i = uint32Max := hr
  rw [(h.clear_iff i hf.1).mp hf.2] at hr
  cases hr

/-! ## Single-frame allocation -/

/-- `pmm_alloc_page` took frame `idx`. -/
structure AllocPage (s s' : Pmm) (idx : Nat) : Prop where
  free : s.Free idx
  state : s' = { (s.bitmapSet idx).setRef idx 1 with
    freePages := s.freePages - 1, lastAllocIndex := idx + 1 }

theorem exists_scan_index {s : Pmm} {idx : Nat} (h : idx < s.totalPages) :
    ∃ i < s.totalPages, (s.lastAllocIndex + i) % s.totalPages = idx := by
  -- the scan visits every index once: start from the hint reduced modulo the number of pages
  have hpos : 0 < s.totalPages := by omega
  have hr : s.lastAllocIndex % s.totalPages < s.totalPages := Nat.mod_lt _ hpos
  refine ⟨(idx + s.totalPages - s.lastAllocIndex % s.totalPages) % s.totalPages,
    Nat.mod_lt _ hpos, ?_⟩
  have e : s.lastAllocIndex + (idx + s.totalPages - s.lastAllocIndex % s.totalPages) =
      idx + s.totalPages * (1 + s.lastAllocIndex / s.totalPages) := by
    have := Nat.div_add_mod s.lastAllocIndex s.totalPages
    rw [Nat.mul_add, Nat.mul_one]
    omega
  rw [Nat.add_mod_mod, e, Nat.add_mul_mod_self_left, Nat.mod_eq_of_lt h]

/-- **`pmm_alloc_page`, case by case.** It fails, changing nothing, exactly when no frame is
free. -/
theorem allocPage_cases (s : Pmm) :
    (s.pmmAllocPage = (0, s) ∧ ∀ i, ¬ s.Free i) ∨
    ∃ idx, s.pmmAllocPage.1 = idx * 4096 ∧ AllocPage s s.pmmAllocPage.2 idx := by
  unfold pmmAllocPage
  split
  · rename_i hnone
    refine .inl ⟨rfl, fun idx hf => ?_⟩
    obtain ⟨i, hi, he⟩ := exists_scan_index hf.1
    have := List.find?_eq_none.mp hnone i (List.mem_range.mpr hi)
    rw [he, hf.2] at this
    exact this rfl
  · rename_i i hsome
    have hi := List.mem_range.mp (List.mem_of_find?_eq_some hsome)
    have htest := List.find?_some hsome
    refine .inr ⟨_, rfl, ⟨Nat.mod_lt _ (by omega), by simpa using htest⟩, rfl⟩

theorem AllocPage.inv {s s' : Pmm} {idx : Nat} (ha : AllocPage s s' idx) (h : s.Inv) : s'.Inv := by
  have hmem : idx ∈ s.clearBits := mem_clearBits.mpr ha.free
  obtain rfl := ha.state
  refine ⟨fun i hi => ?_, ?_, fun hpos => ?_, fun i hi => ?_⟩
  · show (s.bitmapSet idx).bitmapTest i = false ↔ Cells.set s.refcounts idx 1 i = 0
    by_cases hx : i = idx
    · simp [hx]
    · simpa [hx] using h.clear_iff i hi
  · show s.freePages - 1 = (s.bitmapSet idx).clearBits.card
    rw [clearBits_set, Finset.card_erase_of_mem hmem, h.counter]
  · show Cells.set s.refcounts idx 1 0 = uint32Max
    rw [Cells.set_of_ne (h.free_ne_zero ha.free).symm]
    exact h.zero hpos
  · show Cells.set s.refcounts idx 1 i ≤ uint32Max
    by_cases hx : i = idx
    · rw [hx, Cells.set_self]
      decide
    · rw [Cells.set_of_ne hx]
      exact h.bound i hi

/-! ## Contiguous allocation -/

/-- `count` adjacent free frames from `start`. -/
def FreeRun (s : Pmm) (start count : Nat) : Prop := ∀ j, j < count → s.Free (start + j)

/-- What the scan knows before bit `i`: the last `run` bits are clear, from `start` on, no run of
`count` clear bits ends at or before `i`, and a run that crosses `i` does not start earlier. -/
structure ScanInv (s : Pmm) (count i run start : Nat) : Prop where
  run_lt : run < count
  clear : run ≠ 0 → start + run = i ∧ ∀ j, j < run → s.Free (start + j)
  noRun : ∀ a, s.FreeRun a count → i ≤ a + run

theorem findRun_spec {s : Pmm} {count : Nat} :
    ∀ (left i run start : Nat), left + i = s.totalPages → ScanInv s count i run start →
      match findRun s count left i run start with
      | none => ∀ a, ¬ s.FreeRun a count
      | some a => s.FreeRun a count
  | 0, i, run, start, hl, hs => by
    simp only [findRun]
    intro a ha
    have h1 := hs.run_lt
    have h2 := hs.noRun a ha
    have h3 := (ha (count - 1) (by omega)).1
    omega
  | left + 1, i, run, start, hl, hs => by
    have hpos := hs.run_lt
    simp only [findRun]
    by_cases ht : s.bitmapTest i = true
    · -- a set bit ends the run, and every later run starts behind it
      simp only [ht, Bool.not_true, Bool.false_eq_true, ↓reduceIte]
      refine findRun_spec _ _ _ _ (by omega) ⟨by omega, fun h => absurd rfl h, fun a ha => ?_⟩
      have h1 := hs.noRun a ha
      by_contra hc
      have := (ha (i - a) (by omega)).2
      rw [show a + (i - a) = i by omega, ht] at this
      cases this
    · have ht : s.bitmapTest i = false := by simpa using ht
      have hclear : ∀ j, j < run + 1 → s.Free ((if run = 0 then i else start) + j) := by
        intro j hj
        by_cases h0 : run = 0
        · rw [if_pos h0, show i + j = i by omega]
          exact ⟨by omega, ht⟩
        · rw [if_neg h0]
          obtain ⟨he, hf⟩ := hs.clear h0
          by_cases hj' : j < run
          · exact hf j hj'
          · rw [show start + j = i by omega]
            exact ⟨by omega, ht⟩
      simp only [ht, Bool.not_false, ↓reduceIte]
      by_cases hc : run + 1 = count
      · simp only [hc, ↓reduceIte]
        rw [← hc]
        exact hclear
      · simp only [hc, ↓reduceIte]
        refine findRun_spec _ _ _ _ (by omega) ⟨by omega, fun _ => ⟨?_, hclear⟩, fun a ha => ?_⟩
        · by_cases h0 : run = 0
          · simp [h0]
          · rw [if_neg h0]
            have := (hs.clear h0).1
            omega
        · have := hs.noRun a ha
          omega

theorem foldl_takeFrame (start count : Nat) (s : Pmm) :
    let s' := (List.range' start count).foldl takeFrame s
    s'.totalPages = s.totalPages ∧ s'.freePages = s.freePages ∧
    s'.lastAllocIndex = s.lastAllocIndex ∧ s'.bitmapSize = s.bitmapSize ∧
    (∀ i, s'.bitmapTest i = (decide (start ≤ i ∧ i < start + count) || s.bitmapTest i)) ∧
    (∀ i, s'.refcounts i = if start ≤ i ∧ i < start + count then 1 else s.refcounts i) := by
  induction count generalizing start s with
  | zero => simp
  | succ n ih =>
    obtain ⟨h1, h2, h3, h4, h5, h6⟩ := ih (start + 1) (s.takeFrame start)
    rw [List.range'_succ, List.foldl_cons]
    refine ⟨h1, h2, h3, h4, fun i => ?_, fun i => ?_⟩
    · rw [h5 i]
      simp only [takeFrame, bitmapTest_setRef, bitmapTest_set, ← Bool.or_assoc]
      congr 1
      rw [← Bool.decide_or]
      exact decide_eq_decide.mpr (by omega)
    · rw [h6 i]
      simp only [takeFrame, setRef_refcounts, bitmapSet_refcounts, Cells.set_apply]
      by_cases hi : i = start
      · simp [hi]
      · have : (start + 1 ≤ i ∧ i < start + 1 + n) ↔ (start ≤ i ∧ i < start + (n + 1)) := by omega
        simp only [this, hi, ↓reduceIte]

/-- A request took the `count` frames from `start` on. -/
structure AllocRun (s s' : Pmm) (start count : Nat) : Prop where
  pos : 0 < count
  free : s.FreeRun start count
  total : s'.totalPages = s.totalPages
  counter : s'.freePages = s.freePages - count
  test : ∀ i, s'.bitmapTest i = (decide (start ≤ i ∧ i < start + count) || s.bitmapTest i)
  refs : ∀ i, s'.refcounts i = if start ≤ i ∧ i < start + count then 1 else s.refcounts i

theorem AllocPage.allocRun {s s' : Pmm} {idx : Nat} (ha : AllocPage s s' idx) :
    AllocRun s s' idx 1 := by
  obtain rfl := ha.state
  refine ⟨by decide, fun j hj => ?_, rfl, rfl, fun i => ?_, fun i => ?_⟩
  · rw [show idx + j = idx by omega]
    exact ha.free
  · show (s.bitmapSet idx).bitmapTest i = _
    rw [bitmapTest_set]
    congr 1
    exact decide_eq_decide.mpr (by omega)
  · show Cells.set s.refcounts idx 1 i = _
    rw [Cells.set_apply]
    have : (i = idx) ↔ (idx ≤ i ∧ i < idx + 1) := by omega
    simp only [this]

theorem card_le_of_freeRun {s : Pmm} {start count : Nat} (h : s.FreeRun start count) :
    count ≤ s.clearBits.card := by
  have hsub : Finset.Ico start (start + count) ⊆ s.clearBits := by
    intro i hi
    rw [Finset.mem_Ico] at hi
    have := h (i - start) (by omega)
    rw [show start + (i - start) = i by omega] at this
    exact mem_clearBits.mpr this
  simpa using Finset.card_le_card hsub

/-- **`pmm_alloc_contiguous_pages`, case by case.** For `count > 0` it fails, changing nothing,
exactly when there is no run of `count` free frames. -/
theorem allocContiguous_cases {s : Pmm} (h : s.Inv) (count : Nat) :
    (s.pmmAllocContiguousPages count = (0, s) ∧ (0 < count → ∀ a, ¬ s.FreeRun a count)) ∨
    ∃ start, (s.pmmAllocContiguousPages count).1 = start * 4096 ∧
      AllocRun s (s.pmmAllocContiguousPages count).2 start count := by
  unfold pmmAllocContiguousPages
  by_cases h0 : count = 0 ∨ count > s.freePages
  · refine .inl ⟨if_pos h0, fun hpos a ha => ?_⟩
    have := card_le_of_freeRun ha
    rw [← h.counter] at this
    omega
  · rw [if_neg h0]
    by_cases h1 : count = 1
    · rw [if_pos h1]
      subst h1
      rcases allocPage_cases s with ⟨he, hn⟩ | ⟨idx, he, ha⟩
      · exact .inl ⟨he, fun _ a ha => hn a (ha 0 (by decide))⟩
      · exact .inr ⟨idx, he, ha.allocRun⟩
    · rw [if_neg h1]
      have hspec := @findRun_spec s count s.totalPages 0 0 0 rfl
        ⟨by omega, fun h => absurd rfl h, fun a _ => by omega⟩
      cases hf : findRun s count s.totalPages 0 0 0 with
      | none =>
        rw [hf] at hspec
        exact .inl ⟨rfl, fun _ => hspec⟩
      | some start =>
        rw [hf] at hspec
        obtain ⟨g1, g2, -, -, g5, g6⟩ := foldl_takeFrame start count s
        refine .inr ⟨start, rfl, by omega, hspec, g1, ?_, g5, g6⟩
        exact congrArg (· - count) g2

theorem AllocRun.inv {s s' : Pmm} {start count : Nat} (ha : AllocRun s s' start count)
    (h : s.Inv) : s'.Inv := by
  have hfree : ∀ i, start ≤ i → i < start + count → s.Free i := fun i h1 h2 => by
    have := ha.free (i - start) (by omega)
    rwa [show start + (i - start) = i by omega] at this
  have hclear : s'.clearBits = s.clearBits \ Finset.Ico start (start + count) := by
    ext i
    simp only [clearBits, ha.total, ha.test, Finset.mem_filter, Finset.mem_sdiff, Finset.mem_Ico,
      Bool.or_eq_false_iff, decide_eq_false_iff_not]
    tauto
  have hsub : Finset.Ico start (start + count) ⊆ s.clearBits := fun i hi => by
    rw [Finset.mem_Ico] at hi
    exact mem_clearBits.mpr (hfree i hi.1 hi.2)
  refine ⟨fun i hi => ?_, ?_, fun hpos => ?_, fun i hi => ?_⟩
  · rw [ha.total] at hi
    rw [ha.test, ha.refs]
    by_cases hx : start ≤ i ∧ i < start + count
    · simp [hx]
    · simpa [hx] using h.clear_iff i hi
  · rw [ha.counter, hclear, Finset.card_sdiff_of_subset hsub, h.counter]
    simp
  · rw [ha.total] at hpos
    show s'.refcounts 0 = uint32Max
    rw [ha.refs, if_neg fun hx => h.free_ne_zero (hfree 0 hx.1 hx.2) rfl]
    exact h.zero hpos
  · rw [ha.total] at hi
    rw [ha.refs]
    split
    · decide
    · exact h.bound i hi

/-! ## References -/

/-- `allocated_frame` accepts the address of frame `page`, held and not reserved. -/
structure Held (s : Pmm) (phys page : Nat) : Prop where
  addr : phys = page * 4096
  ne_zero : page ≠ 0
  lt : page < s.totalPages
  set : s.bitmapTest page = true
  pos : 0 < s.refcounts page
  unreserved : ¬ s.Reserved page

theorem allocatedFrame_iff {s : Pmm} {phys : Nat} :
    s.allocatedFrame phys = true ↔ Held s phys (phys / 4096) := by
  simp only [allocatedFrame, Bool.and_eq_true, bne_iff_ne, ne_eq, beq_iff_eq, decide_eq_true_eq]
  constructor
  · rintro ⟨⟨⟨⟨⟨h1, h2⟩, h3⟩, h4⟩, h5⟩, h6⟩
    exact ⟨by omega, by omega, h3, h4, Nat.pos_of_ne_zero h5, h6⟩
  · rintro ⟨h1, h2, h3, h4, h5, h6⟩
    exact ⟨⟨⟨⟨⟨by omega, by omega⟩, h3⟩, h4⟩, by omega⟩, h6⟩

theorem Held.index {s : Pmm} {phys page : Nat} (h : Held s phys page) : phys / 4096 = page := by
  have := h.addr
  omega

theorem Held.allocated {s : Pmm} {phys page : Nat} (h : Held s phys page) :
    s.allocatedFrame phys = true := by
  rw [allocatedFrame_iff, h.index]
  exact h

/-- `pmm_free_page` released one reference on `page`; the last one clears the bit. -/
structure Release (s s' : Pmm) (page : Nat) : Prop where
  total : s'.totalPages = s.totalPages
  refs : s'.refcounts = Cells.set s.refcounts page (s.refcounts page - 1)
  test : ∀ i, s'.bitmapTest i = (decide (i ≠ page ∨ s.refcounts page ≠ 1) && s.bitmapTest i)
  counter : s'.freePages = s.freePages + if s.refcounts page = 1 then 1 else 0

theorem freePage_of_not {s : Pmm} {phys : Nat} (h : s.allocatedFrame phys = false) :
    s.pmmFreePage phys = s := by
  simp [pmmFreePage, h]

theorem freePage_of_held {s : Pmm} {phys page : Nat} (h : Held s phys page) :
    Release s (s.pmmFreePage phys) page := by
  have hp := h.pos
  unfold pmmFreePage
  simp only [h.allocated, h.index, Bool.not_true, Bool.false_eq_true, ↓reduceIte,
    setRef_refcounts, Cells.set_self, ne_eq]
  by_cases h1 : s.refcounts page = 1
  · rw [if_neg (by omega)]
    refine ⟨rfl, rfl, fun i => ?_, by simp [h1]⟩
    show ((s.setRef page _).bitmapClear page).bitmapTest i = _
    simp [h1]
  · rw [if_pos (by omega)]
    exact ⟨rfl, rfl, fun i => by simp [h1], by simp [h1]⟩

theorem refPage_of_not {s : Pmm} {phys : Nat} (h : s.allocatedFrame phys = false) :
    s.pmmRefPage phys = (false, s) := by
  simp [pmmRefPage, h]

theorem refPage_of_held {s : Pmm} {phys page : Nat} (h : Held s phys page) :
    s.pmmRefPage phys = if s.refcounts page = uint32Max - 1 then (false, s)
      else (true, s.setRef page (s.refcounts page + 1)) := by
  simp [pmmRefPage, h.allocated, h.index]

theorem Release.inv {s s' : Pmm} {phys page : Nat} (hr : Release s s' page)
    (hh : Held s phys page) (h : s.Inv) : s'.Inv := by
  have hp := hh.pos
  refine ⟨fun i hi => ?_, ?_, fun hpos => ?_, fun i hi => ?_⟩
  · rw [hr.total] at hi
    have := h.clear_iff i hi
    rw [hr.test, hr.refs]
    by_cases hx : i = page
    · subst hx
      have hs := hh.set
      simp only [ne_eq, not_true_eq_false, false_or, hs, Bool.and_true, decide_eq_false_iff_not,
        Cells.set_self]
      omega
    · simpa [hx] using this
  · rw [hr.counter, h.counter]
    by_cases h1 : s.refcounts page = 1
    · have hnot : page ∉ s.clearBits := fun hm => by
        have := (mem_clearBits.mp hm).2
        rw [hh.set] at this
        cases this
      have : s'.clearBits = insert page s.clearBits := by
        ext i
        rw [Finset.mem_insert, mem_clearBits, mem_clearBits]
        simp only [Free, hr.total, hr.test, h1]
        by_cases hx : i = page
        · simp [hx, hh.lt]
        · simp [hx]
      rw [this, Finset.card_insert_of_notMem hnot, if_pos h1]
    · have : s'.clearBits = s.clearBits := by
        ext i
        simp [mem_clearBits, Free, hr.total, hr.test, h1]
      rw [this, if_neg h1, Nat.add_zero]
  · rw [hr.total] at hpos
    show s'.refcounts 0 = uint32Max
    rw [hr.refs, Cells.set_of_ne hh.ne_zero.symm]
    exact h.zero hpos
  · rw [hr.total] at hi
    rw [hr.refs]
    have hb := h.bound page hh.lt
    by_cases hx : i = page
    · rw [hx, Cells.set_self]
      omega
    · rw [Cells.set_of_ne hx]
      exact h.bound i hi

theorem setRef_succ_inv {s : Pmm} {phys page : Nat} (hh : Held s phys page)
    (h : s.Inv) :
    (s.setRef page (s.refcounts page + 1)).Inv := by
  refine ⟨fun i hi => ?_, h.counter, fun hpos => ?_, fun i hi => ?_⟩
  · rw [bitmapTest_setRef, setRef_refcounts]
    by_cases hx : i = page
    · rw [hx, Cells.set_self, hh.set]
      simp
    · rw [Cells.set_of_ne hx]
      exact h.clear_iff i hi
  · show Cells.set s.refcounts page _ 0 = uint32Max
    rw [Cells.set_of_ne hh.ne_zero.symm]
    exact h.zero hpos
  · rw [setRef_refcounts]
    by_cases hx : i = page
    · have hb := h.bound page hh.lt
      have hu : s.refcounts page ≠ uint32Max := hh.unreserved
      rw [hx, Cells.set_self]
      omega
    · rw [Cells.set_of_ne hx]
      exact h.bound i hi

/-! ## Calls -/

theorem step_inv {s : Pmm} (h : s.Inv) (op : Op) : (s.step op).Inv := by
  cases op with
  | allocPage =>
    rcases allocPage_cases s with ⟨he, -⟩ | ⟨idx, -, ha⟩
    · simpa only [step, he] using h
    · exact ha.inv h
  | allocContiguous count =>
    rcases allocContiguous_cases h count with ⟨he, -⟩ | ⟨start, -, ha⟩
    · simpa only [step, he] using h
    · exact ha.inv h
  | refPage phys =>
    simp only [step]
    cases ht : s.allocatedFrame phys with
    | false => simpa only [refPage_of_not ht] using h
    | true =>
      have hh := allocatedFrame_iff.mp ht
      rw [refPage_of_held hh]
      split
      · exact h
      · exact setRef_succ_inv hh h
  | freePage phys =>
    simp only [step]
    cases ht : s.allocatedFrame phys with
    | false => simpa only [freePage_of_not ht] using h
    | true => exact (freePage_of_held (allocatedFrame_iff.mp ht)).inv (allocatedFrame_iff.mp ht) h

theorem run_inv {s : Pmm} (h : s.Inv) (ops : List Op) : (s.run ops).Inv := by
  induction ops generalizing s with
  | nil => exact h
  | cons op ops ih => exact ih (step_inv h op)

theorem step_totalPages {s : Pmm} (h : s.Inv) (op : Op) :
    (s.step op).totalPages = s.totalPages := by
  cases op with
  | allocPage =>
    rcases allocPage_cases s with ⟨he, -⟩ | ⟨idx, -, ha⟩
    · simp only [step, he]
    · exact ha.allocRun.total
  | allocContiguous count =>
    rcases allocContiguous_cases h count with ⟨he, -⟩ | ⟨start, -, ha⟩
    · simp only [step, he]
    · exact ha.total
  | refPage phys =>
    simp only [step, pmmRefPage]
    split
    · rfl
    · split <;> rfl
  | freePage phys =>
    simp only [step]
    cases ht : s.allocatedFrame phys with
    | false => rw [freePage_of_not ht]
    | true => exact (freePage_of_held (allocatedFrame_iff.mp ht)).total

theorem run_totalPages {s : Pmm} (h : s.Inv) (ops : List Op) :
    (s.run ops).totalPages = s.totalPages := by
  induction ops generalizing s with
  | nil => rfl
  | cons op ops ih => exact (ih (step_inv h op)).trans (step_totalPages h op)

/-- No call reserves a frame or gives a reserved one away. -/
theorem step_reserved {s : Pmm} (h : s.Inv) (op : Op) (i : Nat) :
    (s.step op).Reserved i ↔ s.Reserved i := by
  have taken : ∀ {s' : Pmm} {start count : Nat}, AllocRun s s' start count →
      (s'.Reserved i ↔ s.Reserved i) := fun {s' start count} ha => by
    unfold Reserved
    rw [ha.refs]
    split
    · rename_i hx
      have hf := ha.free (i - start) (by omega)
      rw [show start + (i - start) = i by omega] at hf
      exact ⟨fun hr => (by cases hr), fun hr => absurd hr (h.free_not_reserved hf)⟩
    · rfl
  cases op with
  | allocPage =>
    rcases allocPage_cases s with ⟨he, -⟩ | ⟨idx, -, ha⟩
    · simp only [step, he]
    · exact taken ha.allocRun
  | allocContiguous count =>
    rcases allocContiguous_cases h count with ⟨he, -⟩ | ⟨start, -, ha⟩
    · simp only [step, he]
    · exact taken ha
  | refPage phys =>
    simp only [step]
    cases ht : s.allocatedFrame phys with
    | false => rw [refPage_of_not ht]
    | true =>
      have hh := allocatedFrame_iff.mp ht
      rw [refPage_of_held hh]
      split
      · rfl
      · rename_i hm
        unfold Reserved
        rw [setRef_refcounts, Cells.set_apply]
        split
        · rename_i hx
          have hr := hh.unreserved
          unfold Reserved at hr
          rw [hx]
          exact ⟨fun he => (by omega), fun he => absurd he hr⟩
        · rfl
  | freePage phys =>
    simp only [step]
    cases ht : s.allocatedFrame phys with
    | false => rw [freePage_of_not ht]
    | true =>
      have hh := allocatedFrame_iff.mp ht
      unfold Reserved
      rw [(freePage_of_held hh).refs, Cells.set_apply]
      split
      · rename_i hx
        have hr := hh.unreserved
        have hb := h.bound _ hh.lt
        unfold Reserved at hr
        rw [hx]
        exact ⟨fun he => (by omega), fun he => absurd he hr⟩
      · rfl

theorem run_reserved {s : Pmm} (h : s.Inv) (ops : List Op) (i : Nat) :
    (s.run ops).Reserved i ↔ s.Reserved i := by
  induction ops generalizing s with
  | nil => rfl
  | cons op ops ih =>
    exact (ih (step_inv h op)).trans (step_reserved h op i)

/-! ## The allocator as a reference-counted pool -/

/-- The frames a call returns. -/
def returned (s : Pmm) : Op → List Nat
  | .allocPage => if s.pmmAllocPage.1 = 0 then [] else [s.pmmAllocPage.1 / 4096]
  | .allocContiguous count =>
    if (s.pmmAllocContiguousPages count).1 = 0 then []
    else List.range' ((s.pmmAllocContiguousPages count).1 / 4096) count
  | _ => []

/-- The pool events of a call. -/
def events (s : Pmm) : Op → List (Event Nat)
  | .refPage phys => if (s.pmmRefPage phys).1 then [.retain (phys / 4096)] else []
  | .freePage phys => if s.allocatedFrame phys then [.release (phys / 4096)] else []
  | op => (s.returned op).map .acquire

/-- The pool events of a run. -/
def runEvents (s : Pmm) : List Op → List (Event Nat)
  | [] => []
  | op :: ops => s.events op ++ (s.step op).runEvents ops

theorem run_acquire (l : List Nat) (hnd : l.Nodup) :
    ∀ c : Nat → Nat, (∀ i ∈ l, c i = 0) →
      Run c (l.map .acquire) fun i => if i ∈ l then 1 else c i := by
  induction l with
  | nil => intro c _; simpa using Run.nil c
  | cons a l ih =>
    intro c hc
    rw [List.nodup_cons] at hnd
    have hne : ∀ i ∈ l, i ≠ a := fun i hi h => hnd.1 (h ▸ hi)
    have hrun := ih hnd.2 (Cells.set c a 1) fun i hi => by
      rw [Cells.set_of_ne (hne i hi)]
      exact hc i (List.mem_cons_of_mem _ hi)
    have hend : (fun i => if i ∈ a :: l then 1 else c i) =
        fun i => if i ∈ l then 1 else Cells.set c a 1 i := by
      funext i
      by_cases hi : i = a
      · simp [hi, hnd.1]
      · simp [hi]
    rw [hend]
    exact .cons (hc a List.mem_cons_self) hrun

theorem AllocRun.returned_run {s s' : Pmm} {start count : Nat} (ha : AllocRun s s' start count)
    (h : s.Inv) : Run s.refcounts ((List.range' start count).map .acquire) s'.refcounts := by
  have := run_acquire (List.range' start count) List.nodup_range' s.refcounts fun i hi => by
    rw [List.mem_range'_1] at hi
    have hf := ha.free (i - start) (by omega)
    rw [show start + (i - start) = i by omega] at hf
    exact (h.free_iff hf.1).mp hf
  convert this using 1
  funext i
  rw [ha.refs i]
  simp only [List.mem_range'_1]

theorem AllocRun.start_ne_zero {s s' : Pmm} {start count : Nat} (ha : AllocRun s s' start count)
    (h : s.Inv) : start * 4096 ≠ 0 := by
  have := h.free_ne_zero (ha.free 0 ha.pos)
  omega

theorem step_events {s : Pmm} (h : s.Inv) (op : Op) :
    Run s.refcounts (s.events op) (s.step op).refcounts := by
  cases op with
  | allocPage =>
    simp only [events, returned, step]
    rcases allocPage_cases s with ⟨he, -⟩ | ⟨idx, he, ha⟩
    · simpa [he] using Run.nil s.refcounts
    · have := ha.allocRun.start_ne_zero h
      rw [he, if_neg this, Nat.mul_div_cancel _ (by decide)]
      exact ha.allocRun.returned_run h
  | allocContiguous count =>
    simp only [events, returned, step]
    rcases allocContiguous_cases h count with ⟨he, -⟩ | ⟨start, he, ha⟩
    · simpa [he] using Run.nil s.refcounts
    · have := ha.start_ne_zero h
      rw [he, if_neg this, Nat.mul_div_cancel _ (by decide)]
      exact ha.returned_run h
  | refPage phys =>
    simp only [events, step]
    cases ht : s.allocatedFrame phys with
    | false => simpa [refPage_of_not ht] using Run.nil s.refcounts
    | true =>
      have hh := allocatedFrame_iff.mp ht
      rw [refPage_of_held hh]
      split
      · exact Run.nil s.refcounts
      · exact Run.single hh.pos
  | freePage phys =>
    simp only [events, step]
    cases ht : s.allocatedFrame phys with
    | false => simpa [freePage_of_not ht] using Run.nil s.refcounts
    | true =>
      have hh := allocatedFrame_iff.mp ht
      rw [(freePage_of_held hh).refs]
      exact Run.single hh.pos

/-- **A run of the allocator is a run of the pool.** -/
theorem run_events {s : Pmm} (h : s.Inv) (ops : List Op) :
    Run s.refcounts (s.runEvents ops) (s.run ops).refcounts := by
  induction ops generalizing s with
  | nil => exact Run.nil _
  | cons op ops ih => exact (step_events h op).append (ih (step_inv h op))

end GenOS.Pmm
