import GenOS.Mm.PmmFreeSet

/-!
# Safety of the frame allocator

`CallSpec s op` says what one call does in state `s`, `SafeAlong s₀ ops` what holds after the calls
`ops`. Every run from the state `pmm_init` builds is safe, whatever the memory held before, exactly
for the maps whose highest address does not wrap when it is rounded up, and those without a whole
usable page. The counts of one frame between two returns of it are a ledger of the
reference-counted pool (`RefPool.Run.balance`).
-/

namespace GenOS.Pmm

open RefPool

/-- An address `pmm_free_page` and `pmm_ref_page` must not act on. -/
def Invalid (s : Pmm) (phys : Nat) : Prop :=
  phys % 4096 ≠ 0 ∨ s.totalPages ≤ phys / 4096 ∨ s.Reserved (phys / 4096) ∨ s.Free (phys / 4096)

/-- The `count` frames from `ptr` on were free, have count `1` now, and nothing else changed. -/
structure Taken (s s' : Pmm) (ptr count : Nat) : Prop where
  aligned : ptr % 4096 = 0
  free : s.FreeRun (ptr / 4096) count
  one : ∀ j < count, s'.refcounts (ptr / 4096 + j) = 1 ∧ s'.bitmapTest (ptr / 4096 + j) = true
  other : ∀ i, ¬ (ptr / 4096 ≤ i ∧ i < ptr / 4096 + count) →
    s'.refcounts i = s.refcounts i ∧ s'.bitmapTest i = s.bitmapTest i

/-- What a call does. -/
def CallSpec (s : Pmm) : Op → Prop
  | .allocPage =>
    ((∀ i, ¬ s.Free i) ∧ s.pmmAllocPage = (0, s)) ∨
    ((∃ i, s.Free i) ∧ s.pmmAllocPage.1 ≠ 0 ∧ Taken s s.pmmAllocPage.2 s.pmmAllocPage.1 1)
  | .allocContiguous count =>
    if count = 0 then s.pmmAllocContiguousPages count = (0, s)
    else
      ((∀ a, ¬ s.FreeRun a count) ∧ s.pmmAllocContiguousPages count = (0, s)) ∨
      ((∃ a, s.FreeRun a count) ∧ (s.pmmAllocContiguousPages count).1 ≠ 0 ∧
        Taken s (s.pmmAllocContiguousPages count).2 (s.pmmAllocContiguousPages count).1 count)
  | .refPage phys =>
    (s.Invalid phys → s.pmmRefPage phys = (false, s)) ∧
    (s.refcounts (phys / 4096) = uint32Max - 1 → s.pmmRefPage phys = (false, s)) ∧
    (¬ s.Invalid phys → s.refcounts (phys / 4096) ≠ uint32Max - 1 →
      s.pmmRefPage phys = (true, s.setRef (phys / 4096) (s.refcounts (phys / 4096) + 1)))
  | .freePage phys =>
    (s.Invalid phys → s.pmmFreePage phys = s) ∧
    (¬ s.Invalid phys → Release s (s.pmmFreePage phys) (phys / 4096))

/-! ## One call -/

theorem invalid_iff {s : Pmm} (h : s.Inv) {phys : Nat} :
    s.Invalid phys ↔ s.allocatedFrame phys = false := by
  rw [← Bool.not_eq_true, allocatedFrame_iff]
  constructor
  · rintro hi ⟨h1, -, h3, h4, -, h6⟩
    rcases hi with hi | hi | hi | hi
    · omega
    · omega
    · exact h6 hi
    · have := hi.2
      rw [h4] at this
      cases this
  · intro hn
    by_contra hc
    simp only [Invalid, not_or, ne_eq, not_not, not_le] at hc
    obtain ⟨ha, hlt, hr, hf⟩ := hc
    have hpos : s.refcounts (phys / 4096) ≠ 0 := fun h0 => hf ((h.free_iff hlt).mpr h0)
    refine hn ⟨by omega, fun h0 => hr (h0 ▸ h.zero (by omega)), hlt, ?_, by omega, hr⟩
    by_contra hset
    exact hf ⟨hlt, by simpa using hset⟩

theorem AllocRun.taken {s s' : Pmm} {start count : Nat} (ha : AllocRun s s' start count) :
    Taken s s' (start * 4096) count := by
  have hdiv : start * 4096 / 4096 = start := by omega
  refine ⟨by omega, by rw [hdiv]; exact ha.free, fun j hj => ?_, fun i hi => ?_⟩
  · rw [hdiv, ha.refs, ha.test]
    have hin : start ≤ start + j ∧ start + j < start + count := by omega
    simp only [hin, and_self, ↓reduceIte, decide_true, Bool.true_or]
  · rw [hdiv] at hi
    rw [ha.refs, ha.test, if_neg hi, decide_eq_false hi]
    exact ⟨rfl, rfl⟩

theorem callSpec {s : Pmm} (h : s.Inv) (op : Op) : s.CallSpec op := by
  cases op with
  | allocPage =>
    rcases allocPage_cases s with ⟨he, hn⟩ | ⟨idx, he, ha⟩
    · exact .inl ⟨hn, he⟩
    · refine .inr ⟨⟨idx, ha.free⟩, ?_⟩
      rw [he]
      exact ⟨ha.allocRun.start_ne_zero h, ha.allocRun.taken⟩
  | allocContiguous count =>
    simp only [CallSpec]
    split
    · rename_i h0
      exact if_pos (.inl h0)
    · rename_i h0
      rcases allocContiguous_cases h count with ⟨he, hn⟩ | ⟨start, he, ha⟩
      · exact .inl ⟨hn (by omega), he⟩
      · refine .inr ⟨⟨start, ha.free⟩, ?_⟩
        rw [he]
        exact ⟨ha.start_ne_zero h, ha.taken⟩
  | refPage phys =>
    refine ⟨fun hi => refPage_of_not ((invalid_iff h).mp hi), fun hm => ?_, fun hi hm => ?_⟩
    · unfold pmmRefPage
      split
      · rfl
      · exact if_pos hm
    · have ht : s.allocatedFrame phys = true := by
        rw [invalid_iff h] at hi
        simpa using hi
      rw [refPage_of_held (allocatedFrame_iff.mp ht), if_neg hm]
  | freePage phys =>
    refine ⟨fun hi => freePage_of_not ((invalid_iff h).mp hi), fun hi => ?_⟩
    rw [invalid_iff h, Bool.not_eq_false] at hi
    exact freePage_of_held (allocatedFrame_iff.mp hi)

/-! ## The ledger of one frame -/

theorem returned_count {s : Pmm} (h : s.Inv) {op : Op} {i : Nat} (hi : i ∈ s.returned op) :
    s.refcounts i = 0 ∧ (s.step op).refcounts i = 1 := by
  have key : ∀ {s' : Pmm} {start count : Nat}, AllocRun s s' start count →
      i ∈ List.range' start count → s.refcounts i = 0 ∧ s'.refcounts i = 1 := by
    intro s' start count ha hm
    rw [List.mem_range'_1] at hm
    have hf := ha.free (i - start) (by omega)
    rw [show start + (i - start) = i by omega] at hf
    exact ⟨(h.free_iff hf.1).mp hf, by rw [ha.refs, if_pos hm]⟩
  cases op with
  | allocPage =>
    simp only [returned] at hi
    split at hi
    · cases hi
    · rename_i hne
      rcases allocPage_cases s with ⟨he, -⟩ | ⟨idx, he, ha⟩
      · exact absurd (congrArg Prod.fst he) hne
      · rw [he, Nat.mul_div_cancel _ (by decide)] at hi
        exact key ha.allocRun (by simpa [List.range'_one] using hi)
  | allocContiguous count =>
    simp only [returned] at hi
    split at hi
    · cases hi
    · rename_i hne
      rcases allocContiguous_cases h count with ⟨he, -⟩ | ⟨start, he, ha⟩
      · exact absurd (congrArg Prod.fst he) hne
      · rw [he, Nat.mul_div_cancel _ (by decide)] at hi
        exact key ha hi
  | refPage phys => cases hi
  | freePage phys => cases hi

/-- The state after the calls `ops` from `s₀`. -/
structure SafeAlong (s₀ : Pmm) (ops : List Op) : Prop where
  total : (s₀.run ops).totalPages = s₀.totalPages
  counter : (s₀.run ops).freePages = ((Finset.range s₀.totalPages).filter fun i =>
    (s₀.run ops).bitmapTest i = false).card
  clear_iff : ∀ i < s₀.totalPages, (s₀.run ops).bitmapTest i = false ↔ (s₀.run ops).refcounts i = 0
  reserved : ∀ i < s₀.totalPages, (s₀.run ops).Reserved i ↔ s₀.Reserved i
  call : ∀ op, (s₀.run ops).CallSpec op
  /-- Between two returns of a frame its releases are one more than its references. -/
  ledger : ∀ op, ∀ i ∈ (s₀.run ops).returned op, ∀ ops',
    Event.acquire i ∉ ((s₀.run ops).step op).runEvents ops' →
    (((s₀.run ops).step op).run ops').refcounts i +
        releases i (((s₀.run ops).step op).runEvents ops') =
      1 + retains i (((s₀.run ops).step op).runEvents ops') ∧
    ∀ op', i ∈ (((s₀.run ops).step op).run ops').returned op' →
      (((s₀.run ops).step op).run ops').refcounts i = 0 ∧
      releases i (((s₀.run ops).step op).runEvents ops') =
        1 + retains i (((s₀.run ops).step op).runEvents ops')

theorem Inv.safeAlong {s₀ : Pmm} (h₀ : s₀.Inv) (ops : List Op) : SafeAlong s₀ ops := by
  have h := run_inv h₀ ops
  have ht := run_totalPages h₀ ops
  refine ⟨ht, ?_, ?_, fun i _ => run_reserved h₀ ops i, callSpec h, ?_⟩
  · rw [h.counter, clearBits, ht]
  · exact fun i hi => h.clear_iff i (ht ▸ hi)
  · intro op i hi ops' hna
    have hs := step_inv h op
    have hbal := (run_events hs ops').balance hna
    rw [(returned_count h hi).2] at hbal
    refine ⟨hbal, fun op' hi' => ?_⟩
    have hz := (returned_count (run_inv hs ops') hi').1
    exact ⟨hz, by omega⟩

/-! ## Initialisation over any memory -/

/-- The map has no bit or count to lose: its frame count is not wrapped, or no page is marked. -/
def Counted (entries : List MemmapEntry) : Prop :=
  NoWrap entries ∨ entries.flatMap usablePages = []

instance (entries : List MemmapEntry) : Decidable (Counted entries) :=
  inferInstanceAs (Decidable (NoWrap entries ∨ _))

theorem pmmInit_inv {mmap : Option (List MemmapEntry)} {bitmap : Nat → BitVec 8}
    {refcounts : Nat → Nat} {s₀ : Pmm} (h : pmmInit (boot bitmap refcounts) mmap = some s₀)
    (hc : ∀ entries ∈ mmap, Counted entries) : s₀.Inv := by
  cases mmap with
  | none =>
    cases h
    exact pmmInit_none bitmap refcounts
  | some entries =>
    by_cases hw : NoWrap entries
    · exact (pmmInit_spec h hw).1
    · have hnil := (hc entries rfl).resolve_left hw
      simp only [pmmInit] at h
      split at h
      · cases h
      · rw [hnil, metadataPages_of_wrap hw] at h
        obtain rfl := Option.some.inj h
        exact reserveAll_inv _ _

theorem metadataPhys_of_usable {entries : List MemmapEntry} {i : Nat}
    (hi : i ∈ entries.flatMap usablePages) : metadataPhys 0 entries ≠ 0 := by
  induction entries with
  | nil => cases hi
  | cons e es ih =>
    have hfirst := firstPage_ne_zero e
    rw [metadataPhys]
    dsimp only
    rcases List.mem_append.mp (List.flatMap_cons ▸ hi) with hi | hi
    · have hu := (mem_usablePages hi).1
      rw [usablePages, if_neg (not_not.mpr hu), List.mem_range'_1] at hi
      rw [if_neg (not_not.mpr hu), if_pos (by omega)]
      omega
    · split
      · exact ih hi
      · split
        · omega
        · exact ih hi

/-- Marking pages takes none off the counter and keeps the frame count. -/
theorem markUsable_counts (pages : List Nat) (s : Pmm) :
    s.freePages ≤ (pages.foldl markUsable s).freePages ∧
      (pages.foldl markUsable s).totalPages = s.totalPages := by
  induction pages generalizing s with
  | nil => exact ⟨le_rfl, rfl⟩
  | cons page pages ih =>
    have hone : s.freePages ≤ (markUsable s page).freePages ∧
        (markUsable s page).totalPages = s.totalPages := by
      unfold markUsable
      split
      · exact ⟨Nat.le_succ _, rfl⟩
      · exact ⟨le_rfl, rfl⟩
    obtain ⟨hfree, htotal⟩ := ih (markUsable s page)
    exact ⟨hone.1.trans hfree, htotal.trans hone.2⟩

/-- With a wrapped frame count the first marked page counts as free, and no frame is managed. -/
theorem exists_miscount {entries : List MemmapEntry} (hw : ¬ NoWrap entries)
    (hne : entries.flatMap usablePages ≠ []) :
    ∃ s, pmmInit (boot (fun _ => 0xFF) fun _ => 0) (some entries) = some s ∧
      s.totalPages = 0 ∧ s.freePages ≠ 0 := by
  obtain ⟨page, pages, hcons⟩ := List.exists_cons_of_ne_nil hne
  have hphys : metadataPhys (metadataPages entries) entries ≠ 0 := by
    rw [metadataPages_of_wrap hw]
    exact metadataPhys_of_usable (hcons ▸ List.mem_cons_self)
  have hset : (reserveAll (boot (fun _ => 0xFF) fun _ => 0) 0).bitmapTest page = true := by
    have hbit : ∀ k < 8, (0xFF#8 &&& 1#8 <<< k != 0#8) = true := by decide
    simpa [reserveAll, boot, bitmapTest] using hbit (page % 8) (Nat.mod_lt _ (by decide))
  refine ⟨_, by rw [pmmInit, if_neg hphys], ?_, ?_⟩
  · rw [metadataPages_of_wrap hw, mapPages_of_wrap hw]
    exact (markUsable_counts _ _).2
  · rw [metadataPages_of_wrap hw, mapPages_of_wrap hw, hcons]
    refine Nat.one_le_iff_ne_zero.mp (le_trans ?_ (markUsable_counts pages _).1)
    rw [markUsable, if_pos hset]
    exact Nat.le_add_left 1 _

/-- **Safety of the allocator**: every run from the state `pmm_init` builds is safe, whatever the
bytes of the bitmap and the counts were, exactly when the memory map is `Counted`. -/
theorem pmm_safety (mmap : Option (List MemmapEntry)) :
    (∀ bitmap refcounts s₀, pmmInit (boot bitmap refcounts) mmap = some s₀ →
      ∀ ops, SafeAlong s₀ ops) ↔ ∀ entries ∈ mmap, Counted entries := by
  constructor
  · rintro h entries rfl
    by_contra hc
    rw [Counted, not_or] at hc
    obtain ⟨s, hinit, htotal, hfree⟩ := exists_miscount hc.1 hc.2
    have hcount := (h _ _ s hinit []).counter
    rw [htotal] at hcount
    exact hfree hcount
  · exact fun hc _ _ _ hinit ops => (pmmInit_inv hinit hc).safeAlong ops

/-- A 16-page map: two allocations, a second reference, and the two releases of that frame. -/
theorem pmm_safety_small :
    ∃ s₀, pmmInit (boot (fun _ => 0) (fun _ => 0)) (some [⟨0, 0x10000, 0⟩]) = some s₀ ∧
      s₀.freePages = 14 ∧
      SafeAlong s₀ [.allocPage, .allocContiguous 2, .refPage 0x2000, .freePage 0x2000,
        .freePage 0x2000] := by
  refine ⟨_, rfl, by decide +kernel,
    (pmm_safety (some [⟨0, 0x10000, 0⟩])).mpr (fun entries he => ?_) _ _ _
    rfl _⟩
  cases he
  exact .inl (by decide)

/-- A map whose highest address is the last byte of the 64-bit space: rounding it up wraps, so the
allocator manages no frame but counts two free ones. -/
theorem pmm_counter_wraps :
    ∃ s₀, pmmInit (boot (fun _ => 0xFF) (fun _ => 0))
        (some [⟨0xFFFFFFFFFFFFFFFF, 0, 6⟩, ⟨0x1000, 0x2000, 0⟩]) = some s₀ ∧
      (s₀.run []).freePages ≠ ((Finset.range s₀.totalPages).filter fun i =>
        (s₀.run []).bitmapTest i = false).card :=
  ⟨_, rfl, by decide⟩

end GenOS.Pmm
