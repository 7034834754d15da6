import GenOS.Mm.UserMemory
import GenOS.Mm.VmmRefine

/-!
# The search for a free range is exact

`FreeRange t span b` says that the span at `b` overlaps no mapped page, no allocation and no
attachment, guards included. A round of the search that finds a conflict moves the candidate past
it, and every base it passes has the same conflict (`SkipsTo`).
-/

namespace GenOS.Phys

open Radix

/-- Two spans without a common byte. -/
def Apart (b span base stop : Nat) : Prop := b + span ≤ base ∨ stop ≤ b

instance (b span base stop : Nat) : Decidable (Apart b span base stop) :=
  inferInstanceAs (Decidable (_ ∨ _))

/-- The end of a record's span, its guard page included. -/
def guardEnd (base : Nat) (pages : UInt32) : Nat := base + (pages.toNat + 1) * 4096

/-- Nothing is in the way of a span at `b`. -/
structure FreeRange (s : Phys) (t : Owner) (span b : Nat) : Prop where
  unmapped : ∀ va, b ≤ va → va < b + span → s.translate t.pml4 va = none
  allocations : ∀ a ∈ t.allocations, Apart b span a.base (guardEnd a.base a.pages)
  attachments : ∀ a ∈ t.shmAttached, 0 ≤ a.shmid →
    Apart b span a.vaddr (guardEnd a.vaddr a.pageCount)

/-- The records are page-aligned. -/
structure PageAligned (t : Owner) : Prop where
  allocations : ∀ a ∈ t.allocations, a.base % 4096 = 0
  attachments : ∀ a ∈ t.shmAttached, a.vaddr % 4096 = 0

variable {s : Phys} {t : Owner} {span b candidate skip base : Nat} {pages : UInt32}

/-! ## One record -/

/-- The records of both loops, as pairs. -/
def recordsOf (t : Owner) : List (Nat × UInt32) :=
  t.allocations.map (fun a => (a.base, a.pages)) ++
    (t.shmAttached.filter (fun a => 0 ≤ a.shmid)).map (fun a => (a.vaddr, a.pageCount))

theorem skipRecords_eq (t : Owner) (span candidate : Nat) : skipRecords t span candidate =
    (recordsOf t).foldl (fun skip r => skipPast candidate span skip r.1 r.2) candidate := by
  unfold skipRecords recordsOf
  rw [List.foldl_append, List.foldl_map, List.foldl_map, List.foldl_filter]
  simp only [decide_eq_true_eq]

/-- One record: if it is in the way, `skip` is at least its end. No span in user space wraps. -/
theorem skipPast_spec (hlt : candidate + span ≤ 2 ^ 48) :
    (¬ Apart candidate span base (guardEnd base pages) ∧
      skipPast candidate span skip base pages = max skip (guardEnd base pages)) ∨
    (Apart candidate span base (guardEnd base pages) ∧
      skipPast candidate span skip base pages = skip) := by
  have hp := pages.toNat_lt
  unfold Apart guardEnd
  by_cases hb : base < candidate + span
  · simp only [skipPast, Nat.mod_eq_of_lt (show base + (pages.toNat + 1) * 4096 < 2 ^ 64 by omega)]
    by_cases hs : base + (pages.toNat + 1) * 4096 ≤ candidate
    · exact .inr ⟨.inr hs, by rw [if_neg (by omega)]⟩
    · refine .inl ⟨by omega, ?_⟩
      split
      · omega
      · omega
  · exact .inr ⟨.inl (by omega), by simp only [skipPast]; rw [if_neg (by omega)]⟩

/-- The loop over the records. -/
def skipAll (l : List (Nat × UInt32)) (span candidate skip : Nat) : Nat :=
  l.foldl (fun skip r => skipPast candidate span skip r.1 r.2) skip

theorem le_skipAll (l : List (Nat × UInt32)) (span candidate skip : Nat) :
    skip ≤ skipAll l span candidate skip :=
  le_foldl_skip _ (fun _ _ => le_skipPast ..) l skip

/-- The loop skips every record in the way. -/
theorem skipAll_past (hlt : candidate + span ≤ 2 ^ 48) {l : List (Nat × UInt32)}
    (hc : candidate ≤ skip) {r : Nat × UInt32} (hr : r ∈ l)
    (hn : ¬ Apart candidate span r.1 (guardEnd r.1 r.2)) :
    guardEnd r.1 r.2 ≤ skipAll l span candidate skip := by
  induction l generalizing skip with
  | nil => cases hr
  | cons x l ih =>
    have hx := le_skipPast candidate span skip x.1 x.2
    rcases List.mem_cons.mp hr with rfl | hr
    · rcases @skipPast_spec span candidate skip r.1 r.2 hlt with ⟨-, he⟩ | ⟨ha, -⟩
      · have := le_skipAll l span candidate (skipPast candidate span skip r.1 r.2)
        change _ ≤ skipAll l span candidate (skipPast candidate span skip r.1 r.2)
        omega
      · exact absurd ha hn
    · exact ih (Nat.le_trans hc hx) hr

/-- The loop skips to the end of a record in the way, if at all. -/
theorem skipAll_cases (hlt : candidate + span ≤ 2 ^ 48) (l : List (Nat × UInt32))
    (hc : candidate ≤ skip) :
    skipAll l span candidate skip = skip ∨ ∃ r ∈ l,
      ¬ Apart candidate span r.1 (guardEnd r.1 r.2) ∧
        skipAll l span candidate skip = guardEnd r.1 r.2 := by
  induction l generalizing skip with
  | nil => exact .inl rfl
  | cons x l ih =>
    have hx := le_skipPast candidate span skip x.1 x.2
    change skipAll l span candidate (skipPast candidate span skip x.1 x.2) = skip ∨ _
    rcases ih (Nat.le_trans hc hx) with he | ⟨r, hr, hn, he⟩
    · rcases @skipPast_spec span candidate skip x.1 x.2 hlt with ⟨hn, hs⟩ | ⟨-, hs⟩
      · by_cases hle : guardEnd x.1 x.2 ≤ skip
        · exact .inl (by omega)
        · exact .inr ⟨x, List.mem_cons_self, hn, by
            change skipAll l span candidate (skipPast candidate span skip x.1 x.2) = _
            omega⟩
      · exact .inl (he.trans hs)
    · exact .inr ⟨r, List.mem_cons_of_mem _ hr, hn, he⟩

/-! ## The page loop -/

theorem isSome_pteIn (hr : t.pml4 ≠ 0) {va : Nat} (hva : va < 0x800000000000) :
    (s.vmmPteIn t.pml4 va).isSome = true ↔ s.translate t.pml4 va ≠ none := by
  have hc : canonical va = true := by
    rw [canonical_iff]
    exact .inl hva
  rw [← not_iff_not, Bool.not_eq_true, Option.isSome_eq_false_iff, Option.isNone_iff_eq_none,
    vmmPteIn_none hr hc, not_not]

/-- A page is mapped as a whole. -/
theorem translate_page {r va : Nat} {b : Nat} (h : b / 4096 = va / 4096) :
    s.translate r b = s.translate r va := by
  have hcan : canonical b = canonical va := by
    rw [Bool.eq_iff_iff, canonical_iff, canonical_iff]
    omega
  unfold translate lookup
  rw [path_key (indexAt_page h), hcan]

/-- The page loop finds the first mapped page, or there is none. -/
theorem skipMapped_spec (hr : t.pml4 ≠ 0) {stop : Nat} (hstop : stop ≤ 0x800000000000) {va : Nat}
    (ha : va % 4096 = 0) (hle : skip ≤ va) :
    let skip' := s.skipMapped t.pml4 stop skip va
    (skip' = skip ∧ ∀ b, va ≤ b → b < stop → s.translate t.pml4 b = none) ∨
    (va < skip' ∧ skip' % 4096 = 0 ∧ skip' - 4096 < stop ∧
      s.translate t.pml4 (skip' - 4096) ≠ none) := by
  fun_induction skipMapped s t.pml4 stop skip va with
  | case1 va hlt hm =>
    have := (isSome_pteIn hr (by omega)).mp hm
    exact .inr ⟨by omega, by omega, by omega, by rwa [Nat.add_sub_cancel]⟩
  | case2 va hlt hm ih =>
    have hun : s.translate t.pml4 va = none := by
      by_contra hc
      exact hm ((isSome_pteIn hr (by omega)).mpr hc)
    rcases ih (by omega) (by omega) with ⟨he, hall⟩ | ⟨h1, h2⟩
    · refine .inl ⟨he, fun b hb1 hb2 => ?_⟩
      by_cases hb : b < va + 4096
      · rw [translate_page (show b / 4096 = va / 4096 by omega), hun]
      · exact hall b (by omega) hb2
    · exact .inr ⟨by omega, h2⟩
  | case3 va hge => exact .inl ⟨rfl, fun b h1 h2 => absurd h2 (by omega)⟩

/-! ## The records of an owner -/

theorem mem_recordsOf {r : Nat × UInt32} : r ∈ recordsOf t ↔
    (∃ a ∈ t.allocations, (a.base, a.pages) = r) ∨
    ∃ a ∈ t.shmAttached, 0 ≤ a.shmid ∧ (a.vaddr, a.pageCount) = r := by
  unfold recordsOf
  simp only [List.mem_append, List.mem_map, List.mem_filter, decide_eq_true_eq, and_assoc]

/-- Each record of `t'` is one of `t`, or of a range that was free. -/
def FreshRecords (s : Phys) (t t' : Owner) : Prop := ∀ r ∈ recordsOf t',
  r ∈ recordsOf t ∨ FreeRange s t ((r.2.toNat + 1) * 4096) r.1

theorem FreeRange.record (h : FreeRange s t span b) {r : Nat × UInt32} (hr : r ∈ recordsOf t) :
    Apart b span r.1 (guardEnd r.1 r.2) := by
  rcases mem_recordsOf.mp hr with ⟨a, ha, rfl⟩ | ⟨a, ha, hid, rfl⟩
  · exact h.allocations a ha
  · exact h.attachments a ha hid

/-- Where the records end is page-aligned. -/
theorem PageAligned.guardEnd (h : PageAligned t) {r : Nat × UInt32} (hr : r ∈ recordsOf t) :
    guardEnd r.1 r.2 % 4096 = 0 := by
  unfold Phys.guardEnd
  rcases mem_recordsOf.mp hr with ⟨a, ha, rfl⟩ | ⟨a, ha, -, rfl⟩
  · have := h.allocations a ha
    simp only
    omega
  · have := h.attachments a ha
    simp only
    omega

/-- **One round over the records**: nothing is in the way, or every base up to `skip` is not
free. -/
theorem skipRecords_spec (h : PageAligned t) (hlt : candidate + span ≤ 2 ^ 48)
    (ha : candidate % 4096 = 0) :
    let skip := skipRecords t span candidate
    (skip = candidate ∧ ∀ r ∈ recordsOf t, Apart candidate span r.1 (guardEnd r.1 r.2)) ∨
    (candidate < skip ∧ skip % 4096 = 0 ∧
      ∀ b, candidate ≤ b → b < skip → ¬ FreeRange s t span b) := by
  have hpast := fun r hr => @skipAll_past span candidate candidate hlt (recordsOf t)
    (Nat.le_refl candidate) r hr
  intro skip
  have hskip : skip = skipAll (recordsOf t) span candidate candidate := skipRecords_eq ..
  rw [← hskip] at hpast
  rcases skipAll_cases hlt (recordsOf t) (Nat.le_refl candidate) with he | ⟨r, hr, hn, he⟩
  · rw [← hskip] at he
    refine .inl ⟨he, fun r hr => ?_⟩
    by_contra hn
    have h1 := hpast r hr hn
    unfold Apart at hn
    omega
  · rw [← hskip] at he
    have hal := h.guardEnd hr
    unfold Apart at hn
    refine .inr ⟨by omega, by omega, fun b h1 h2 hf => ?_⟩
    rcases hf.record hr with hb | hb
    · omega
    · omega

/-- **One round over the pages.** -/
theorem skipMapped_free (hr : t.pml4 ≠ 0) (hlt : candidate + span ≤ 0x800000000000)
    (ha : candidate % 4096 = 0)
    (hrec : ∀ r ∈ recordsOf t, Apart candidate span r.1 (guardEnd r.1 r.2)) :
    let skip := s.skipMapped t.pml4 (candidate + span) candidate candidate
    (skip = candidate ∧ FreeRange s t span candidate) ∨
    (candidate < skip ∧ skip % 4096 = 0 ∧
      ∀ b, candidate ≤ b → b < skip → b % 4096 = 0 → ¬ FreeRange s t span b) := by
  intro skip
  rcases skipMapped_spec hr hlt ha (Nat.le_refl candidate) with ⟨he, hall⟩ | ⟨h1, h2, h3, h4⟩
  · refine .inl ⟨he, hall, fun a hm => ?_, fun a hm hid => ?_⟩
    · exact hrec (a.base, a.pages) (mem_recordsOf.mpr (.inl ⟨a, hm, rfl⟩))
    · exact hrec (a.vaddr, a.pageCount) (mem_recordsOf.mpr (.inr ⟨a, hm, hid, rfl⟩))
  · -- every base up to the mapped page covers it
    refine .inr ⟨h1, h2, fun b hb1 hb2 hb3 hf => h4 (hf.unmapped _ ?_ ?_)⟩
    · omega
    · omega

/-! ## The search -/

theorem findLoop_spec (h : PageAligned t) (hr : t.pml4 ≠ 0) {last : Nat}
    (hlast : last + span ≤ 0x800000000000) (ha : candidate % 4096 = 0) (h0 : 0 < candidate) :
    let r := s.findLoop t span last candidate
    (r = 0 ∧ ∀ b, candidate ≤ b → b ≤ last → b % 4096 = 0 → ¬ FreeRange s t span b) ∨
    (candidate ≤ r ∧ r ≤ last ∧ r % 4096 = 0 ∧ FreeRange s t span r ∧
      ∀ b, candidate ≤ b → b < r → b % 4096 = 0 → ¬ FreeRange s t span b) := by
  -- a round that skips from `candidate` to `skip` over bases that are not free
  have hjump : ∀ {candidate skip r : Nat}, candidate < skip →
      (∀ b, candidate ≤ b → b < skip → b % 4096 = 0 → ¬ FreeRange s t span b) →
      ((r = 0 ∧ ∀ b, skip ≤ b → b ≤ last → b % 4096 = 0 → ¬ FreeRange s t span b) ∨
        (skip ≤ r ∧ r ≤ last ∧ r % 4096 = 0 ∧ FreeRange s t span r ∧
          ∀ b, skip ≤ b → b < r → b % 4096 = 0 → ¬ FreeRange s t span b)) →
      (r = 0 ∧ ∀ b, candidate ≤ b → b ≤ last → b % 4096 = 0 → ¬ FreeRange s t span b) ∨
      (candidate ≤ r ∧ r ≤ last ∧ r % 4096 = 0 ∧ FreeRange s t span r ∧
        ∀ b, candidate ≤ b → b < r → b % 4096 = 0 → ¬ FreeRange s t span b) := by
    intro candidate skip r hlt hno hrest
    rcases hrest with ⟨he, hall⟩ | ⟨h1, h2, h3, h4, h5⟩
    · refine .inl ⟨he, fun b hb1 hb2 hb3 => ?_⟩
      by_cases hb : b < skip
      · exact hno b hb1 hb hb3
      · exact hall b (by omega) hb2 hb3
    · refine .inr ⟨by omega, h2, h3, h4, fun b hb1 hb2 hb3 => ?_⟩
      by_cases hb : b < skip
      · exact hno b hb1 hb hb3
      · exact h5 b (by omega) hb2 hb3
  fun_induction findLoop s t span last candidate with
  | case1 candidate hle skip hne ih =>
    rcases @skipRecords_spec s t span candidate h (by omega) ha with ⟨he, -⟩ | ⟨h1, h2, h3⟩
    · exact absurd he hne
    · exact hjump h1 (fun b hb1 hb2 _ => h3 b hb1 hb2) (ih h2 (by omega))
  | case2 candidate hle _ he skip hskip =>
    rcases @skipRecords_spec s t span candidate h (by omega) ha with ⟨-, hrec⟩ | ⟨h1, -⟩
    · rcases skipMapped_free hr (by omega) ha hrec with ⟨-, hf⟩ | ⟨h1, -⟩
      · exact .inr ⟨Nat.le_refl _, hle, ha, hf, fun b hb1 hb2 => absurd hb2 (by omega)⟩
      · exact absurd hskip (by omega)
    · exact absurd h1 (by omega)
  | case3 candidate hle _ he skip hskip ih =>
    rcases @skipRecords_spec s t span candidate h (by omega) ha with ⟨-, hrec⟩ | ⟨h1, -⟩
    · rcases skipMapped_free hr (by omega) ha hrec with ⟨he, -⟩ | ⟨h1, h2, h3⟩
      · exact absurd he hskip
      · exact hjump h1 h3 (ih h2 (by omega))
    · exact absurd h1 (by omega)
  | case4 candidate hgt => exact .inl ⟨rfl, fun b hb1 hb2 => absurd hb2 (by omega)⟩

/-- The bases the caller asks for. -/
def Candidate (s : Phys) (t : Owner) (start stop span b : Nat) : Prop :=
  start ≤ b ∧ b + span ≤ stop ∧ b % 4096 = 0 ∧ FreeRange s t span b

/-- What the search returns. -/
theorem userFindFreeRange_spec (s : Phys) (t : Owner) (start stop : Nat) (pages : UInt32)
    (h : PageAligned t) (hr : t.pml4 ≠ 0) (hpages : pages ≠ 0) (ha : start % 4096 = 0)
    (h0 : 0 < start) (hw : start < stop) (hstop : stop ≤ 0x800000000000) :
    let span := (pages.toNat + 1) * 4096
    let r := s.userFindFreeRange t start stop pages
    (r ≠ 0 → Candidate s t start stop span r ∧ ∀ b, Candidate s t start stop span b → r ≤ b) ∧
    (r = 0 ↔ ¬ ∃ b, Candidate s t start stop span b) := by
  intro span r
  have hp0 : pages.toNat ≠ 0 := fun hz => hpages (UInt32.toNat_inj.mp hz)
  by_cases hfit : span ≤ stop - start
  · have hr' : r = s.findLoop t span (stop - span) start := by
      refine if_neg ?_
      simp only [Bool.or_eq_true, decide_eq_true_eq, beq_iff_eq, bne_iff_ne, ne_eq]
      omega
    rw [hr']
    rcases @findLoop_spec s t span start h hr (stop - span) (by omega) ha h0 with
      ⟨he, hall⟩ | ⟨h1, h2, h3, h4, h5⟩
    · rw [he]
      refine ⟨fun hc => absurd rfl hc, fun _ ⟨b, hb1, hb2, hb3, hb4⟩ => ?_, fun _ => rfl⟩
      exact hall b hb1 (by omega) hb3 hb4
    · refine ⟨fun _ => ⟨⟨h1, by omega, h3, h4⟩, fun b ⟨hb1, _, hb3, hb4⟩ => ?_⟩, fun hz => ?_,
        fun hno => ?_⟩
      · by_contra hlt
        exact h5 b hb1 (by omega) hb3 hb4
      · omega
      · exact absurd ⟨_, h1, by omega, h3, h4⟩ hno
  · have hr' : r = 0 := by
      refine if_pos ?_
      simp only [Bool.or_eq_true, decide_eq_true_eq]
      exact .inr (by omega)
    rw [hr']
    exact ⟨fun hc => absurd rfl hc, fun _ ⟨b, hb1, hb2, _⟩ => by omega, fun _ => rfl⟩

/-- **The search is exact**: it returns the lowest base in the window at which the pages and their
guard are free, and zero if there is none. -/
theorem user_find_free_range_exact (s : Phys) (t : Owner) (start stop : Nat) (pages : UInt32)
    (h : PageAligned t) (hr : t.pml4 ≠ 0) (hpages : pages ≠ 0) (ha : start % 4096 = 0)
    (h0 : 0 < start) (hw : start < stop) (hstop : stop ≤ 0x800000000000) :
    let span := (pages.toNat + 1) * 4096
    let r := s.userFindFreeRange t start stop pages
    (r ≠ 0 → Candidate s t start stop span r ∧ ∀ b, Candidate s t start stop span b → r ≤ b) ∧
    (r = 0 ↔ ¬ ∃ b, Candidate s t start stop span b) :=
  userFindFreeRange_spec s t start stop pages h hr hpages ha h0 hw hstop

/-- An owner without records, over the empty page tables of `smallPhys`. -/
def bareOwner (pml4 : Nat) : Owner := ⟨pml4, [], [], [], 32⟩

theorem smallPhys_unmapped (r va : Nat) : smallPhys.translate r va = none := by
  unfold translate
  split
  · rw [lookup, path_of_dead dead_zero]
    rfl
  · rfl

theorem bareOwner_free (r span b : Nat) : FreeRange smallPhys (bareOwner r) span b :=
  ⟨fun va _ _ => smallPhys_unmapped r va, fun _ h => absurd h List.not_mem_nil,
    fun _ h => absurd h List.not_mem_nil⟩

/-- A request for no pages is refused, although its guard page would fit, and so is one for an owner
without page tables. -/
theorem user_find_free_range_refuses :
    (smallPhys.userFindFreeRange (bareOwner 4096) 0x60000000 0x68000000 0 = 0 ∧
      Candidate smallPhys (bareOwner 4096) 0x60000000 0x68000000 4096 0x60000000) ∧
    (smallPhys.userFindFreeRange (bareOwner 0) 0x60000000 0x68000000 1 = 0 ∧
      Candidate smallPhys (bareOwner 0) 0x60000000 0x68000000 8192 0x60000000) :=
  ⟨⟨rfl, by decide, by decide, by decide, bareOwner_free ..⟩,
    ⟨rfl, by decide, by decide, by decide, bareOwner_free ..⟩⟩

/-- One table of each level, and a page at `0x60005000`. -/
def pagePhys : Phys :=
  { smallPhys with
    mem := fun f i =>
      if f = 0x1000 ∧ i = 0 ∨ f = 0x2000 ∧ i = 1 ∨ f = 0x3000 ∧ i = 256 ∨ f = 0x4000 ∧ i = 5 then
        tableEntry (f + 0x1000)
      else 0#64 }

/-- Of the window, an allocation and its guard take the first two pages, an attachment and its guard
the next three. -/
def fullOwner : Owner :=
  ⟨0x1000, [⟨0x60000000, 4096, 1⟩], [⟨3, 0x60002000, 2⟩, ⟨-1, 0, 0⟩], [], 32⟩

/-- The first two pages after them and the mapped one. -/
theorem fullOwner_free : FreeRange pagePhys fullOwner 8192 0x60006000 := by
  refine ⟨fun va h1 h2 => ?_, by decide, by decide⟩
  have h6 : pagePhys.translate 0x1000 0x60006000 = none := by decide
  have h7 : pagePhys.translate 0x1000 0x60007000 = none := by decide
  by_cases hp : va / 4096 = 0x60006
  · exact (translate_page hp).trans h6
  · exact (translate_page (show va / 4096 = 0x60007000 / 4096 by omega)).trans h7

/-- No base before is free. -/
theorem fullOwner_lowest {b : Nat} (h : Candidate pagePhys fullOwner 0x60000000 0x68000000 8192 b) :
    0x60006000 ≤ b := by
  obtain ⟨hstart, -, hal, hf⟩ := h
  have halloc : Apart b 8192 0x60000000 0x60002000 := hf.allocations _ (List.mem_singleton.mpr rfl)
  have hshm : Apart b 8192 0x60002000 0x60005000 :=
    hf.attachments _ List.mem_cons_self (by decide)
  have hpage : pagePhys.translate 0x1000 0x60005000 ≠ none := by decide
  unfold Apart at halloc hshm
  by_contra hlt
  exact hpage (hf.unmapped 0x60005000 (by omega) (by omega))

theorem user_find_free_range_exact_bare :
    pagePhys.userFindFreeRange fullOwner 0x60000000 0x68000000 1 = 0x60006000 :=
  have h := user_find_free_range_exact pagePhys fullOwner 0x60000000 0x68000000 1
    ⟨by decide, by decide⟩ (by decide) (by decide) (by decide) (by decide) (by decide) (by decide)
  have hfree : Candidate pagePhys fullOwner 0x60000000 0x68000000 8192 0x60006000 :=
    ⟨by decide, by decide, by decide, fullOwner_free⟩
  have hr := h.1 fun hz => h.2.mp hz ⟨_, hfree⟩
  Nat.le_antisymm (hr.2 _ hfree) (fullOwner_lowest hr.1)

end GenOS.Phys
