import GenOS.Mm.VmmMap
import GenOS.Mm.VmmUnmap

/-!
# Ranges of pages

The range unmapper clears the leaves (`clearRun`), then climbs once for each 2 MiB (`pruneRun`); the
range mapper maps page by page and undoes a failure with the range unmapper. `Unmapped`,
`RangeMapped` and `Failed` are the three outcomes.
-/

namespace GenOS.Phys

open Radix Pmm

variable {s s' s'' : Phys} {r : Nat} {I : Slots} {P : List Nat} {va base count : Nat}

/-! ## Pages and indices -/

/-- The indices `k` are those of the page at `va`. -/
def AtPage (k : Nat → Nat) (va : Nat) : Prop := ∀ l ≤ 3, k l = indexAt va l

theorem atPage_self (va : Nat) : AtPage (indexAt va) va := fun _ _ => rfl

theorem canonical_iff : canonical va = true ↔
    va < 0x800000000000 ∨ (0xFFFF800000000000 ≤ va ∧ va < 2 ^ 64) := by
  simp [canonical]

/-- Different pages have different indices. -/
theorem atPage_inj {k : Nat → Nat} {a b : Nat} (ha : AtPage k a) (hb : AtPage k b)
    (hca : canonical a = true) (hcb : canonical b = true) (hpa : a % 4096 = 0)
    (hpb : b % 4096 = 0) : a = b := by
  have h0 := (ha 0 (by decide)).symm.trans (hb 0 (by decide))
  have h1 := (ha 1 (by decide)).symm.trans (hb 1 (by decide))
  have h2 := (ha 2 (by decide)).symm.trans (hb 2 (by decide))
  have h3 := (ha 3 (by decide)).symm.trans (hb 3 (by decide))
  rw [canonical_iff] at hca hcb
  simp only [indexAt] at h0 h1 h2 h3
  omega

/-- A valid range lies in one half. -/
theorem validRange_iff (hc : count < 2 ^ 32) : validRange base count = true ↔
    count ≠ 0 ∧ base % 4096 = 0 ∧ (base + count * 4096 ≤ 0x800000000000 ∨
      (0xFFFF800000000000 ≤ base ∧ base + count * 4096 ≤ 2 ^ 64)) := by
  simp only [validRange, Bool.and_eq_true, bne_iff_ne, ne_eq, beq_iff_eq, canonical_iff,
    decide_eq_true_eq]
  omega

/-- A page of a valid range. -/
theorem validRange_page (hc : count < 2 ^ 32) (h : validRange base count = true) {i : Nat}
    (hi : i < count) : canonical (base + i * 4096) = true ∧ (base + i * 4096) % 4096 = 0 := by
  rw [validRange_iff hc] at h
  rw [canonical_iff]
  omega

theorem validRange_prefix (hc : count < 2 ^ 32) (h : validRange base count = true) {m : Nat}
    (hm : m ≤ count) (h0 : m ≠ 0) : validRange base m = true := by
  rw [validRange_iff hc] at h
  rw [validRange_iff (by omega)]
  omega

/-! ## The 2 MiB blocks of a range -/

theorem or_low_ones (x n : Nat) : x ||| (2 ^ n - 1) = x / 2 ^ n * 2 ^ n + (2 ^ n - 1) := by
  have hlt : 2 ^ n - 1 < 2 ^ n := Nat.sub_lt (Nat.two_pow_pos n) Nat.one_pos
  apply Nat.eq_of_testBit_eq
  intro i
  rw [Nat.testBit_or, Nat.testBit_two_pow_sub_one, Nat.mul_comm, Nat.testBit_two_pow_mul_add _ hlt]
  by_cases hi : i < n
  · simp [hi, Nat.testBit_two_pow_sub_one]
  · simp only [hi, decide_false, Bool.or_false, ↓reduceIte]
    rw [Nat.testBit_div_two_pow, Nat.sub_add_cancel (by omega)]

/-- **The loop over the page tables ends**, after one round for each 2 MiB block, and its address
never wraps. -/
theorem chunks_eq : ∀ {fuel va last : Nat}, va ≤ last → last < 2 ^ 64 →
    last / 2 ^ 21 - va / 2 ^ 21 < fuel →
    chunks fuel va last = some (va ::
      (List.range' (va / 2 ^ 21 + 1) (last / 2 ^ 21 - va / 2 ^ 21)).map (· * 2 ^ 21))
  | 0, va, last, _, _, h => absurd h (Nat.not_lt_zero _)
  | fuel + 1, va, last, h1, h2, h3 => by
    simp only [chunks]
    split
    · rename_i he
      rw [he, Nat.sub_self]
      rfl
    · rename_i hne
      have hlt : va / 2 ^ 21 < last / 2 ^ 21 := by omega
      have hnext : ((va ||| (2 ^ 21 - 1)) + 1) % 2 ^ 64 = (va / 2 ^ 21 + 1) * 2 ^ 21 := by
        rw [or_low_ones, Nat.mod_eq_of_lt (by omega)]
        omega
      have hdiv : (va / 2 ^ 21 + 1) * 2 ^ 21 / 2 ^ 21 = va / 2 ^ 21 + 1 := by omega
      rw [hnext, chunks_eq (by omega) h2 (by rw [hdiv]; omega), hdiv]
      have : last / 2 ^ 21 - va / 2 ^ 21 = last / 2 ^ 21 - (va / 2 ^ 21 + 1) + 1 := by omega
      rw [this, List.range'_succ]
      rfl

/-- The blocks of a valid range. -/
def blocks (base count : Nat) : List Nat :=
  base :: (List.range' (base / 2 ^ 21 + 1)
    ((base + (count - 1) * 4096) / 2 ^ 21 - base / 2 ^ 21)).map (· * 2 ^ 21)

theorem chunks_blocks (hc : count < 2 ^ 32) (h : validRange base count = true) :
    chunks count base (base + (count - 1) * 4096) = some (blocks base count) := by
  rw [validRange_iff hc] at h
  exact chunks_eq (by omega) (by omega) (by omega)

/-- Addresses in different 2 MiB blocks. -/
def Diverge (a b : Nat) : Prop := ∃ l, 1 ≤ l ∧ l ≤ 3 ∧ indexAt b l ≠ indexAt a l

theorem diverge_of_block {a b : Nat} (ha : canonical a = true) (hb : canonical b = true)
    (hne : a / 2 ^ 21 ≠ b / 2 ^ 21) : Diverge a b := by
  by_contra hc
  simp only [Diverge, not_exists, not_and, ne_eq, not_not] at hc
  have h1 := hc 1 (by decide) (by decide)
  have h2 := hc 2 (by decide) (by decide)
  have h3 := hc 3 (by decide) (by decide)
  rw [canonical_iff] at ha hb
  simp only [indexAt] at h1 h2 h3
  omega

theorem mem_blocks (hc : count < 2 ^ 32) (h : validRange base count = true) {a : Nat}
    (ha : a ∈ blocks base count) : base ≤ a ∧ a ≤ base + (count - 1) * 4096 := by
  rw [validRange_iff hc] at h
  rcases List.mem_cons.mp ha with rfl | ha
  · omega
  · obtain ⟨q, hq, rfl⟩ := List.mem_map.mp ha
    have := List.mem_range'_1.mp hq
    omega

theorem canonical_between (hc : count < 2 ^ 32) (h : validRange base count = true) {a : Nat}
    (h1 : base ≤ a) (h2 : a ≤ base + (count - 1) * 4096) : canonical a = true ∧ a < 2 ^ 64 := by
  rw [validRange_iff hc] at h
  rw [canonical_iff]
  omega

theorem blocks_pairwise (hc : count < 2 ^ 32) (h : validRange base count = true) :
    (blocks base count).Pairwise Diverge := by
  have hcan : ∀ a ∈ blocks base count, canonical a = true := fun a ha =>
    (canonical_between hc h (mem_blocks hc h ha).1 (mem_blocks hc h ha).2).1
  have hlt : (blocks base count).Pairwise fun a b => a / 2 ^ 21 < b / 2 ^ 21 := by
    refine List.pairwise_cons.mpr ⟨fun b hb => ?_, ?_⟩
    · obtain ⟨q, hq, rfl⟩ := List.mem_map.mp hb
      have := List.mem_range'_1.mp hq
      omega
    · rw [List.pairwise_map]
      exact (List.pairwise_lt_range' 1).imp fun {a b} hab => by omega
  exact hlt.imp_of_mem fun {a b} ha hb hab =>
    diverge_of_block (hcan a ha) (hcan b hb) (Nat.ne_of_lt hab)

/-- Every page of the range is in one of the blocks. -/
theorem exists_block {i : Nat} (hi : i < count) :
    ∃ a ∈ blocks base count, ∀ l, 1 ≤ l → l ≤ 3 → indexAt a l = indexAt (base + i * 4096) l := by
  have key : ∀ a, a / 2 ^ 21 = (base + i * 4096) / 2 ^ 21 →
      ∀ l, 1 ≤ l → l ≤ 3 → indexAt a l = indexAt (base + i * 4096) l := fun a ha l h1 h2 => by
    have : l = 1 ∨ l = 2 ∨ l = 3 := by omega
    rcases this with rfl | rfl | rfl <;> simp only [indexAt] <;> omega
  by_cases h0 : (base + i * 4096) / 2 ^ 21 = base / 2 ^ 21
  · exact ⟨base, List.mem_cons_self, key _ h0.symm⟩
  · refine ⟨(base + i * 4096) / 2 ^ 21 * 2 ^ 21, List.mem_cons_of_mem _ (List.mem_map.mpr
      ⟨(base + i * 4096) / 2 ^ 21, List.mem_range'_1.mpr ?_, rfl⟩), key _ (by omega)⟩
    omega

/-! ## Clearing the leaves -/

/-- The indices `k` have a last-level table. -/
def HasTable (s : Phys) (r : Nat) (k : Nat → Nat) : Prop :=
  ∃ t es, Walk pageShape s.mem k 3 r 0 t es

/-- The pages `V` were unmapped. The tables `E` may be empty afterwards. -/
structure Unmapped (r : Nat) (I : Slots) (s s' : Phys) (V : (Nat → Nat) → Prop) : Prop where
  eff : Eff r I s [] s' []
  gone : ∀ k, pageShape.InRange k → k 3 ∈ I.idx → V k → s.HasTable r k → s'.lookup r k = none
  view : ∀ k, pageShape.InRange k → k 3 ∈ I.idx → ¬ (V k ∧ s.HasTable r k) →
    s'.lookup r k = s.lookup r k
  cut : Cut r I s s'
  full : ∀ E, Top s r I E → s.Full r I E → s'.Full r I E

/-- The leaves of the pages `va i`, `i < n`, were cleared; the tables still stand. -/
structure ClearRun (r : Nat) (I : Slots) (va : Nat → Nat) (n : Nat) (s s' : Phys) : Prop where
  idx : ∀ i < n, indexAt (va i) 3 ∈ I.idx
  eff : Eff r I s [] s' []
  cut : Cut r I s s'
  walks : ∀ k, pageShape.InRange k → k 3 ∈ I.idx → ∀ l u es,
    Walk pageShape s.mem k 3 r l u es → Walk pageShape s'.mem k 3 r l u es
  gone : ∀ k, pageShape.InRange k → k 3 ∈ I.idx → (∃ i < n, AtPage k (va i)) → s.HasTable r k →
    s'.lookup r k = none
  view : ∀ k, pageShape.InRange k → k 3 ∈ I.idx →
    ¬ ((∃ i < n, AtPage k (va i)) ∧ s.HasTable r k) → s'.lookup r k = s.lookup r k
  full : ∀ E : Nat → Prop, s.Full r I E →
    s'.Full r I fun g => E g ∨ ∃ i < n, ∃ es, s'.Reaches r (va i) 0 g es

theorem AtPage.key {k : Nat → Nat} (h : AtPage k va) (hI : k 3 ∈ I.idx) :
    indexAt va 3 ∈ I.idx := h 3 (by decide) ▸ hI

theorem AtPage.lookup {k : Nat → Nat} (h : AtPage k va) : s.lookup r k = s.lookup r (indexAt va) :=
  path_key h

theorem AtPage.walk {k : Nat → Nat} {l u : Nat} {es : List Word} (h : AtPage k va)
    (hw : Walk pageShape s.mem k 3 r l u es) : s.Reaches r va l u es :=
  hw.agree fun l _ hl => (h l hl).symm

/-- A last-level table with a dead word at `k` ends the lookup. -/
theorem lookup_of_dead {k : Nat → Nat} {t : Nat} {es : List Word}
    (hw : Walk pageShape s.mem k 3 r 0 t es) (hd : (s.mem t (k 0)).has ptePresent = false) :
    s.lookup r k = none := by
  rw [Phys.lookup, hw.path_eq, path_of_dead (L := 0) hd]
  rfl

theorem ClearRun.refl (ht : s.Tree r I []) (va : Nat → Nat) : ClearRun r I va 0 s s :=
  ⟨fun _ h => absurd h (Nat.not_lt_zero _), .refl ht, .refl, fun _ _ _ _ _ _ h => h,
    fun _ _ _ ⟨_, h, _⟩ => absurd h (Nat.not_lt_zero _), fun _ _ _ _ => rfl,
    fun _ h g hg => (h g hg).imp_left .inl⟩

theorem ClearRun.idx_succ {va : Nat → Nat} {n : Nat} (h : ClearRun r I va n s s')
    (hI : indexAt (va n) 3 ∈ I.idx) : ∀ i < n + 1, indexAt (va i) 3 ∈ I.idx := fun i hi => by
  rcases Nat.lt_or_eq_of_le (Nat.le_of_lt_succ hi) with hlt | rfl
  · exact h.idx i hlt
  · exact hI

/-- One more page, without a leaf. -/
theorem ClearRun.skip {va : Nat → Nat} {n : Nat} (h : ClearRun r I va n s s')
    (hI : indexAt (va n) 3 ∈ I.idx)
    (hd : ∀ t es, s'.Reaches r (va n) 0 t es →
      (s'.mem t (indexAt (va n) 0)).has ptePresent = false) :
    ClearRun r I va (n + 1) s s' := by
  refine ⟨h.idx_succ hI, h.eff, h.cut, h.walks, fun k hk hkI ⟨i, hi, hat⟩ hT => ?_,
    fun k hk hkI hV => ?_, fun E hE g hg => ?_⟩
  · rcases Nat.lt_or_eq_of_le (Nat.le_of_lt_succ hi) with hlt | rfl
    · exact h.gone k hk hkI ⟨i, hlt, hat⟩ hT
    · obtain ⟨t, es, hw⟩ := hT
      have hw' := h.walks k hk hkI 0 t es hw
      refine lookup_of_dead hw' ?_
      rw [hat 0 (by decide)]
      exact hd t es (hat.walk hw')
  · exact h.view k hk hkI fun ⟨⟨i, hi, hat⟩, hT⟩ => hV ⟨⟨i, Nat.lt_succ_of_lt hi, hat⟩, hT⟩
  · refine (h.full E hE g hg).imp_left fun h => h.imp_right ?_
    rintro ⟨i, hi, hr⟩
    exact ⟨i, Nat.lt_succ_of_lt hi, hr⟩

/-- One more page, whose leaf is cleared. -/
theorem ClearRun.clear {va : Nat → Nat} {n t : Nat} {es : List Word} (h : ClearRun r I va n s s')
    (hI : indexAt (va n) 3 ∈ I.idx) (hw : s'.Reaches r (va n) 0 t es) :
    ClearRun r I va (n + 1) s (s'.store t (indexAt (va n) 0) 0#64) := by
  have ht := h.eff.tree
  have hkn := inRange_indexAt (va n)
  obtain ⟨heff, hperm, hview⟩ := ht.setLeaf hw hI 0#64
  have hkeep : ∀ k, pageShape.InRange k → k 3 ∈ I.idx → ∀ l u ds,
      Walk pageShape s'.mem k 3 r l u ds →
      Walk pageShape (s'.store t (indexAt (va n) 0) 0#64).mem k 3 r l u ds :=
    fun k hk hkI l u ds hwk => Walk.put_survives hw hwk 0#64 hkn hI ht.nodup_tables hk hkI
      (.inl (Nat.zero_le l))
  have hcut : Cut r I s' (s'.store t (indexAt (va n) 0) 0#64) :=
    .of_store (fun g hg => hperm.mem_iff.mp hg) fun g hg hg' => absurd (hperm.mem_iff.mpr hg) hg'
  refine ⟨h.idx_succ hI, h.eff.trans heff, h.cut.trans hcut,
    fun k hk hkI l u ds hwk => hkeep k hk hkI l u ds (h.walks k hk hkI l u ds hwk),
    fun k hk hkI ⟨i, hi, hat⟩ hT => ?_, fun k hk hkI hV => ?_, fun E hE g hg => ?_⟩
  · rw [hview k hk hkI, Word.has_zero]
    split
    · rfl
    · rename_i hne
      have hin : i ≠ n := fun he => hne (he ▸ hat)
      exact h.gone k hk hkI ⟨i, by omega, hat⟩ hT
  · rw [hview k hk hkI]
    split
    · rename_i hat
      refine absurd ⟨⟨n, Nat.lt_succ_self n, hat⟩, t, es, ?_⟩ hV
      exact h.cut.walk (Walk.agree hw fun l _ hl => hat l hl)
    · exact h.view k hk hkI fun ⟨⟨i, hi, hat⟩, hT⟩ => hV ⟨⟨i, Nat.lt_succ_of_lt hi, hat⟩, hT⟩
  · rcases h.full E hE g (hperm.mem_iff.mp hg) with (he | ⟨i, hi, ds, hr⟩) | ⟨i, hi, hl⟩
    · exact .inl (.inl he)
    · exact .inl (.inr ⟨i, Nat.lt_succ_of_lt hi, ds,
        hkeep _ (inRange_indexAt _) (h.idx i hi) 0 g ds hr⟩)
    · by_cases hgt : g = t
      · exact .inl (.inr ⟨n, Nat.lt_succ_self n, es, hgt ▸ hkeep _ hkn hI 0 t es hw⟩)
      · refine .inr ⟨i, hi, ?_⟩
        show pageShape.live (put s'.mem t _ 0#64 g i) = true
        rwa [put_ne_table hgt]

/-- **The leaf loop.** If it removed nothing it changed nothing. -/
theorem clearRun (ht : s.Tree r I []) (hr : r ≠ 0) :
    ∀ n : Nat, (∀ i < n, canonical (base + i * 4096) = true ∧
        indexAt (base + i * 4096) 3 ∈ I.idx) →
      let res := (List.range n).foldl (clearLeaf r base) (0, s)
      ClearRun r I (fun i => base + i * 4096) n s res.2 ∧ (res.1 = 0 → res.2 = s)
  | 0, _ => ⟨.refl ht _, fun _ => rfl⟩
  | n + 1, h => by
    obtain ⟨ih, ih0⟩ := clearRun ht hr n fun i hi => h i (Nat.lt_succ_of_lt hi)
    obtain ⟨hc, hI⟩ := h n (Nat.lt_succ_self n)
    rw [List.range_succ, List.foldl_append, List.foldl_cons, List.foldl_nil]
    generalize (List.range n).foldl (clearLeaf r base) (0, s) = acc at ih ih0
    simp only [clearLeaf]
    rcases vmmPteIn_spec acc.2 hr hc with ⟨he, hd⟩ | ⟨t, es, he, hw, -⟩
    · rw [he]
      exact ⟨ih.skip hI hd, ih0⟩
    · rw [he]
      exact ⟨ih.clear hI hw, fun h => by cases h⟩

/-! ## Pruning the blocks -/

/-- What the climbs from the addresses `L` do. -/
structure PruneRun (r : Nat) (I : Slots) (L : List Nat) (s : Phys) (P : List Nat) (s' : Phys)
    (P' : List Nat) : Prop where
  eff : Eff r I s P s' P'
  view : SameView r I s s'
  cut : Cut r I s s'
  full : ∀ E : Nat → Prop, Top s r I E →
    s.Full r I (fun g => E g ∨ ∃ va ∈ L, ∃ es, s.Reaches r va 0 g es) → s'.Full r I E

theorem pruneChunk_spec (R : Retired) (ht : s.Tree r I R.1) (hI : indexAt va 3 ∈ I.idx)
    (hva : va < 2 ^ 64) :
    (pruneChunk r (R, s) va = (R, s) ∧ ∀ t es, ¬ s.Reaches r va 0 t es) ∨
    ∃ t es, s.Reaches r va 0 t es ∧
      Climb r I va t s R.1 (pruneChunk r (R, s) va).2 (pruneChunk r (R, s) va).1.1 := by
  simp only [pruneChunk]
  rcases descend_root s r va with ⟨he, hn⟩ | ⟨t, slots, es, he, hw, htr⟩
  · rw [he]
    exact .inl ⟨rfl, hn⟩
  · rw [he]
    exact .inr ⟨t, es, hw, prune_spec (pusher_retireTable r I) hI hva ht hw htr⟩

theorem pruneRun : ∀ {L : List Nat} (R : Retired) {s : Phys}, s.Tree r I R.1 →
    (∀ va ∈ L, indexAt va 3 ∈ I.idx ∧ va < 2 ^ 64) → L.Pairwise Diverge →
    PruneRun r I L s R.1 (L.foldl (pruneChunk r) (R, s)).2 (L.foldl (pruneChunk r) (R, s)).1.1
  | [], R, s, ht, _, _ => ⟨.refl ht, .refl, .refl, fun E _ h g hg => (h g hg).imp_left fun h =>
      h.resolve_right fun ⟨_, h, _⟩ => absurd h List.not_mem_nil⟩
  | va :: L, R, s, ht, hL, hd => by
    rw [List.foldl_cons]
    obtain ⟨hI, hva⟩ := hL va List.mem_cons_self
    have hd := List.pairwise_cons.mp hd
    rcases pruneChunk_spec R ht hI hva with ⟨he, hn⟩ | ⟨t, es, hw, hcl⟩
    · rw [he]
      have ih := pruneRun R ht (fun v hv => hL v (List.mem_cons_of_mem _ hv)) hd.2
      refine ⟨ih.eff, ih.view, ih.cut, fun E hE h => ih.full E hE fun g hg => ?_⟩
      refine (h g hg).imp_left fun h => h.imp_right ?_
      rintro ⟨v, hv, ds, hr⟩
      rcases List.mem_cons.mp hv with rfl | hv
      · exact absurd hr (hn g ds)
      · exact ⟨v, hv, ds, hr⟩
    · have ih := @pruneRun L (pruneChunk r (R, s) va).1 _ hcl.eff.tree
        (fun v hv => hL v (List.mem_cons_of_mem _ hv)) hd.2
      refine ⟨hcl.eff.trans ih.eff, hcl.view.trans ih.view, hcl.cut.trans ih.cut,
        fun E hE h => ih.full E (hE.cut hcl.cut) ?_⟩
      -- after this climb only the tables of the remaining blocks may still be empty
      have hfull := hcl.full (fun g => E g ∨ ∃ v ∈ L, ∃ ds, s.Reaches r v 0 g ds)
        (hE.mono fun _ => .inl) fun g hg => ?_
      · intro g hg
        refine (hfull g hg).imp_left fun h => h.imp_right ?_
        rintro ⟨v, hv, ds, hr⟩
        exact ⟨v, hv, ds, hcl.others _ (inRange_indexAt v) (hL v (List.mem_cons_of_mem _ hv)).1
          (hd.1 v hv) g ds hr⟩
      · refine (h g hg).imp_left ?_
        rintro (h | ⟨v, hv, ds, hr⟩)
        · exact .inl (.inl h)
        · rcases List.mem_cons.mp hv with rfl | hv
          · exact .inr (Walk.unique hw hr).1
          · exact .inl (.inr ⟨v, hv, ds, hr⟩)

/-! ## The unmappers -/

/-- The page `k` is one of the range. -/
def InPages (base count : Nat) (k : Nat → Nat) : Prop := ∃ i < count, AtPage k (base + i * 4096)

/-- **`vmm_unmap_pages_in`** on a valid range. -/
theorem vmmUnmapPagesIn_spec (ht : s.Tree r I []) (hr : r ≠ 0) (hc : count < 2 ^ 32)
    (hv : validRange base count = true)
    (hI : ∀ a, base ≤ a → a ≤ base + (count - 1) * 4096 → indexAt a 3 ∈ I.idx) :
    Unmapped r I s (s.vmmUnmapPagesIn r base count).2 (InPages base count) := by
  obtain ⟨hcl, h0⟩ := @clearRun s r I base ht hr count fun i hi =>
    ⟨(validRange_page hc hv hi).1, hI _ (by omega) (by omega)⟩
  unfold vmmUnmapPagesIn
  simp only [hr, hv, decide_false, Bool.not_true, Bool.or_self, Bool.false_eq_true, ↓reduceIte]
  generalize (List.range count).foldl (clearLeaf r base) (0, s) = acc at hcl h0
  split
  · rename_i hz
    have he := h0 hz
    rw [he] at hcl
    show Unmapped r I s acc.2 _
    rw [he]
    exact ⟨.refl ht, hcl.gone, fun _ _ _ _ => rfl, .refl, fun _ _ h => h⟩
  · rw [chunks_blocks hc hv, Option.getD_some]
    have hL : ∀ a ∈ blocks base count, indexAt a 3 ∈ I.idx ∧ a < 2 ^ 64 := fun a ha => by
      obtain ⟨h1, h2⟩ := mem_blocks hc hv ha
      exact ⟨hI a h1 h2, (canonical_between hc hv h1 h2).2⟩
    have hrun := pruneRun ⟨[], by decide⟩ hcl.eff.tree hL (blocks_pairwise hc hv)
    generalize (blocks base count).foldl (pruneChunk r) (⟨[], by decide⟩, acc.2) = acc' at hrun
    have hrel : Eff r I acc'.2 acc'.1.1 (acc'.2.releaseTables acc'.1.1) [] := by
      have := @Tree.releaseAll acc'.2 r I [] acc'.1.1 (by rw [List.append_nil]; exact hrun.eff.tree)
      rwa [List.append_nil] at this
    have hmem : (acc'.2.releaseTables acc'.1.1).mem = acc'.2.mem := foldl_freeFrame_mem _ _
    have hview : ∀ k, pageShape.InRange k → k 3 ∈ I.idx →
        (acc'.2.releaseTables acc'.1.1).lookup r k = acc.2.lookup r k := fun k hk hkI => by
      rw [lookup, hmem]
      exact hrun.view k hk hkI
    refine ⟨(hcl.eff.trans hrun.eff).trans hrel, fun k hk hkI hV hT => ?_, fun k hk hkI hV => ?_,
      (hcl.cut.trans hrun.cut).trans (.of_mem hmem), fun E hE hf g hg => ?_⟩
    · rw [hview k hk hkI]
      exact hcl.gone k hk hkI hV hT
    · rw [hview k hk hkI]
      exact hcl.view k hk hkI hV
    · rw [tables_congr_mem hmem] at hg
      rw [hmem]
      refine hrun.full E (hE.cut hcl.cut) (fun g hg => ?_) g hg
      refine (hcl.full E hf g hg).imp_left fun h => h.imp_right ?_
      rintro ⟨i, hi, es, hw⟩
      obtain ⟨a, ha, hl⟩ := @exists_block base count i hi
      exact ⟨a, ha, es, Walk.agree hw fun l h1 h2 => hl l h1 h2⟩

/-- **`vmm_unmap_page_in`**: there is no leaf and nothing changes, or the page is unmapped and the
address of its frame is returned. -/
theorem vmmUnmapPageIn_spec (ht : s.Tree r I []) (hr : r ≠ 0) (hc : canonical va = true)
    (ha : va % 4096 = 0) (hI : indexAt va 3 ∈ I.idx) :
    (s.vmmUnmapPageIn r va = (0#64, s) ∧
      ∀ t es, s.Reaches r va 0 t es → (s.mem t (indexAt va 0)).has ptePresent = false) ∨
    ∃ t es, s.Reaches r va 0 t es ∧ (s.mem t (indexAt va 0)).has ptePresent = true ∧
      (s.vmmUnmapPageIn r va).1 = vmmPteAddress (s.mem t (indexAt va 0)) ∧
      Unmapped r I s (s.vmmUnmapPageIn r va).2 (fun k => AtPage k va) ∧
      (0xFFFF800000000000 ≤ va → (s.vmmUnmapPageIn r va).2.mem r = s.mem r) := by
  have hva : va < 2 ^ 64 := by
    rw [canonical_iff] at hc
    omega
  unfold vmmUnmapPageIn
  simp only [hr, hc, ha, decide_false, Bool.not_true, Bool.or_self, bne_self_eq_false,
    Bool.false_eq_true, ↓reduceIte]
  rcases descend_root s r va with ⟨he, hn⟩ | ⟨t, slots, es, he, hw, htr⟩
  · rw [he]
    exact .inl ⟨rfl, fun t es h => absurd h (hn t es)⟩
  · rw [he]
    simp only
    split
    · rename_i hd
      refine .inl ⟨rfl, fun t' es' hw' => ?_⟩
      obtain ⟨rfl, -⟩ := Walk.unique hw hw'
      simpa using hd
    · rename_i hl
      have hl : (s.mem t (indexAt va 0)).has ptePresent = true := by simpa using hl
      have hcl := (ClearRun.refl ht fun _ => va).clear hI hw
      have hw' : (s.store t (indexAt va 0) 0#64).Reaches r va 0 t es :=
        hcl.walks _ (inRange_indexAt va) hI 0 t es hw
      have htr' : Trail (s.store t (indexAt va 0) 0#64) r va 0 slots :=
        htr.mono fun l c ds _ h => hcl.walks _ (inRange_indexAt va) hI l c ds h
      have hcb := @prune_spec r I va _ _ _ (pusher_cons r I) hI hva slots 0 t [] _ es
        hcl.eff.tree hw' htr'
      refine .inr ⟨t, es, hw, hl, rfl, ?_⟩
      generalize Phys.prune (fun frame (retired : List Nat) s => (frame :: retired, s)) va slots []
        (s.store t (indexAt va 0) 0#64) = res at hcb
      have hrel : Eff r I res.2 res.1 (res.1.foldl freeFrame res.2) [] := by
        have := @Tree.releaseAll res.2 r I [] res.1 (by rw [List.append_nil]; exact hcb.eff.tree)
        rwa [List.append_nil] at this
      have hmem : (res.1.foldl freeFrame res.2).mem = res.2.mem := foldl_freeFrame_mem _ _
      have hview : ∀ k, pageShape.InRange k → k 3 ∈ I.idx →
          (res.1.foldl freeFrame res.2).lookup r k = (s.store t (indexAt va 0) 0#64).lookup r k :=
        fun k hk hkI => by
          rw [lookup, hmem]
          exact hcb.view k hk hkI
      refine ⟨⟨(hcl.eff.trans hcb.eff).trans hrel, fun k hk hkI hV hT => ?_, fun k hk hkI hV => ?_,
        (hcl.cut.trans hcb.cut).trans (.of_mem hmem), fun E hE hf g hg => ?_⟩, fun hu => ?_⟩
      · rw [hview k hk hkI]
        exact hcl.gone k hk hkI ⟨0, Nat.one_pos, hV⟩ hT
      · rw [hview k hk hkI]
        refine hcl.view k hk hkI ?_
        rintro ⟨⟨_, _, hV'⟩, hT⟩
        exact hV ⟨hV', hT⟩
      · rw [tables_congr_mem hmem] at hg
        rw [hmem]
        refine hcb.full E (hE.cut hcl.cut) (fun g hg => ?_) g hg
        refine (hcl.full E hf g hg).imp_left fun h => h.imp_right ?_
        rintro ⟨_, _, ds, hr⟩
        exact (Walk.unique hw' hr).1
      · rw [hmem, hcb.root hu]
        exact put_ne_table (ht.ne_root hw hI (by decide)).symm

end GenOS.Phys
