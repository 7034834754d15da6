import Mathlib.Tactic.Tauto
import GenOS.Fs.CacheList

/-!
# The invariant of the buffer cache

The entries on the LRU list are the valid ones, and each is on the hash chain of its own tag.
`cache_get_block` puts the entry that it returns in front: a valid one with the tag asked for, a
free one, or, when all blocks are in use, the last one of the LRU list with a new tag.
-/

namespace GenOS

/-- An entry without its links. -/
def CacheEntry.unlinked (x : CacheEntry) : CacheEntry :=
  { x with lruPrev := none, lruNext := none, hashNext := none }

namespace Cache

open Chain

variable {c c' : Cache} {lru : List Nat} {chain : Nat → List Nat} {e b : Nat} {name : List UInt8}
  {bi : Nat}

/-- The lists hold the valid entries, each chain those of its bucket. -/
structure Structured (c : Cache) (lru : List Nat) (chain : Nat → List Nat) : Prop extends
    Linkage c lru chain where
  mem : ∀ e, e ∈ lru ↔ e < cacheMaxBlocks ∧ (c.pool e).valid = true
  hashed : ∀ b e, e ∈ chain b ↔
    e ∈ lru ∧ cacheHash (c.pool e).name (c.pool e).blockIndex = b
  used : c.usedBlocks = lru.length
  hint : c.freeHint < cacheMaxBlocks

theorem SameLru.unlinked (h : SameLru c c') (x : Nat) :
    (c'.pool x).unlinked = (c.pool x).unlinked := by
  rw [h.pool x]
  rfl

theorem SameHash.unlinked (h : SameHash c c') (x : Nat) :
    (c'.pool x).unlinked = (c.pool x).unlinked := by
  rw [h.pool x]
  rfl

/-- What entries without links agree on. -/
theorem unlinked_eq {x y : CacheEntry} (h : x.unlinked = y.unlinked) : x.valid = y.valid ∧
    x.name = y.name ∧ x.blockIndex = y.blockIndex ∧ x.data = y.data ∧
    x.bytesValid = y.bytesValid :=
  ⟨congrArg (·.valid) h, congrArg (·.name) h, congrArg (·.blockIndex) h, congrArg (·.data) h,
    congrArg (·.bytesValid) h⟩

theorem Structured.length_le (h : Structured c lru chain) : lru.length ≤ cacheMaxBlocks := by
  have hs : lru ⊆ List.range cacheMaxBlocks := fun e he => List.mem_range.mpr ((h.mem e).mp he).1
  simpa using (List.Nodup.subperm h.lruNodup hs).length_le

theorem Structured.lt (h : Structured c lru chain) (he : e ∈ chain b) : e < cacheMaxBlocks :=
  ((h.mem e).mp ((h.hashed b e).mp he).1).1

/-- `hash_lookup` finds a valid entry with the tag, if there is one. -/
theorem Structured.lookup (h : Structured c lru chain) (name : List UInt8) (bi : Nat) :
    (∃ e ∈ lru, c.hashLookup name bi = some e ∧ (c.pool e).name = name ∧
      (c.pool e).blockIndex = bi) ∨
    c.hashLookup name bi = none ∧
      ∀ e ∈ lru, ¬ ((c.pool e).name = name ∧ (c.pool e).blockIndex = bi) := by
  have hlen := h.toLinkage.length_le (b := cacheHash name bi) fun x hx => h.lt hx
  have hscan : c.hashLookup name bi = _ :=
    hashScan_eq (h.bucket (cacheHash name bi)) (Nat.lt_succ_of_le hlen)
  cases hf : c.hashLookup name bi with
  | some e =>
    rw [hf] at hscan
    have he := List.mem_of_find?_eq_some hscan.symm
    have ht := List.find?_some hscan.symm
    simp only [decide_eq_true_eq] at ht
    exact .inl ⟨e, ((h.hashed _ e).mp he).1, rfl, ht.2, ht.1⟩
  | none =>
    rw [hf] at hscan
    refine .inr ⟨rfl, fun e he ht => ?_⟩
    have hn := List.find?_eq_none.mp hscan.symm e ((h.hashed _ e).mpr ⟨he, by rw [ht.1, ht.2]⟩)
    simp [ht] at hn

/-! ## Moving an entry to the front -/

theorem Structured.promote (h : Structured c lru chain) (he : e ∈ lru) :
    Structured (c.lruPromote e) (e :: lru.erase e) chain := by
  have hs := lruPromote_same (c := c) e
  have hx := fun x => unlinked_eq (hs.unlinked x)
  have hm : ∀ x, x ∈ e :: lru.erase e ↔ x ∈ lru := by
    intro x
    rw [List.mem_cons, h.lruNodup.mem_erase_iff]
    by_cases hxe : x = e
    · simp [hxe, he]
    · simp [hxe]
  refine ⟨h.lruPromote he, fun x => ?_, fun b x => ?_, ?_, ?_⟩
  · rw [hm, (hx x).1, h.mem]
  · rw [hm, (hx x).2.1, (hx x).2.2.1, h.hashed]
  · rw [hs.usedBlocks, h.used, List.length_cons, List.length_erase_of_mem he]
    have := List.length_pos_of_mem he
    omega
  · rw [hs.freeHint]
    exact h.hint

/-! ## A block for a new entry -/

/-- Every block is looked at, whatever the hint. -/
theorem mem_scan {h x : Nat} (hx : x < cacheMaxBlocks) (hh : h < cacheMaxBlocks) :
    x ∈ (List.range cacheMaxBlocks).map fun i => (h + i) % cacheMaxBlocks := by
  refine List.mem_map.mpr ⟨(x + cacheMaxBlocks - h) % cacheMaxBlocks, ?_, ?_⟩
  · exact List.mem_range.mpr (Nat.mod_lt _ (by decide))
  · simp only [cacheMaxBlocks] at hx hh ⊢
    omega

/-- `alloc_block` takes a free block, or all are valid. -/
theorem Structured.alloc (h : Structured c lru chain) :
    (∃ e, e < cacheMaxBlocks ∧ e ∉ lru ∧ c.allocBlock =
      ({ c.setEntry e { c.pool e with valid := true } with
          freeHint := (e + 1) % cacheMaxBlocks, usedBlocks := lru.length + 1 }, some e)) ∨
    c.allocBlock = (c, none) ∧ lru.length = cacheMaxBlocks := by
  unfold allocBlock
  cases hf : ((List.range cacheMaxBlocks).map fun i => (c.freeHint + i) % cacheMaxBlocks).find?
      fun idx => !(c.pool idx).valid with
  | some e =>
    have hv := List.find?_some hf
    have hlt : e < cacheMaxBlocks := by
      obtain ⟨i, _, rfl⟩ := List.mem_map.mp (List.mem_of_find?_eq_some hf)
      exact Nat.mod_lt _ (by decide)
    have hlen := h.length_le
    refine .inl ⟨e, hlt, fun he => ?_, ?_⟩
    · have := ((h.mem _).mp he).2
      simp [this] at hv
    · have hu : (c.usedBlocks + 1) % 4294967296 = lru.length + 1 := by
        rw [h.used]
        simp only [cacheMaxBlocks] at hlen
        omega
      dsimp only
      rw [hu]
  | none =>
    refine .inr ⟨rfl, Nat.le_antisymm h.length_le ?_⟩
    have hs : List.range cacheMaxBlocks ⊆ lru := by
      intro x hx
      have hx := List.mem_range.mp hx
      have hv := List.find?_eq_none.mp hf x (mem_scan hx h.hint)
      exact (h.mem x).mpr ⟨hx, by simpa using hv⟩
    simpa using (List.Nodup.subperm (List.nodup_range) hs).length_le

/-- A block that is on no list becomes the first entry. -/
theorem Linkage.install (h : Linkage c lru chain) (he : e ∉ lru) (hc : ∀ d, e ∉ chain d)
    (name : List UInt8) (bi : Nat) :
    Linkage (c.installBlock e name bi) (e :: lru) (Function.update chain
      (cacheHash (name.take (cacheNameMax - 1)) bi)
      (e :: chain (cacheHash (name.take (cacheNameMax - 1)) bi))) ∧
    ((c.installBlock e name bi).pool e).unlinked = CacheEntry.unlinked { c.pool e with
      blockIndex := bi, bytesValid := 0, name := name.take (cacheNameMax - 1) } ∧
    (∀ x, x ≠ e → ((c.installBlock e name bi).pool x).unlinked = (c.pool x).unlinked) ∧
    (c.installBlock e name bi).usedBlocks = c.usedBlocks ∧
    (c.installBlock e name bi).freeHint = c.freeHint ∧
    (c.installBlock e name bi).evictions = c.evictions := by
  unfold installBlock
  dsimp only
  generalize hx : ({ c.pool e with
    blockIndex := bi, bytesValid := 0, hashNext := none, lruPrev := none, lruNext := none,
    name := name.take (cacheNameMax - 1) } : CacheEntry) = x
  have h₁ : Linkage (c.setEntry e x) lru chain :=
    h.setEntry (fun hl => absurd hl he) fun d hd => absurd hd (hc d)
  have hb : cacheHash ((c.setEntry e x).pool e).name ((c.setEntry e x).pool e).blockIndex =
      cacheHash (name.take (cacheNameMax - 1)) bi := by
    rw [setEntry_pool_self, ← hx]
  have h₂ := h₁.hashInsert hb hc
  have hs₂ := hashInsert_same (c := c.setEntry e x) e
  have hs₃ := lruPushHead_same (c := (c.setEntry e x).hashInsert e) e
  refine ⟨h₂.lruPushHead he, ?_, fun y hy => ?_, hs₃.usedBlocks, hs₃.freeHint, hs₃.evictions⟩
  · rw [hs₃.unlinked, hs₂.unlinked, setEntry_pool_self, ← hx]
    rfl
  · rw [hs₃.unlinked, hs₂.unlinked, setEntry_pool_ne hy]

/-- What `cache_get_block` does: the entry `e` comes to the front with the tag asked for. -/
structure Got (c c' : Cache) (lru : List Nat) (name : List UInt8) (bi e : Nat) : Prop where
  others : ∀ x, x ≠ e → (c'.pool x).unlinked = (c.pool x).unlinked
  outcome :
    -- a hit
    (e ∈ lru ∧ (c.pool e).name = name ∧ (c.pool e).blockIndex = bi ∧
      (c'.pool e).unlinked = (c.pool e).unlinked ∧ c'.evictions = c.evictions) ∨
    -- a miss
    (∀ x ∈ lru, ¬ ((c.pool x).name = name ∧ (c.pool x).blockIndex = bi)) ∧
      (c'.pool e).name = name.take (cacheNameMax - 1) ∧ (c'.pool e).blockIndex = bi ∧
      (c'.pool e).bytesValid = 0 ∧
      (e ∉ lru ∧ c'.evictions = c.evictions ∨
        lru.length = cacheMaxBlocks ∧ lru.getLast? = some e ∧
          c'.evictions = (c.evictions + 1) % 18446744073709551616)

/-- The invariant once the entry that was free, or detached, is installed. -/
theorem Structured.install (h : Structured c lru chain) (c₁ : Cache) {l : List Nat}
    {ch : Nat → List Nat} (hl : Linkage c₁ l ch) (hmem : ∀ x, x ∈ l ↔ x ∈ lru ∧ x ≠ e)
    (hch : ∀ d x, x ∈ ch d ↔ x ∈ chain d ∧ x ≠ e) (hlt : e < cacheMaxBlocks)
    (hv : (c₁.pool e).valid = true) (hused : c₁.usedBlocks = l.length + 1)
    (hhint : c₁.freeHint < cacheMaxBlocks)
    (hx : ∀ x, x ≠ e → (c₁.pool x).unlinked = (c.pool x).unlinked) (name : List UInt8) (bi : Nat) :
    (∃ chain', Structured (c₁.installBlock e name bi) (e :: l) chain') ∧
    ((c₁.installBlock e name bi).pool e).unlinked = CacheEntry.unlinked { c₁.pool e with
      blockIndex := bi, bytesValid := 0, name := name.take (cacheNameMax - 1) } ∧
    (∀ x, x ≠ e → ((c₁.installBlock e name bi).pool x).unlinked = (c.pool x).unlinked) ∧
    (c₁.installBlock e name bi).evictions = c₁.evictions := by
  have hel : e ∉ l := fun he => ((hmem e).mp he).2 rfl
  have hec : ∀ d, e ∉ ch d := fun d he => ((hch d e).mp he).2 rfl
  obtain ⟨hlink, hself, hothers, hub, hfh, hev⟩ := hl.install hel hec name bi
  refine ⟨⟨_, hlink, fun x => ?_, fun d x => ?_, ?_, ?_⟩, hself, fun x hxe => ?_, hev⟩
  · rw [List.mem_cons]
    by_cases hxe : x = e
    · simp [hxe, hlt, (unlinked_eq hself).1, hv]
    · rw [(unlinked_eq ((hothers x hxe).trans (hx x hxe))).1, hmem, h.mem]
      simp [hxe]
  · have htag : ∀ x, x ≠ e → cacheHash ((c₁.installBlock e name bi).pool x).name
        ((c₁.installBlock e name bi).pool x).blockIndex =
        cacheHash (c.pool x).name (c.pool x).blockIndex := by
      intro x hxe
      obtain ⟨_, h1, h2, _⟩ := unlinked_eq ((hothers x hxe).trans (hx x hxe))
      rw [h1, h2]
    have htage : cacheHash ((c₁.installBlock e name bi).pool e).name
        ((c₁.installBlock e name bi).pool e).blockIndex =
        cacheHash (name.take (cacheNameMax - 1)) bi := by
      obtain ⟨_, h1, h2, _⟩ := unlinked_eq hself
      rw [h1, h2]
    generalize cacheHash (name.take (cacheNameMax - 1)) bi = k at htage
    by_cases hxe : x = e
    · subst hxe
      rw [htage]
      by_cases hd : d = k
      · simp [hd]
      · simp [hd, hec d, Ne.symm hd]
    · rw [htag x hxe, List.mem_cons, or_iff_right hxe, hmem]
      by_cases hd : d = k
      · subst hd
        rw [Function.update_self, List.mem_cons, or_iff_right hxe, hch, h.hashed]
        tauto
      · rw [Function.update_of_ne hd, hch, h.hashed]
        tauto
  · rw [hub, hused, List.length_cons]
  · rw [hfh]
    exact hhint
  · exact (hothers x hxe).trans (hx x hxe)

/-- `cache_get_block` always finds a block. -/
theorem Structured.getBlock (h : Structured c lru chain) (name : List UInt8) (bi : Nat) :
    ∃ c' e chain', c.cacheGetBlock name bi = (c', some e) ∧
      Structured c' (e :: lru.erase e) chain' ∧ Got c c' lru name bi e := by
  unfold cacheGetBlock
  rcases h.lookup name bi with ⟨e, he, hl, hn, hb⟩ | ⟨hl, hno⟩ <;> rw [hl]
  · have hs := lruPromote_same (c := c) e
    exact ⟨_, e, chain, rfl, h.promote he, fun x _ => hs.unlinked x,
      .inl ⟨he, hn, hb, hs.unlinked e, hs.evictions⟩⟩
  · dsimp only
    rcases h.alloc with ⟨e, hlt, he, ha⟩ | ⟨ha, hfull⟩ <;> rw [ha] <;> dsimp only
    · -- a free block
      have hec : ∀ d, e ∉ chain d := fun d hd => he ((h.hashed d e).mp hd).1
      have hlink := h.toLinkage.setEntry (x := { c.pool e with valid := true })
        (fun hx => absurd hx he) fun d hd => absurd hd (hec d)
      generalize hc₁ : ({ c.setEntry e { c.pool e with valid := true } with
        freeHint := (e + 1) % cacheMaxBlocks, usedBlocks := lru.length + 1 } : Cache) = c₁
      have hlink₁ : Linkage c₁ lru chain := by
        rw [← hc₁]
        exact ⟨hlink.order, hlink.lruNodup, hlink.bucket, hlink.chainNodup, hlink.apart⟩
      obtain ⟨⟨chain', hstr⟩, hself, hothers, hev⟩ := h.install (e := e) _ hlink₁
        (fun x => ⟨fun hx => ⟨hx, fun e' => he (e' ▸ hx)⟩, And.left⟩)
        (fun d x => ⟨fun hx => ⟨hx, fun e' => hec d (e' ▸ hx)⟩, And.left⟩) hlt
        (by rw [← hc₁]; simp) (by rw [← hc₁]) (by rw [← hc₁]; exact Nat.mod_lt _ (by decide))
        (fun x hx => by rw [← hc₁]; simp [hx]) name bi
      obtain ⟨_, h1, h2, _, h3⟩ := unlinked_eq hself
      refine ⟨_, e, chain', rfl, ?_, hothers, .inr ⟨hno, h1, h2, h3, .inl ⟨he, ?_⟩⟩⟩
      · rw [List.erase_of_not_mem he]
        exact hstr
      · rw [hev, ← hc₁]
        rfl
    · -- the last entry of the LRU list
      have htail : c.lruTail = lru.getLast? := h.order.last_eq
      have hne : lru ≠ [] := by
        rintro rfl
        cases hfull
      obtain ⟨v, hv⟩ : ∃ v, lru.getLast? = some v :=
        ⟨lru.getLast hne, List.getLast?_eq_some_getLast hne⟩
      have hvl : v ∈ lru := List.mem_of_getLast? hv
      have hvc := (h.hashed (cacheHash (c.pool v).name (c.pool v).blockIndex) v).mpr ⟨hvl, rfl⟩
      obtain ⟨hlink, hsame⟩ := h.hashRemove rfl hvc fun x hx => h.lt hx
      have hlink₂ := hlink.lruRemove hvl
      have hsame₂ := lruRemove_same (c := c.hashRemove v) v
      unfold evictLru
      rw [htail, hv]
      dsimp only
      generalize hc₂ : (c.hashRemove v).lruRemove v = c₂ at hlink₂ hsame₂
      have hvl₂ : v ∉ lru.erase v := fun hm => (h.lruNodup.mem_erase_iff.mp hm).1 rfl
      have hch : ∀ d x, x ∈ Function.update chain (cacheHash (c.pool v).name (c.pool v).blockIndex)
          ((chain (cacheHash (c.pool v).name (c.pool v).blockIndex)).erase v) d ↔
          x ∈ chain d ∧ x ≠ v := by
        intro d x
        by_cases hd : d = cacheHash (c.pool v).name (c.pool v).blockIndex
        · subst hd
          rw [Function.update_self, (h.chainNodup _).mem_erase_iff, and_comm]
        · rw [Function.update_of_ne hd]
          refine ⟨fun hx => ⟨hx, ?_⟩, And.left⟩
          rintro rfl
          exact hd ((h.hashed d x).mp hx).2.symm
      have hlink₃ := hlink₂.setEntry (e := v) (x := { c₂.pool v with
        valid := true, hashNext := none, lruPrev := none, lruNext := none })
        (fun hx => absurd hx hvl₂) fun d hd => absurd rfl ((hch d v).mp hd).2
      generalize hc₁ : ({ c₂.setEntry v { c₂.pool v with
        valid := true, hashNext := none, lruPrev := none, lruNext := none } with
        evictions := (c₂.evictions + 1) % 18446744073709551616 } : Cache) = c₁
      obtain ⟨⟨chain', hstr⟩, hself, hothers, hev⟩ := h.install (e := v) c₁
        (by rw [← hc₁]; exact ⟨hlink₃.order, hlink₃.lruNodup, hlink₃.bucket, hlink₃.chainNodup,
          hlink₃.apart⟩)
        (fun x => h.lruNodup.mem_erase_iff.trans and_comm) hch ((h.mem v).mp hvl).1
        (by rw [← hc₁]; simp)
        (by
          rw [← hc₁]
          show c₂.usedBlocks = _
          rw [hsame₂.usedBlocks, hsame.usedBlocks, h.used, List.length_erase_of_mem hvl, hfull]
          rfl)
        (by
          rw [← hc₁]
          show c₂.freeHint < _
          rw [hsame₂.freeHint, hsame.freeHint]
          exact h.hint)
        (fun x hx => by
          rw [← hc₁]
          show ((c₂.setEntry v _).pool x).unlinked = _
          rw [setEntry_pool_ne hx, hsame₂.unlinked, hsame.unlinked]) name bi
      obtain ⟨_, h1, h2, _, h3⟩ := unlinked_eq hself
      refine ⟨_, v, chain', rfl, hstr, hothers, .inr ⟨hno, h1, h2, h3, .inr ⟨hfull, hv, ?_⟩⟩⟩
      rw [hev, ← hc₁]
      show (c₂.evictions + 1) % _ = _
      rw [hsame₂.evictions, hsame.evictions]

/-! ## Invalidation -/

/-- The entries of `c'` have the tags and the data that they have in `c`. -/
structure SameTags (c c' : Cache) : Prop where
  name : ∀ x, (c'.pool x).name = (c.pool x).name
  blockIndex : ∀ x, (c'.pool x).blockIndex = (c.pool x).blockIndex
  data : ∀ x, (c'.pool x).data = (c.pool x).data
  bytesValid : ∀ x, (c'.pool x).bytesValid = (c.pool x).bytesValid
  evictions : c'.evictions = c.evictions

theorem SameTags.refl (c : Cache) : SameTags c c :=
  ⟨fun _ => rfl, fun _ => rfl, fun _ => rfl, fun _ => rfl, rfl⟩

theorem SameTags.trans {c'' : Cache} (h : SameTags c c') (h' : SameTags c' c'') :
    SameTags c c'' :=
  ⟨fun x => (h'.name x).trans (h.name x), fun x => (h'.blockIndex x).trans (h.blockIndex x),
    fun x => (h'.data x).trans (h.data x), fun x => (h'.bytesValid x).trans (h.bytesValid x),
    h'.evictions.trans h.evictions⟩

/-- The place after the entries of `k` holds the link that ends them. -/
theorem load_slotAfter {k : List Nat} {m : Option Nat} {p : Slot}
    (hs : Seg (fun e => (c.pool e).hashNext) (c.load p) k m) : c.load (slotAfter p k) = m := by
  induction k generalizing p with
  | nil => exact hs
  | cons a k ih =>
    rw [slotAfter_cons]
    exact ih hs.2

/-- `cache_invalidate` takes the entry out that the place `pp` leads to. -/
def dropAt (c : Cache) (e : Nat) (pp : Slot) : Cache :=
  let c := (c.store (c.pool e).hashNext pp).lruRemove e
  { c.setEntry e { c.pool e with valid := false, hashNext := none } with
    usedBlocks := (c.usedBlocks + 4294967295) % 4294967296 }

theorem Structured.dropAt (h : Structured c lru chain) {l₁ l₂ : List Nat}
    (hb : chain b = l₁ ++ e :: l₂) :
    Structured (c.dropAt e (slotAfter (.bucket b) l₁)) (lru.erase e)
      (Function.update chain b (l₁ ++ l₂)) ∧
    SameTags c (c.dropAt e (slotAfter (.bucket b) l₁)) := by
  have hec : e ∈ chain b := hb ▸ List.mem_append_right _ List.mem_cons_self
  have hel : e ∈ lru := ((h.hashed b e).mp hec).1
  have hn : (l₁ ++ e :: l₂).Nodup := hb ▸ h.chainNodup b
  have he₁ : e ∉ l₁ := fun h => (List.nodup_append.mp hn).2.2 e h e List.mem_cons_self rfl
  have he₂ : e ∉ l₂ := (List.nodup_cons.mp (List.nodup_append.mp hn).2.1).1
  have hst := store_same (c := c) (c.pool e).hashNext (slotAfter (.bucket b) l₁)
  have hlink := (h.unlink hb).lruRemove hel
  have hsame := lruRemove_same (c := c.store (c.pool e).hashNext (slotAfter (.bucket b) l₁)) e
  have hx : ∀ x, (((c.store (c.pool e).hashNext (slotAfter (.bucket b) l₁)).lruRemove e).pool
      x).unlinked = (c.pool x).unlinked := fun x => (hsame.unlinked x).trans (hst.unlinked x)
  unfold Cache.dropAt
  dsimp only
  generalize (c.store (c.pool e).hashNext (slotAfter (.bucket b) l₁)).lruRemove e = c₁ at *
  have hch : ∀ d x, x ∈ Function.update chain b (l₁ ++ l₂) d ↔ x ∈ chain d ∧ x ≠ e := by
    intro d x
    by_cases hd : d = b
    · subst hd
      rw [Function.update_self, hb]
      simp only [List.mem_append, List.mem_cons]
      constructor
      · rintro (hx | hx)
        · exact ⟨.inl hx, fun e' => he₁ (e' ▸ hx)⟩
        · exact ⟨.inr (.inr hx), fun e' => he₂ (e' ▸ hx)⟩
      · rintro ⟨hx | hx | hx, hne⟩
        · exact .inl hx
        · exact absurd hx hne
        · exact .inr hx
    · rw [Function.update_of_ne hd]
      refine ⟨fun hx => ⟨hx, ?_⟩, And.left⟩
      rintro rfl
      exact hd (h.apart d b x hx hec)
  have hlink₂ := hlink.setEntry (e := e)
    (x := { c₁.pool e with valid := false, hashNext := none }) (fun _ => ⟨rfl, rfl⟩)
    fun d hd => absurd rfl ((hch d e).mp hd).2
  have htags : ∀ x, ((c₁.setEntry e { c₁.pool e with valid := false, hashNext := none }).pool
      x).name = (c.pool x).name ∧
      ((c₁.setEntry e { c₁.pool e with valid := false, hashNext := none }).pool x).blockIndex =
        (c.pool x).blockIndex ∧
      ((c₁.setEntry e { c₁.pool e with valid := false, hashNext := none }).pool x).data =
        (c.pool x).data ∧
      ((c₁.setEntry e { c₁.pool e with valid := false, hashNext := none }).pool x).bytesValid =
        (c.pool x).bytesValid := by
    intro x
    obtain ⟨_, h1, h2, h3, h4⟩ := unlinked_eq (hx x)
    rw [setEntry_pool]
    split
    · next e' => rw [← e']; exact ⟨h1, h2, h3, h4⟩
    · exact ⟨h1, h2, h3, h4⟩
  refine ⟨⟨⟨hlink₂.order, hlink₂.lruNodup, hlink₂.bucket, hlink₂.chainNodup, hlink₂.apart⟩,
    fun x => ?_, fun d x => ?_, ?_, ?_⟩, ?_⟩
  · show _ ↔ _ ∧ ((c₁.setEntry e { c₁.pool e with valid := false, hashNext := none }).pool
      x).valid = true
    rw [h.lruNodup.mem_erase_iff, setEntry_pool]
    by_cases hxe : x = e
    · simp [hxe]
    · rw [if_neg hxe, (unlinked_eq (hx x)).1, h.mem]
      simp [hxe]
  · show _ ↔ _ ∧ cacheHash ((c₁.setEntry e { c₁.pool e with valid := false, hashNext := none }).pool
      x).name ((c₁.setEntry e { c₁.pool e with valid := false, hashNext := none }).pool
      x).blockIndex = d
    rw [hch, (htags x).1, (htags x).2.1, h.lruNodup.mem_erase_iff, h.hashed]
    tauto
  · show (c₁.usedBlocks + 4294967295) % 4294967296 = _
    have hpos := List.length_pos_of_mem hel
    have hlen := h.length_le
    simp only [cacheMaxBlocks] at hlen
    rw [hsame.usedBlocks, hst.usedBlocks, h.used, List.length_erase_of_mem hel]
    omega
  · show c₁.freeHint < _
    rw [hsame.freeHint, hst.freeHint]
    exact h.hint
  · exact ⟨fun x => (htags x).1, fun x => (htags x).2.1, fun x => (htags x).2.2.1,
      fun x => (htags x).2.2.2, hsame.evictions.trans hst.evictions⟩

/-- The loop along one chain, from behind the entries of `k`. -/
theorem Structured.invalidateChain {l k : List Nat} {fuel : Nat}
    (h : Structured c lru chain) (hb : chain b = k ++ l) (hf : l.length < fuel)
    (name : List UInt8) : ∃ lru' chain',
      Structured (c.invalidateChain name fuel (slotAfter (.bucket b) k)) lru' chain' ∧
      SameTags c (c.invalidateChain name fuel (slotAfter (.bucket b) k)) ∧
      lru'.Sublist lru ∧ (∀ d, d ≠ b → chain' d = chain d) ∧
      chain' b = k ++ l.filter fun x => decide ((c.pool x).name ≠ name) := by
  induction l generalizing c lru chain k fuel with
  | nil =>
    obtain ⟨n, rfl⟩ := Nat.exists_eq_succ_of_ne_zero (Nat.ne_zero_of_lt hf)
    obtain ⟨m, hs, hm⟩ := seg_append.mp (hb ▸ h.bucket b)
    obtain rfl : m = none := hm
    rw [Cache.invalidateChain, load_slotAfter (p := .bucket b) hs]
    exact ⟨lru, chain, h, .refl c, List.Sublist.refl _, fun _ _ => rfl, hb⟩
  | cons e l ih =>
    obtain ⟨n, rfl⟩ := Nat.exists_eq_succ_of_ne_zero (Nat.ne_zero_of_lt hf)
    obtain ⟨m, hs, hm, _⟩ := seg_append.mp (hb ▸ h.bucket b)
    rw [Cache.invalidateChain, load_slotAfter (p := .bucket b) hs, hm]
    dsimp only
    by_cases hname : (c.pool e).name = name
    · obtain ⟨hd, ht⟩ := h.dropAt hb
      rw [if_pos hname]
      obtain ⟨lru', chain', h1, h2, h3, h4, h5⟩ :=
        ih hd (Function.update_self b _ chain) (Nat.lt_of_succ_lt_succ hf)
      refine ⟨lru', chain', h1, ht.trans h2, h3.trans List.erase_sublist, fun d hdb => ?_, ?_⟩
      · rw [h4 d hdb, Function.update_of_ne hdb]
      · rw [h5, List.filter_cons_of_neg (by simp [hname])]
        simp only [ht.name]
    · rw [if_neg hname]
      have hslot : slotAfter (.bucket b) (k ++ [e]) = .link e := by simp [slotAfter]
      obtain ⟨lru', chain', h1, h2, h3, h4, h5⟩ :=
        ih (k := k ++ [e]) h (by simpa using hb) (Nat.lt_of_succ_lt_succ hf)
      rw [hslot] at h1 h2
      refine ⟨lru', chain', h1, h2, h3, h4, ?_⟩
      rw [h5, List.filter_cons_of_pos (by simp [hname]), List.append_assoc]
      rfl

/-- After the first buckets no entry with the name is on their chains. -/
theorem Structured.invalidate (h : Structured c lru chain) (name : List UInt8) :
    ∃ lru' chain', Structured (c.cacheInvalidate name) lru' chain' ∧
      SameTags c (c.cacheInvalidate name) ∧ lru'.Sublist lru ∧
      ∀ e ∈ lru', (c.pool e).name ≠ name := by
  have hfold : ∀ k, ∃ lru' chain', Structured ((List.range k).foldl
      (fun c b => c.invalidateChain name (cacheMaxBlocks + 1) (.bucket b)) c) lru' chain' ∧
      SameTags c ((List.range k).foldl
        (fun c b => c.invalidateChain name (cacheMaxBlocks + 1) (.bucket b)) c) ∧
      lru'.Sublist lru ∧ ∀ d < k, ∀ e ∈ chain' d, (c.pool e).name ≠ name := by
    intro k
    induction k with
    | zero =>
      exact ⟨lru, chain, h, .refl c, List.Sublist.refl _, fun d hd => absurd hd (Nat.not_lt_zero d)⟩
    | succ k ih =>
      obtain ⟨l, ch, h1, h2, h3, h4⟩ := ih
      rw [List.range_succ, List.foldl_append]
      generalize (List.range k).foldl
        (fun c b => c.invalidateChain name (cacheMaxBlocks + 1) (.bucket b)) c = c₁ at h1 h2
      have hlen := h1.toLinkage.length_le (b := k) fun x hx => h1.lt hx
      obtain ⟨l', ch', g1, g2, g3, g4, g5⟩ := h1.invalidateChain (b := k) (k := [])
        (l := ch k) rfl (Nat.lt_succ_of_le hlen) name
      refine ⟨l', ch', g1, h2.trans g2, g3.trans h3, fun d hd e he => ?_⟩
      by_cases hdk : d = k
      · subst hdk
        rw [g5] at he
        have hx := (List.mem_filter.mp he).2
        rw [decide_eq_true_iff, h2.name] at hx
        exact hx
      · rw [g4 d hdk] at he
        exact h4 d (by omega) e he
  obtain ⟨lru', chain', h1, h2, h3, h4⟩ := hfold cacheHashBuckets
  refine ⟨lru', chain', h1, h2, h3, fun e he => ?_⟩
  exact h4 _ (Nat.mod_lt _ (by decide)) e ((h1.hashed _ e).mpr ⟨he, rfl⟩)

/-! ## Flush and boot -/

theorem Structured.flush (h : Structured c lru chain) :
    Structured c.cacheFlushAll [] fun _ => [] where
  order := ⟨rfl, rfl⟩
  lruNodup := List.nodup_nil
  bucket b := by
    show (if b < cacheHashBuckets then none else c.hashTable b) = none
    split
    · rfl
    · next hb =>
      -- no entry hashes to a bucket that does not exist
      rw [(h.bucket b).head?, List.head?_eq_none_iff, List.eq_nil_iff_forall_not_mem]
      intro e he
      exact hb (((h.hashed b e).mp he).2 ▸ Nat.mod_lt _ (by decide))
  chainNodup _ := List.nodup_nil
  apart _ _ _ he := absurd he List.not_mem_nil
  mem e := by
    simp only [List.not_mem_nil, false_iff, not_and]
    intro he
    simp [cacheFlushAll, he]
  hashed _ _ := by simp
  used := rfl
  hint := Nat.zero_lt_succ _

theorem cacheInit_structured : Structured cacheInit [] fun _ => [] where
  order := ⟨rfl, rfl⟩
  lruNodup := List.nodup_nil
  bucket _ := rfl
  chainNodup _ := List.nodup_nil
  apart _ _ _ he := absurd he List.not_mem_nil
  mem e := by simp [cacheInit]
  hashed _ _ := by simp
  used := rfl
  hint := by decide

end Cache

end GenOS
