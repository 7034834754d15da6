import Mathlib.Data.List.Induction
import GenOS.Lib.Machine
import GenOS.Fs.CacheInv

/-!
# Structure and eviction order of the buffer cache

A `Traced` cache records beside the state which entries were accessed, the last one first. Each
block access of `cache_read`, each `cache_invalidate` and each `cache_flush_all` is a `Touch`. Along
every run of them the LRU list is ordered by last access, so what an eviction takes is the entry
whose last access is oldest.
-/

namespace GenOS

/-- The entry holds block `bi` of the file. -/
def CacheEntry.Holds (x : CacheEntry) (f : Cache.File) (bi : Nat) : Prop :=
  x.bytesValid = min cacheBlockSize (f.size - bi * cacheBlockSize) ∧
    ∀ j < x.bytesValid, x.data j = f.src (bi * cacheBlockSize + j)

namespace Cache

open Machine Chain

variable {c c' : Cache} {lru : List Nat} {chain : Nat → List Nat} {e : Nat} {f : File} {bi : Nat}

/-! ## One block -/

/-- What an access to a block does: the entry comes to the front, a new one with the data. -/
structure Blocked (c c' : Cache) (lru : List Nat) (f : File) (bi e : Nat) : Prop where
  others : ∀ x, x ≠ e → (c'.pool x).unlinked = (c.pool x).unlinked
  outcome :
    -- a hit
    (e ∈ lru ∧ (c.pool e).name = f.name ∧ (c.pool e).blockIndex = bi ∧
      (c'.pool e).name = f.name ∧ (c'.pool e).blockIndex = bi ∧
      ((c.pool e).bytesValid ≠ 0 → (c'.pool e).unlinked = (c.pool e).unlinked) ∧
      c'.evictions = c.evictions) ∨
    -- a miss
    (∀ x ∈ lru, ¬ ((c.pool x).name = f.name ∧ (c.pool x).blockIndex = bi)) ∧
      (c'.pool e).name = f.name.take (cacheNameMax - 1) ∧ (c'.pool e).blockIndex = bi ∧
      (c'.pool e).Holds f bi ∧
      (e ∉ lru ∧ c'.evictions = c.evictions ∨
        lru.length = cacheMaxBlocks ∧ lru.getLast? = some e ∧
          c'.evictions = (c.evictions + 1) % 18446744073709551616)

/-- The fill of an entry. -/
def fillEntry (x : CacheEntry) (f : File) (bi : Nat) : CacheEntry :=
  { x with
    data := fun i => if i < min cacheBlockSize (f.size - bi * cacheBlockSize) then
      f.src (bi * cacheBlockSize + i) else x.data i
    bytesValid := min cacheBlockSize (f.size - bi * cacheBlockSize) }

theorem fillEntry_holds (x : CacheEntry) (f : File) (bi : Nat) : (fillEntry x f bi).Holds f bi :=
  ⟨rfl, fun _ hj => if_pos hj⟩

theorem cacheBlock_eq {c₁ : Cache} (h : c.cacheGetBlock f.name bi = (c₁, some e)) :
    c.cacheBlock f bi = (if (c₁.pool e).bytesValid = 0 then
      c₁.setEntry e (fillEntry (c₁.pool e) f bi) else c₁, some e) := by
  have hfill : ∀ avail : Nat, avail = f.size - bi * cacheBlockSize →
      (if avail < cacheBlockSize then avail else cacheBlockSize) =
        min cacheBlockSize (f.size - bi * cacheBlockSize) := by
    rintro _ rfl
    split <;> omega
  have havail : (if bi * cacheBlockSize < f.size then f.size - bi * cacheBlockSize else 0) =
      f.size - bi * cacheBlockSize := by
    split <;> omega
  unfold cacheBlock
  rw [h]
  dsimp only
  split
  · rw [havail, hfill _ rfl]
    rfl
  · rfl

theorem Structured.block (h : Structured c lru chain) (f : File) (bi : Nat) :
    ∃ c' e chain', c.cacheBlock f bi = (c', some e) ∧
      Structured c' (e :: lru.erase e) chain' ∧ Blocked c c' lru f bi e := by
  obtain ⟨c₁, e, chain₁, hget, hstr, hgot⟩ := h.getBlock f.name bi
  rw [cacheBlock_eq hget]
  by_cases h0 : (c₁.pool e).bytesValid = 0
  · -- the entry is filled
    rw [if_pos h0]
    have hx : ∀ x, x ≠ e → (c₁.setEntry e (fillEntry (c₁.pool e) f bi)).pool x = c₁.pool x :=
      fun x hxe => setEntry_pool_ne hxe
    have hself : (c₁.setEntry e (fillEntry (c₁.pool e) f bi)).pool e =
        fillEntry (c₁.pool e) f bi := setEntry_pool_self
    have hlink := hstr.setEntry (e := e) (x := fillEntry (c₁.pool e) f bi)
      (fun _ => ⟨rfl, rfl⟩) fun _ _ => rfl
    refine ⟨_, e, chain₁, rfl, ⟨hlink, fun x => ?_, fun b x => ?_, hstr.used, hstr.hint⟩, ?_⟩
    · rw [hstr.mem x]
      by_cases hxe : x = e
      · rw [hxe, hself]; rfl
      · rw [hx x hxe]
    · rw [hstr.hashed b x]
      by_cases hxe : x = e
      · rw [hxe, hself]; rfl
      · rw [hx x hxe]
    · refine ⟨fun x hxe => by rw [hx x hxe]; exact hgot.others x hxe, ?_⟩
      rw [hself]
      rcases hgot.outcome with ⟨he, hn, hb, hu, hev⟩ | ⟨hno, hn, hb, _, hcase⟩
      · obtain ⟨_, h1, h2, _, h3⟩ := unlinked_eq hu
        refine .inl ⟨he, hn, hb, h1.trans hn, h2.trans hb, fun hne => ?_, hev⟩
        exact absurd (h3.symm.trans h0) hne
      · exact .inr ⟨hno, hn, hb, fillEntry_holds _ f bi, hcase⟩
  · rw [if_neg h0]
    refine ⟨c₁, e, chain₁, rfl, hstr, hgot.others, ?_⟩
    rcases hgot.outcome with ⟨he, hn, hb, hu, hev⟩ | ⟨_, _, _, hz, _⟩
    · obtain ⟨_, h1, h2, _⟩ := unlinked_eq hu
      exact .inl ⟨he, hn, hb, h1.trans hn, h2.trans hb, fun _ => hu, hev⟩
    · exact absurd hz h0

/-! ## The history -/

/-- A cache, and the entries accessed so far, the last one first. -/
structure Traced where
  cache : Cache
  recent : List Nat

/-- The steps of the cache. -/
inductive Access where
  | block (f : File) (blockIndex : Nat)
  | invalidate (name : List UInt8)
  | flush

/-- One step, recorded. -/
inductive Touch (x : Traced) : Access → Traced → Prop
  | block {f : File} {bi e : Nat} {c : Cache} (h : x.cache.cacheBlock f bi = (c, some e)) :
    Touch x (.block f bi) ⟨c, e :: x.recent⟩
  | invalidate (name : List UInt8) :
    Touch x (.invalidate name) ⟨x.cache.cacheInvalidate name, x.recent⟩
  | flush : Touch x .flush ⟨x.cache.cacheFlushAll, x.recent⟩

/-- The entries of `lru` from the one accessed last to the one accessed first. -/
structure Ordered (lru recent : List Nat) : Prop where
  sorted : lru.Pairwise fun x y => recent.idxOf x < recent.idxOf y
  accessed : ∀ x ∈ lru, x ∈ recent

theorem Ordered.sublist {lru' recent : List Nat} (h : Ordered lru recent) (hs : lru'.Sublist lru) :
    Ordered lru' recent :=
  ⟨h.sorted.sublist hs, fun x hx => h.accessed x (hs.subset hx)⟩

theorem Ordered.access {recent : List Nat} (h : Ordered lru recent) (hn : lru.Nodup) (e : Nat) :
    Ordered (e :: lru.erase e) (e :: recent) := by
  have hne : ∀ x ∈ lru.erase e, x ≠ e := fun x hx => (hn.mem_erase_iff.mp hx).1
  have hidx : ∀ x, x ≠ e → (e :: recent).idxOf x = recent.idxOf x + 1 := fun x hx =>
    List.idxOf_cons_ne _ hx.symm
  constructor
  · refine List.pairwise_cons.mpr ⟨fun x hx => ?_, ?_⟩
    · rw [hidx x (hne x hx), List.idxOf_cons_self]
      exact Nat.succ_pos _
    · refine (h.sorted.sublist List.erase_sublist).imp_of_mem fun {x y} hx hy hlt => ?_
      rw [hidx x (hne x hx), hidx y (hne y hy)]
      exact Nat.succ_lt_succ hlt
  · intro x hx
    rcases List.mem_cons.mp hx with rfl | hx
    · exact List.mem_cons_self
    · exact List.mem_cons_of_mem _ (h.accessed x (List.mem_of_mem_erase hx))

/-- The last entry is the one whose last access is oldest. -/
theorem Ordered.last {recent : List Nat} (h : Ordered lru recent) {v : Nat}
    (hv : lru.getLast? = some v) {x : Nat} (hx : x ∈ lru) (hne : x ≠ v) :
    recent.idxOf x < recent.idxOf v := by
  obtain ⟨l, rfl⟩ := List.getLast?_eq_some_iff.mp hv
  have hxl : x ∈ l := (List.mem_append.mp hx).resolve_right fun h =>
    hne (List.mem_singleton.mp h)
  exact (List.pairwise_append.mp h.sorted).2.2 x hxl v (List.mem_singleton_self v)

/-- No two entries of `lru` have the same tag. -/
def Distinct (c : Cache) (lru : List Nat) : Prop :=
  ∀ x ∈ lru, ∀ y ∈ lru, (c.pool x).name = (c.pool y).name →
    (c.pool x).blockIndex = (c.pool y).blockIndex → x = y

/-- The name of an accessed file fits the stored tag. -/
def Access.Fits : Access → Prop
  | .block f _ => f.name.length < cacheNameMax
  | _ => True

/-- The lists, and the history that orders the first of them. -/
structure Tidy (x : Traced) (lru : List Nat) (chain : Nat → List Nat) : Prop where
  lists : Structured x.cache lru chain
  ordered : Ordered lru x.recent

theorem Blocked.distinct (hb : Blocked c c' lru f bi e) (hn : lru.Nodup)
    (hf : f.name.length < cacheNameMax) (hd : Distinct c lru) : Distinct c' (e :: lru.erase e) := by
  have htake : f.name.take (cacheNameMax - 1) = f.name :=
    List.take_of_length_le (Nat.le_pred_of_lt hf)
  -- the tag of `e` is no other's
  have hself : (c'.pool e).name = f.name ∧ (c'.pool e).blockIndex = bi := by
    rcases hb.outcome with ⟨_, _, _, h1, h2, _⟩ | ⟨_, h1, h2, _⟩
    · exact ⟨h1, h2⟩
    · exact ⟨h1.trans htake, h2⟩
  have hother : ∀ x ∈ lru.erase e, ¬ ((c'.pool x).name = f.name ∧ (c'.pool x).blockIndex = bi) := by
    intro x hx ht
    obtain ⟨hxe, hxl⟩ := hn.mem_erase_iff.mp hx
    obtain ⟨_, h1, h2, _⟩ := unlinked_eq (hb.others x hxe)
    rw [h1, h2] at ht
    rcases hb.outcome with ⟨he, h3, h4, _⟩ | ⟨hno, _⟩
    · exact hxe (hd x hxl e he (ht.1.trans h3.symm) (ht.2.trans h4.symm))
    · exact hno x hxl ht
  intro x hx y hy h1 h2
  rcases List.mem_cons.mp hx with rfl | hx <;> rcases List.mem_cons.mp hy with rfl | hy
  · rfl
  · exact absurd ⟨h1.symm.trans hself.1, h2.symm.trans hself.2⟩ (hother y hy)
  · exact absurd ⟨h1.trans hself.1, h2.trans hself.2⟩ (hother x hx)
  · obtain ⟨hxe, hxl⟩ := hn.mem_erase_iff.mp hx
    obtain ⟨hye, hyl⟩ := hn.mem_erase_iff.mp hy
    obtain ⟨_, h3, h4, _⟩ := unlinked_eq (hb.others x hxe)
    obtain ⟨_, h5, h6, _⟩ := unlinked_eq (hb.others y hye)
    rw [h3, h5] at h1
    rw [h4, h6] at h2
    exact hd x hxl y hyl h1 h2

/-- One step. -/
theorem Touch.tidy {x y : Traced} {a : Access} (h : Touch x a y) (ht : Tidy x lru chain) :
    ∃ lru' chain', Tidy y lru' chain' ∧
      (a.Fits → Distinct x.cache lru → Distinct y.cache lru') := by
  cases h with
  | block h =>
    rename_i f bi e c
    obtain ⟨c', e', chain', heq, hstr, hb⟩ := ht.lists.block f bi
    obtain ⟨rfl, he⟩ := Prod.mk.inj (h.symm.trans heq)
    obtain rfl := Option.some.inj he
    exact ⟨_, chain', ⟨hstr, ht.ordered.access ht.lists.lruNodup e⟩,
      hb.distinct ht.lists.lruNodup⟩
  | invalidate name =>
    obtain ⟨lru', chain', hstr, htags, hsub, _⟩ := ht.lists.invalidate name
    generalize x.cache.cacheInvalidate name = c at hstr htags ⊢
    refine ⟨lru', chain', ⟨hstr, ht.ordered.sublist hsub⟩, fun _ hd x hx y hy h1 h2 => ?_⟩
    rw [htags.name, htags.name] at h1
    rw [htags.blockIndex, htags.blockIndex] at h2
    exact hd x (hsub.subset hx) y (hsub.subset hy) h1 h2
  | flush =>
    refine ⟨[], _, ⟨ht.lists.flush, ⟨.nil, fun x hx => absurd hx List.not_mem_nil⟩⟩, ?_⟩
    exact fun _ _ x hx => absurd hx List.not_mem_nil

/-- The cache after boot, with no history. -/
def boot : Traced := ⟨cacheInit, []⟩

theorem boot_tidy : Tidy boot [] fun _ => [] :=
  ⟨cacheInit_structured, ⟨.nil, fun _ hx => absurd hx List.not_mem_nil⟩⟩

theorem run_tidy {l : List Access} {x : Traced} (h : Run Touch boot l x) :
    ∃ lru chain, Tidy x lru chain ∧ ((∀ a ∈ l, a.Fits) → Distinct x.cache lru) := by
  induction h with
  | nil => exact ⟨[], _, boot_tidy, fun _ _ hx => absurd hx List.not_mem_nil⟩
  | snoc _ ha ih =>
    obtain ⟨lru, chain, ht, hd⟩ := ih
    obtain ⟨lru', chain', ht', hd'⟩ := ha.tidy ht
    refine ⟨lru', chain', ht', fun hf => ?_⟩
    simp only [List.mem_append, List.mem_singleton] at hf
    exact hd' (hf _ (.inr rfl)) (hd fun a ha => hf a (.inl ha))

/-! ## Calls -/

/-- A call of a public function. -/
inductive Call where
  | read (f : File) (offset count : Nat)
  | invalidate (name : List UInt8)
  | flush

/-- The cache after a call. -/
def call (c : Cache) : Call → Cache
  | .read f offset count => (c.cacheRead f offset count).1
  | .invalidate name => c.cacheInvalidate name
  | .flush => c.cacheFlushAll

/-- The steps that a call takes. -/
def Call.Takes : Call → Access → Prop
  | .read f _ _, .block g _ => g = f
  | .invalidate name, .invalidate n => n = name
  | .flush, .flush => True
  | _, _ => False

theorem cacheReadLoop_run {x : Traced} (ht : Tidy x lru chain) (f : File)
    (offset count fuel n : Nat) (done : List UInt8) : ∃ l y, Run Touch x l y ∧
      y.cache = (x.cache.cacheReadLoop f offset count fuel done).1 ∧
      ∀ a ∈ l, (Call.read f offset n).Takes a := by
  have hstay : ∃ l y, Run Touch x l y ∧ y.cache = x.cache ∧
      ∀ a ∈ l, (Call.read f offset n).Takes a :=
    ⟨[], x, .nil, rfl, fun a ha => absurd ha List.not_mem_nil⟩
  induction fuel generalizing x lru chain done with
  | zero => exact hstay
  | succ fuel ih =>
    unfold cacheReadLoop
    split
    · dsimp only
      obtain ⟨c', e, chain', heq, _⟩ :=
        ht.lists.block f ((offset + done.length) / cacheBlockSize % 4294967296)
      rw [heq]
      dsimp only
      have hstep := Touch.block heq
      obtain ⟨lru₁, chain₁, ht₁, _⟩ := hstep.tidy ht
      have hone : ∀ a ∈ [Access.block f ((offset + done.length) / cacheBlockSize % 4294967296)],
          (Call.read f offset n).Takes a := fun a ha => by
        rw [List.mem_singleton.mp ha]
        rfl
      split
      · exact ⟨_, _, .single hstep, rfl, hone⟩
      · obtain ⟨l, y, hrun, hy, hl⟩ := ih ht₁ (done ++ c'.copyOut e _ _)
          ⟨[], _, .nil, rfl, fun a ha => absurd ha List.not_mem_nil⟩
        refine ⟨_, y, (Run.single hstep).append hrun, hy, fun a ha => ?_⟩
        exact (List.mem_append.mp ha).elim (hone a) (hl a)
    · exact hstay

/-- A call is a run of its steps. -/
theorem call_run {x : Traced} (ht : Tidy x lru chain) (k : Call) :
    ∃ l y, Run Touch x l y ∧ y.cache = x.cache.call k ∧ ∀ a ∈ l, k.Takes a := by
  cases k with
  | read f offset count =>
    show ∃ l y, Run Touch x l y ∧ y.cache = (x.cache.cacheRead f offset count).1 ∧ _
    unfold cacheRead
    split
    · exact ⟨[], x, .nil, rfl, fun a ha => absurd ha List.not_mem_nil⟩
    · dsimp only
      obtain ⟨l, y, hrun, hy, hl⟩ := cacheReadLoop_run ht f offset (min count (f.size - offset))
        (min count (f.size - offset)) count []
      refine ⟨l, y, hrun, hy.trans ?_, hl⟩
      split <;> next heq => rw [heq]
  | invalidate name =>
    refine ⟨_, _, .single (.invalidate name), ?_, fun a ha => ?_⟩
    · dsimp only [call]
    · rw [List.mem_singleton.mp ha]
      rfl
  | flush =>
    refine ⟨_, ⟨x.cache.cacheFlushAll, x.recent⟩, .single .flush, rfl, fun a ha => ?_⟩
    rw [List.mem_singleton.mp ha]
    trivial

theorem calls_run (calls : List Call) : ∃ l x, Run Touch boot l x ∧
    x.cache = calls.foldl call cacheInit ∧ ∀ a ∈ l, ∃ k ∈ calls, k.Takes a := by
  induction calls using List.reverseRecOn with
  | nil => exact ⟨[], boot, .nil, rfl, fun a ha => absurd ha List.not_mem_nil⟩
  | append_singleton calls k ih =>
    obtain ⟨l, x, hrun, hx, hl⟩ := ih
    obtain ⟨lru, chain, ht, _⟩ := run_tidy hrun
    obtain ⟨l', y, hrun', hy, hl'⟩ := call_run ht k
    refine ⟨l ++ l', y, hrun.append hrun', ?_, fun a ha => ?_⟩
    · rw [hy, hx, List.foldl_append]
      rfl
    · rcases List.mem_append.mp ha with ha | ha
      · obtain ⟨k', hk, hta⟩ := hl a ha
        exact ⟨k', List.mem_append_left _ hk, hta⟩
      · exact ⟨k, by simp, hl' a ha⟩

/-! ## The result -/

/-- What holds of the cache after every run. -/
structure Sound (c : Cache) : Prop where
  threaded : ∃ lru chain, Structured c lru chain
  used : c.usedBlocks = (List.range cacheMaxBlocks).countP fun e => (c.pool e).valid
  limit : c.usedBlocks ≤ cacheMaxBlocks

/-- The entry stays valid, with its tag. -/
def Keeps (c c' : Cache) (e : Nat) : Prop :=
  (c'.pool e).valid = true ∧ (c'.pool e).name = (c.pool e).name ∧
    (c'.pool e).blockIndex = (c.pool e).blockIndex

/-- The step takes the entry whose last access is oldest, with all blocks in use. -/
def EvictsOldest (x y : Traced) : Prop :=
  ∃ v < cacheMaxBlocks, y.recent = v :: x.recent ∧ v ∈ x.recent ∧
    (∀ e < cacheMaxBlocks, (x.cache.pool e).valid = true) ∧
    (∀ e < cacheMaxBlocks, e ≠ v → x.recent.idxOf e < x.recent.idxOf v) ∧
    ∀ e < cacheMaxBlocks, e ≠ v → Keeps x.cache y.cache e

theorem Structured.sound (h : Structured c lru chain) : Sound c := by
  refine ⟨⟨lru, chain, h⟩, ?_, h.used ▸ h.length_le⟩
  rw [h.used, List.countP_eq_length_filter]
  refine List.Perm.length_eq ((List.perm_ext_iff_of_nodup h.lruNodup
    (List.nodup_range.filter _)).mpr fun e => ?_)
  rw [h.mem, List.mem_filter, List.mem_range]

/-- A list as long as the pool has every block. -/
theorem Structured.full (h : Structured c lru chain) (hl : lru.length = cacheMaxBlocks)
    (he : e < cacheMaxBlocks) : e ∈ lru := by
  have hs : lru ⊆ List.range cacheMaxBlocks := fun x hx => List.mem_range.mpr ((h.mem x).mp hx).1
  have hp := (List.Nodup.subperm h.lruNodup hs).perm_of_length_le (by simp [hl])
  exact hp.mem_iff.mpr (List.mem_range.mpr he)

/-- A block access keeps every valid entry but one that it evicts. -/
theorem Tidy.block {x : Traced} (ht : Tidy x lru chain)
    (h : x.cache.cacheBlock f bi = (c', some e)) :
    (c'.evictions = x.cache.evictions ∧ ∀ y ∈ lru, Keeps x.cache c' y) ∨
      EvictsOldest x ⟨c', e :: x.recent⟩ := by
  obtain ⟨c₁, e₁, chain', heq, hstr, hb⟩ := ht.lists.block f bi
  obtain ⟨rfl, he⟩ := Prod.mk.inj (h.symm.trans heq)
  obtain rfl := Option.some.inj he
  have hkeep : ∀ y ∈ lru, y ≠ e → Keeps x.cache c' y := by
    intro y hy hye
    obtain ⟨h1, h2, h3, _⟩ := unlinked_eq (hb.others y hye)
    exact ⟨h1.trans ((ht.lists.mem y).mp hy).2, h2, h3⟩
  have hvalid : (c'.pool e).valid = true := ((hstr.mem e).mp List.mem_cons_self).2
  rcases hb.outcome with ⟨_, h1, h2, h3, h4, _, hev⟩ | ⟨_, _, _, _, hcase⟩
  · refine .inl ⟨hev, fun y hy => ?_⟩
    by_cases hye : y = e
    · exact hye ▸ ⟨hvalid, h3.trans h1.symm, h4.trans h2.symm⟩
    · exact hkeep y hy hye
  · rcases hcase with ⟨hnot, hev⟩ | ⟨hfull, hlast, _⟩
    · exact .inl ⟨hev, fun y hy => hkeep y hy fun hye => hnot (hye ▸ hy)⟩
    · have hel := List.mem_of_getLast? hlast
      have hall : ∀ y < cacheMaxBlocks, y ∈ lru := fun y hy => ht.lists.full hfull hy
      exact .inr ⟨e, ((ht.lists.mem e).mp hel).1, rfl, ht.ordered.accessed e hel,
        fun y hy => ((ht.lists.mem y).mp (hall y hy)).2,
        fun y hy hye => ht.ordered.last hlast (hall y hy) hye,
        fun y hy hye => hkeep y (hall y hy) hye⟩

/-- An eviction, by its counter or by the entry that goes, is one of the oldest entry. -/
theorem Tidy.evicts {x y : Traced} {a : Access} (ht : Tidy x lru chain) (h : Touch x a y)
    (hev : y.cache.evictions ≠ x.cache.evictions ∨ (∃ f bi, a = .block f bi) ∧
      ∃ e < cacheMaxBlocks, (x.cache.pool e).valid = true ∧ ¬ Keeps x.cache y.cache e) :
    EvictsOldest x y := by
  cases h with
  | block h =>
    refine (ht.block h).resolve_left fun ⟨h1, h2⟩ => ?_
    rcases hev with hev | ⟨_, e, he, hv, hk⟩
    · exact hev h1
    · exact hk (h2 e ((ht.lists.mem e).mpr ⟨he, hv⟩))
  | invalidate name =>
    obtain ⟨_, _, _, htags, _⟩ := ht.lists.invalidate name
    rcases hev with hev | ⟨⟨_, _, h⟩, _⟩
    · exact absurd htags.evictions hev
    · exact absurd h nofun
  | flush =>
    rcases hev with hev | ⟨⟨_, _, h⟩, _⟩
    · exact absurd rfl hev
    · exact absurd h nofun

/-- Every sequence of calls is a run of steps for its files and names. After every run the lists
are those of the valid entries, and no two of these have one tag while all names fit it. A next step
evicts the oldest entry alone, and leaves no entry of a name that it invalidates. -/
theorem cache_structure :
    (∀ calls : List Call, ∃ l x, Run Touch boot l x ∧ x.cache = calls.foldl call cacheInit ∧
      ∀ a ∈ l, ∃ k ∈ calls, k.Takes a) ∧
    ∀ l x, Run Touch boot l x →
      Sound x.cache ∧
      ((∀ a ∈ l, a.Fits) → ∀ e < cacheMaxBlocks, ∀ e' < cacheMaxBlocks,
        (x.cache.pool e).valid = true → (x.cache.pool e').valid = true →
        (x.cache.pool e).name = (x.cache.pool e').name →
        (x.cache.pool e).blockIndex = (x.cache.pool e').blockIndex → e = e') ∧
      ∀ a y, Touch x a y →
        (y.cache.evictions ≠ x.cache.evictions ∨ (∃ f bi, a = .block f bi) ∧
          (∃ e < cacheMaxBlocks, (x.cache.pool e).valid = true ∧ ¬ Keeps x.cache y.cache e) →
            EvictsOldest x y) ∧
        ∀ name, a = .invalidate name → ∀ e < cacheMaxBlocks, (y.cache.pool e).valid = true →
          (y.cache.pool e).name ≠ name := by
  refine ⟨calls_run, fun l x hrun => ?_⟩
  obtain ⟨lru, chain, ht, hd⟩ := run_tidy hrun
  refine ⟨ht.lists.sound, fun hf e he e' he' hv hv' hn hb => ?_, fun a y hs => ?_⟩
  · exact hd hf e ((ht.lists.mem e).mpr ⟨he, hv⟩) e' ((ht.lists.mem e').mpr ⟨he', hv'⟩) hn hb
  · refine ⟨ht.evicts hs, ?_⟩
    rintro name rfl e he hv
    cases hs
    obtain ⟨lru', chain', hstr, htags, _, hno⟩ := ht.lists.invalidate name
    rw [htags.name]
    exact hno e ((hstr.mem e).mpr ⟨he, hv⟩)

end Cache

end GenOS
