import GenOS.Fs.CacheOrder

/-!
# What a cached read returns

`cache_read` tags a block with the first 63 bytes of the name and the low 32 bits of the block
number, and looks it up under the whole name. It copies from the file that it was given exactly when
no other block of the files in use has the tag that it looks up, or that block has the same bytes.
-/

namespace GenOS.Cache

open Machine Chain

variable {S : Set File} {c c' : Cache} {lru : List Nat} {chain : Nat → List Nat} {e : Nat}
  {f g : File} {bi : Nat}

/-- The copy that `cache_read` stands for: what is returned, and what is stored in `buf`. -/
def directRead (f : File) (offset count : Nat) : Int × List UInt8 :=
  let n := min count (f.size - offset)
  (n, (List.range n).map fun i => f.src (offset + i))

/-- The call is one on a file of `S`. -/
def Call.On (S : Set File) : Call → Prop
  | .read f _ _ => f ∈ S
  | _ => True

/-- After any calls on the files, a read of one of them is a direct copy. -/
def Transparent (S : Set File) : Prop :=
  ∀ calls : List Call, (∀ k ∈ calls, k.On S) → ∀ f ∈ S, ∀ offset count, count < 2147483648 →
    ((calls.foldl call cacheInit).cacheRead f offset count).2 = directRead f offset count

/-- The block of `g` that has the number of block `i` of `f` in 32 bits, where there is one, begins
with the bytes of block `i`. -/
def SameBlocks (f g : File) : Prop :=
  ∀ i, i * cacheBlockSize < f.size → i % 4294967296 * cacheBlockSize < g.size →
    ∀ j < cacheBlockSize, i * cacheBlockSize + j < f.size →
      i % 4294967296 * cacheBlockSize + j < g.size ∧
        f.src (i * cacheBlockSize + j) = g.src (i % 4294967296 * cacheBlockSize + j)

/-- Files of which one can be read from the blocks of another have the same blocks. -/
def Faithful (S : Set File) : Prop :=
  ∀ f ∈ S, ∀ g ∈ S, f = g ∨ f.name = g.name.take (cacheNameMax - 1) → SameBlocks f g

/-! ## Faithful files are read faithfully -/

/-- The entry holds a block of a file of `S`, under the tag of that block. -/
def IsBlock (S : Set File) (x : CacheEntry) : Prop :=
  ∃ g ∈ S, x.name = g.name.take (cacheNameMax - 1) ∧ x.blockIndex * cacheBlockSize < g.size ∧
    x.Holds g x.blockIndex

/-- Every valid entry is one of a block of `S`. -/
structure Held (S : Set File) (c : Cache) (lru : List Nat) (chain : Nat → List Nat) : Prop where
  lists : Structured c lru chain
  held : ∀ e ∈ lru, IsBlock S (c.pool e)

theorem holds_congr {x y : CacheEntry} (hd : x.data = y.data) (hb : x.bytesValid = y.bytesValid) :
    x.Holds g bi ↔ y.Holds g bi := by
  unfold CacheEntry.Holds
  rw [hd, hb]

theorem holds_pos {x : CacheEntry} (h : x.Holds g bi) (hg : bi * cacheBlockSize < g.size) :
    x.bytesValid ≠ 0 := by
  rw [h.1]
  simp only [cacheBlockSize] at hg ⊢
  omega

theorem IsBlock.congr {x y : CacheEntry} (hn : x.name = y.name)
    (hi : x.blockIndex = y.blockIndex) (hd : x.data = y.data) (hb : x.bytesValid = y.bytesValid)
    (h : IsBlock S y) : IsBlock S x := by
  obtain ⟨g, hg, h1, h2, h3⟩ := h
  rw [← hi] at h2 h3
  exact ⟨g, hg, hn.trans h1, h2, (holds_congr hd hb).mpr h3⟩

/-- The block that an access returns holds that of a file with a name of the same tag. -/
theorem Held.block (h : Held S c lru chain) (hf : f ∈ S) (hb : bi * cacheBlockSize < f.size) :
    ∃ c' e lru' chain', c.cacheBlock f bi = (c', some e) ∧ Held S c' lru' chain' ∧
      ∃ g ∈ S, (f = g ∨ f.name = g.name.take (cacheNameMax - 1)) ∧
        bi * cacheBlockSize < g.size ∧ (c'.pool e).Holds g bi := by
  obtain ⟨c', e, chain', heq, hstr, hblk⟩ := h.lists.block f bi
  have hothers : ∀ x ∈ lru.erase e, IsBlock S (c'.pool x) := by
    intro x hx
    obtain ⟨hxe, hxl⟩ := h.lists.lruNodup.mem_erase_iff.mp hx
    obtain ⟨_, h1, h2, h3, h4⟩ := unlinked_eq (hblk.others x hxe)
    exact (h.held x hxl).congr h1 h2 h3 h4
  have hheld : ∀ g ∈ S, (c'.pool e).name = g.name.take (cacheNameMax - 1) →
      (c'.pool e).blockIndex = bi → bi * cacheBlockSize < g.size → (c'.pool e).Holds g bi →
      Held S c' (e :: lru.erase e) chain' := by
    intro g hg hn hi hlt hh
    refine ⟨hstr, fun x hx => ?_⟩
    rcases List.mem_cons.mp hx with rfl | hx
    · exact ⟨g, hg, hn, hi.symm ▸ hlt, hi.symm ▸ hh⟩
    · exact hothers x hx
  rcases hblk.outcome with ⟨he, hn, hi, hn', hi', hsame, _⟩ | ⟨_, hn, hi, hh, _⟩
  · -- a hit, on a block of `g`
    obtain ⟨g, hg, h1, h2, h3⟩ := h.held e he
    rw [hi] at h2 h3
    obtain ⟨_, _, _, hd, hb'⟩ := unlinked_eq (hsame (holds_pos h3 h2))
    have hh := (holds_congr hd hb').mpr h3
    exact ⟨c', e, _, _, heq, hheld g hg (hn'.trans (hn.symm.trans h1)) hi' h2 hh, g, hg,
      .inr (hn.symm.trans h1), h2, hh⟩
  · -- a miss, filled from `f`
    exact ⟨c', e, _, _, heq, hheld f hf hn hi hb hh, f, hf, .inl rfl, hb, hh⟩

/-- The bytes copied out of a block at `b` in `g` are those at `a` in `f`, if the blocks agree. -/
theorem copyOut_eq {a off chunk : Nat}
    (hs : ∀ j < cacheBlockSize, a + j < f.size →
      bi * cacheBlockSize + j < g.size ∧ f.src (a + j) = g.src (bi * cacheBlockSize + j))
    (hh : (c.pool e).Holds g bi) (hpos : 0 < chunk) (hc : off + chunk ≤ cacheBlockSize)
    (hf : a + off + chunk ≤ f.size) :
    off < (c.pool e).bytesValid ∧
      c.copyOut e off chunk = (List.range chunk).map fun k => f.src (a + off + k) := by
  have hbyte : ∀ k < chunk, off + k < (c.pool e).bytesValid ∧
      f.src (a + off + k) = (c.pool e).data (off + k) := by
    intro k hk
    obtain ⟨hlt, hsrc⟩ := hs (off + k) (by omega) (by omega)
    have hv : off + k < (c.pool e).bytesValid := by
      rw [hh.1]
      omega
    exact ⟨hv, by rw [hh.2 _ hv, ← hsrc, Nat.add_assoc]⟩
  have hlast := (hbyte (chunk - 1) (by omega)).1
  refine ⟨by omega, ?_⟩
  unfold copyOut
  rw [Nat.min_eq_left (by omega)]
  exact List.map_congr_left fun k hk => ((hbyte k (List.mem_range.mp hk)).2).symm

theorem map_range_append {α : Type*} (src : Nat → α) (m n : Nat) :
    (List.range m).map src ++ (List.range n).map (fun k => src (m + k)) =
      (List.range (m + n)).map src := by
  rw [List.range_add, List.map_append, List.map_map]
  rfl

/-- The loop copies what is left. -/
theorem Held.readLoop (hS : Faithful S) (h : Held S c lru chain) (hf : f ∈ S)
    {offset count m fuel : Nat} (hc : offset + count ≤ f.size) (hm : m ≤ count)
    (hfuel : count - m ≤ fuel) :
    ∃ c' lru' chain', Held S c' lru' chain' ∧
      c.cacheReadLoop f offset count fuel ((List.range m).map fun k => f.src (offset + k)) =
        (c', some ((List.range count).map fun k => f.src (offset + k))) := by
  induction fuel generalizing c lru chain m with
  | zero =>
    obtain rfl : m = count := by omega
    exact ⟨c, lru, chain, h, rfl⟩
  | succ fuel ih =>
    unfold cacheReadLoop
    rw [List.length_map, List.length_range]
    by_cases hlt : m < count
    · rw [if_pos hlt]
      dsimp only
      have hdm := Nat.div_add_mod (offset + m) cacheBlockSize
      have hmod := Nat.mod_lt (offset + m) (show 0 < cacheBlockSize by decide)
      rw [Nat.mul_comm] at hdm
      generalize (offset + m) / cacheBlockSize = i at hdm ⊢
      generalize (offset + m) % cacheBlockSize = off at hdm hmod ⊢
      have hif : i * cacheBlockSize < f.size := by omega
      have hwrap : i % 4294967296 * cacheBlockSize < f.size :=
        Nat.lt_of_le_of_lt (Nat.mul_le_mul_right _ (Nat.mod_le _ _)) hif
      obtain ⟨c', e, lru', chain', heq, hheld, g, hg, hor, hgs, hh⟩ := h.block hf hwrap
      have hpos : 0 < min (cacheBlockSize - off) (count - m) := by omega
      have hend : off + min (cacheBlockSize - off) (count - m) ≤ cacheBlockSize := by omega
      have hfit : i * cacheBlockSize + off + min (cacheBlockSize - off) (count - m) ≤ f.size := by
        omega
      have hleft : m + min (cacheBlockSize - off) (count - m) ≤ count := by omega
      obtain ⟨hv, hcopy⟩ := copyOut_eq (hS f hf g hg hor i hif hgs) hh hpos hend hfit
      have happ := map_range_append (fun k => f.src (offset + k)) m
        (min (cacheBlockSize - off) (count - m))
      rw [heq]
      dsimp only
      rw [if_neg (Nat.not_le.mpr hv), hcopy, hdm]
      simp only [← Nat.add_assoc] at happ
      rw [happ]
      exact ih hheld hleft (by omega)
    · obtain rfl : m = count := by omega
      rw [if_neg hlt]
      exact ⟨c, lru, chain, h, rfl⟩

theorem Held.read (hS : Faithful S) (h : Held S c lru chain) (hf : f ∈ S) (offset count : Nat) :
    ∃ lru' chain', Held S (c.cacheRead f offset count).1 lru' chain' ∧
      (count < 2147483648 → (c.cacheRead f offset count).2 = directRead f offset count) := by
  unfold cacheRead directRead
  by_cases ho : f.size ≤ offset
  · rw [if_pos ho, Nat.sub_eq_zero_of_le ho, Nat.min_zero]
    exact ⟨lru, chain, h, fun _ => rfl⟩
  · rw [if_neg ho]
    dsimp only
    have hle : offset + min count (f.size - offset) ≤ f.size := by omega
    obtain ⟨c', lru', chain', h', heq⟩ := h.readLoop hS hf (m := 0) hle (Nat.zero_le _)
      (Nat.sub_le _ _)
    simp only [List.range_zero, List.map_nil] at heq
    rw [heq]
    refine ⟨lru', chain', h', fun hc => ?_⟩
    have hn : min count (f.size - offset) < 2147483648 := by omega
    simp only [List.length_map, List.length_range]
    rw [Nat.mod_eq_of_lt (by omega), toInt32_of_lt hn]

theorem Held.step (hS : Faithful S) (h : Held S c lru chain) {k : Call} (hk : k.On S) :
    ∃ lru' chain', Held S (c.call k) lru' chain' := by
  cases k with
  | read f offset count =>
    obtain ⟨lru', chain', h', _⟩ := h.read hS hk offset count
    exact ⟨lru', chain', h'⟩
  | invalidate name =>
    obtain ⟨lru', chain', hstr, htags, hsub, _⟩ := h.lists.invalidate name
    exact ⟨lru', chain', hstr, fun e he => (h.held e (hsub.subset he)).congr (htags.name e)
      (htags.blockIndex e) (htags.data e) (htags.bytesValid e)⟩
  | flush => exact ⟨[], _, h.lists.flush, fun e he => absurd he List.not_mem_nil⟩

theorem Held.run (hS : Faithful S) (calls : List Call) (hk : ∀ k ∈ calls, k.On S) :
    ∃ lru chain, Held S (calls.foldl call cacheInit) lru chain := by
  induction calls using List.reverseRecOn with
  | nil => exact ⟨[], _, cacheInit_structured, fun e he => absurd he List.not_mem_nil⟩
  | append_singleton calls k ih =>
    obtain ⟨lru, chain, h⟩ := ih fun k' hk' => hk k' (List.mem_append_left _ hk')
    rw [List.foldl_append]
    exact h.step hS (hk k (by simp))

/-! ## Unfaithful files are not -/

/-- A read of one byte. -/
theorem cacheRead_one {off : Nat}
    (heq : c.cacheBlock f (off / cacheBlockSize % 4294967296) = (c', some e)) (ho : off < f.size) :
    c.cacheRead f off 1 = (c', if (c'.pool e).bytesValid ≤ off % cacheBlockSize then (0, [])
      else (1, [(c'.pool e).data (off % cacheBlockSize)])) := by
  have hmod := Nat.mod_lt off (show 0 < cacheBlockSize by decide)
  have h1 : min 1 (f.size - off) = 1 := by omega
  have h2 : min (cacheBlockSize - off % cacheBlockSize) 1 = 1 := by omega
  unfold cacheRead
  rw [if_neg (Nat.not_le.mpr ho)]
  dsimp only
  rw [h1, cacheReadLoop, List.length_nil, if_pos Nat.one_pos]
  dsimp only
  rw [Nat.add_zero, Nat.sub_zero, heq, h2]
  dsimp only
  by_cases hv : (c'.pool e).bytesValid ≤ off % cacheBlockSize
  · rw [if_pos hv, if_pos hv]
    rfl
  · have h3 : min 1 ((c'.pool e).bytesValid - off % cacheBlockSize) = 1 := by omega
    rw [if_neg hv, if_neg hv, copyOut, h3]
    rfl

/-- The first access to a block fills it. -/
theorem cacheInit_block (f : File) (bi : Nat) : ∃ c e chain,
    cacheInit.cacheBlock f bi = (c, some e) ∧
    Structured c [e] chain ∧ (c.pool e).name = f.name.take (cacheNameMax - 1) ∧
    (c.pool e).blockIndex = bi ∧ (c.pool e).Holds f bi := by
  obtain ⟨c, e, chain, heq, hstr, hb⟩ := cacheInit_structured.block f bi
  rcases hb.outcome with ⟨he, _⟩ | ⟨_, hn, hi, hh, _⟩
  · exact absurd he List.not_mem_nil
  · exact ⟨c, e, chain, heq, hstr, hn, hi, hh⟩

/-- Calls after which an access to block `bi` of `f` returns that of `g`. -/
theorem exists_calls (hg : g ∈ S) (hbi : bi < 4294967296)
    (hor : f = g ∨ f.name = g.name.take (cacheNameMax - 1)) (hgb : bi * cacheBlockSize < g.size) :
    ∃ calls : List Call, (∀ k ∈ calls, k.On S) ∧ ∃ c' e,
      (calls.foldl call cacheInit).cacheBlock f bi = (c', some e) ∧ (c'.pool e).Holds g bi := by
  rcases hor with rfl | hname
  · obtain ⟨c', e, _, heq, _, _, _, hh⟩ := cacheInit_block f bi
    exact ⟨[], fun k hk => absurd hk List.not_mem_nil, c', e, heq, hh⟩
  · -- the block of `g` is cached first, and found for `f`
    obtain ⟨c₁, e₁, chain₁, heq₁, hstr₁, hn₁, hi₁, hh₁⟩ := cacheInit_block g bi
    have hidx : bi * cacheBlockSize / cacheBlockSize % 4294967296 = bi := by
      rw [Nat.mul_div_cancel _ (by decide), Nat.mod_eq_of_lt hbi]
    obtain ⟨c', e, _, heq, _, hb⟩ := hstr₁.block f bi
    refine ⟨[.read g (bi * cacheBlockSize) 1], fun k hk => List.mem_singleton.mp hk ▸ hg,
      c', e, ?_, ?_⟩
    · show (cacheInit.cacheRead g _ 1).1.cacheBlock f bi = _
      rw [cacheRead_one (by rw [hidx]; exact heq₁) hgb]
      exact heq
    · rcases hb.outcome with ⟨he, _, _, _, _, hsame, _⟩ | ⟨hno, _⟩
      · obtain rfl := List.mem_singleton.mp he
        obtain ⟨_, _, _, hd, hv⟩ := unlinked_eq (hsame (holds_pos hh₁ hgb))
        exact (holds_congr hd hv).mpr hh₁
      · exact absurd ⟨hn₁.trans hname.symm, hi₁⟩ (hno e₁ (List.mem_singleton_self e₁))

/-- Reads of the files `S` through the cache are direct copies, whatever was read, invalidated or
flushed before, exactly when the files are faithful. -/
theorem cache_transparent (S : Set File) : Transparent S ↔ Faithful S := by
  constructor
  · intro h f hf g hg hor i hif hgi j hj hfj
    have hw := Nat.mod_lt i (show 0 < 4294967296 by decide)
    have hdiv : (i * cacheBlockSize + j) / cacheBlockSize = i := by
      rw [Nat.mul_comm, Nat.mul_add_div (by decide), Nat.div_eq_of_lt hj, Nat.add_zero]
    have hmod : (i * cacheBlockSize + j) % cacheBlockSize = j := by
      rw [Nat.mul_comm, Nat.mul_add_mod, Nat.mod_eq_of_lt hj]
    have hread := fun calls hcalls => h calls hcalls f hf (i * cacheBlockSize + j) 1 (by decide)
    have hmin : min 1 (f.size - (i * cacheBlockSize + j)) = 1 := by omega
    obtain ⟨calls, hcalls, c', e, heq, hv, hd⟩ := exists_calls hg hw hor hgi
    have hread := hread calls hcalls
    rw [cacheRead_one (by rw [hdiv]; exact heq) hfj, hmod, directRead, hmin] at hread
    generalize i % 4294967296 = w at hv hd ⊢
    by_cases hle : (c'.pool e).bytesValid ≤ j
    · rw [if_pos hle] at hread
      exact absurd (congrArg Prod.fst hread) nofun
    · rw [if_neg hle] at hread
      simp only [List.range_one, List.map_cons, List.map_nil, Nat.add_zero, Prod.mk.injEq,
        List.cons.injEq, and_true] at hread
      have hlt : j < (c'.pool e).bytesValid := Nat.not_le.mp hle
      rw [hd j hlt] at hread
      rw [hv] at hlt
      refine ⟨?_, hread.2.symm⟩
      rw [Nat.add_comm]
      exact Nat.add_lt_of_lt_sub (Nat.lt_of_lt_of_le hlt (Nat.min_le_right _ _))
  · intro hS calls hcalls f hf offset count hc
    obtain ⟨lru, chain, h⟩ := Held.run hS calls hcalls
    obtain ⟨_, _, _, hread⟩ := h.read hS hf offset count
    exact hread hc

/-- Names that fit the tag, one file a name, and at most 2³² blocks a file are enough. -/
theorem faithful_of_short (hshort : ∀ f ∈ S, f.name.length < cacheNameMax)
    (hinj : ∀ f ∈ S, ∀ g ∈ S, f.name = g.name → f = g)
    (hsize : ∀ f ∈ S, f.size ≤ 4294967296 * cacheBlockSize) : Faithful S := by
  intro f hf g hg hor i hif _ j _ hfj
  have htake : g.name.take (cacheNameMax - 1) = g.name :=
    List.take_of_length_le (Nat.le_pred_of_lt (hshort g hg))
  obtain rfl : f = g := hor.elim id fun h => hinj f hf g hg (h.trans htake)
  have hi : i < 4294967296 :=
    Nat.lt_of_mul_lt_mul_right (Nat.lt_of_lt_of_le hif (hsize f hf))
  rw [Nat.mod_eq_of_lt hi]
  exact ⟨hfj, rfl⟩

/-- Two files of one byte, with names of 64 and of 63 letters. -/
def longFile : File := ⟨List.replicate 64 97, fun _ => 1, 1⟩

def shortFile : File := ⟨List.replicate 63 97, fun _ => 2, 1⟩

/-- The second file is read as the first. -/
theorem cache_not_transparent : longFile.name ≠ shortFile.name ∧
    (((cacheInit.cacheRead longFile 0 1).1.cacheRead shortFile 0 1).2 = (1, [1])) ∧
    directRead shortFile 0 1 = (1, [2]) ∧ ¬ Transparent {longFile, shortFile} := by
  refine ⟨by decide, by decide +kernel, by decide, fun h => ?_⟩
  have hon : ∀ k ∈ [Call.read longFile 0 1], k.On {longFile, shortFile} :=
    fun k hk => List.mem_singleton.mp hk ▸ .inl rfl
  have hread := h _ hon shortFile (.inr rfl) 0 1 (by decide)
  have hget : (([Call.read longFile 0 1].foldl call cacheInit).cacheRead shortFile 0 1).2 =
      (1, [1]) := by decide +kernel
  exact absurd (hget.symm.trans hread) (by decide)

end GenOS.Cache
