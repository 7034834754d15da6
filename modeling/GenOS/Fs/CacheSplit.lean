import GenOS.Fs.CacheOrder

/-!
# Cached reads in pieces

To look up the block that was looked up last changes nothing, as long as the stored tag holds the
whole name. So a read is one of each byte in turn, and two reads in a row are one read. A longer
name is never found: each access fills a new block, with the bytes of the file.
-/

namespace GenOS.Cache

open Chain

variable {c c' d : Cache} {lru l : List Nat} {chain : Nat → List Nat} {e bi m n x : Nat} {f : File}
  {name : List UInt8}

/-! ## The block looked up last -/

attribute [ext] Cache CacheEntry

/-- The front entry is where it is. -/
theorem Linkage.lruPromote_head (h : Linkage c (e :: l) chain) : c.lruPromote e = c := by
  have hhead : c.lruHead = some e := h.order.fwd.head?
  have horder : DLinked (fun e => (c.pool e).lruNext) (fun e => (c.pool e).lruPrev) c.lruHead
      c.lruTail ([] ++ e :: l) := h.order
  have hprev : (c.pool e).lruPrev = none := DLinked.prev_eq horder
  have hnext : (c.pool e).lruNext = l.head? := DLinked.next_eq horder
  have htail : c.lruTail = (e :: l).getLast? := h.order.last_eq
  have hback : ∀ x, l.head? = some x → (c.pool x).lruPrev = some e := by
    intro x hx
    obtain ⟨l', rfl⟩ := List.head?_eq_some_iff.mp hx
    have hnext : DLinked (fun e => (c.pool e).lruNext) (fun e => (c.pool e).lruPrev) c.lruHead
        c.lruTail ([e] ++ x :: l') := h.order
    exact DLinked.prev_eq hnext
  obtain ⟨h1, h2, hr⟩ := lruRemove_links (c := c) e
  rw [hprev, hnext] at h1 h2
  have hne : (c.lruRemove e).lruHead ≠ some e := by
    rw [h1, if_pos rfl]
    exact fun he => (List.nodup_cons.mp h.lruNodup).1 (List.mem_of_mem_head? he)
  obtain ⟨g1, g2, g3, g4, hg⟩ := lruPushHead_links hne
  have hs := lruPromote_same (c := c) e
  have hlinks : ∀ x, ((c.lruPromote e).pool x).lruNext = (c.pool x).lruNext ∧
      ((c.lruPromote e).pool x).lruPrev = (c.pool x).lruPrev := by
    intro x
    unfold Cache.lruPromote
    by_cases hx : x = e
    · rw [hx, g3, g4, h1, if_pos rfl, hnext, hprev]
      exact ⟨rfl, rfl⟩
    · obtain ⟨r1, r2⟩ := hr x hx
      obtain ⟨p1, p2⟩ := hg x hx
      rw [hprev] at r1 r2
      rw [hnext] at r2
      rw [p1, p2, r1, r2, h1, if_pos rfl, if_neg nofun]
      refine ⟨rfl, ?_⟩
      split
      · next hx => exact (hback x hx).symm
      · rfl
  refine Cache.ext (funext fun x => ?_) hs.hashTable (g1.trans hhead.symm) ?_ hs.freeHint
    hs.usedBlocks hs.evictions
  · rw [hs.pool x, (hlinks x).1, (hlinks x).2]
  · refine g2.trans ?_
    rw [h2, htail]
    cases l with
    | nil => rfl
    | cons b l =>
      rw [List.head?_cons, if_neg nofun, List.getLast?_cons_cons]
      cases hl : (b :: l).getLast? with
      | none => exact absurd (List.getLast?_eq_none_iff.mp hl) (List.cons_ne_nil _ _)
      | some t => rfl

theorem hashScan_congr (h : ∀ y, (c'.pool y).blockIndex = (c.pool y).blockIndex ∧
      (c'.pool y).name = (c.pool y).name ∧ (c'.pool y).hashNext = (c.pool y).hashNext)
    (name : List UInt8) (bi fuel : Nat) (o : Option Nat) :
    c'.hashScan name bi fuel o = c.hashScan name bi fuel o := by
  induction fuel generalizing o with
  | zero => rfl
  | succ fuel ih =>
    cases o with
    | none => rfl
    | some y =>
      obtain ⟨h1, h2, h3⟩ := h y
      rw [hashScan, hashScan, h1, h2, h3, ih]

theorem hashLookup_congr (ht : c'.hashTable = c.hashTable)
    (h : ∀ y, (c'.pool y).blockIndex = (c.pool y).blockIndex ∧ (c'.pool y).name = (c.pool y).name ∧
      (c'.pool y).hashNext = (c.pool y).hashNext) (name : List UInt8) (bi : Nat) :
    c'.hashLookup name bi = c.hashLookup name bi := by
  unfold hashLookup
  rw [ht, hashScan_congr h]

theorem SameLru.hashLookup (h : SameLru c c') (name : List UInt8) (bi : Nat) :
    c'.hashLookup name bi = c.hashLookup name bi := by
  refine hashLookup_congr h.hashTable (fun y => ?_) name bi
  rw [h.pool y]
  exact ⟨rfl, rfl, rfl⟩

/-- A new block is the first of its chain, under a name that its tag holds. -/
theorem installBlock_lookup (c : Cache) (e bi : Nat) (hn : name.length < cacheNameMax) :
    (c.installBlock e name bi).hashLookup name bi = some e := by
  have htake : name.take (cacheNameMax - 1) = name :=
    List.take_of_length_le (Nat.le_pred_of_lt hn)
  unfold installBlock
  dsimp only
  rw [(lruPushHead_same e).hashLookup, htake, Cache.hashLookup]
  simp [Cache.hashInsert, hashScan]

/-- The block that `cache_get_block` returns is found again. -/
theorem cacheGetBlock_lookup (hn : name.length < cacheNameMax)
    (heq : c.cacheGetBlock name bi = (c', some e)) : c'.hashLookup name bi = some e := by
  unfold cacheGetBlock at heq
  split at heq
  · next e' hl =>
    obtain ⟨rfl, he⟩ := Prod.mk.inj heq
    obtain rfl := Option.some.inj he
    exact ((lruPromote_same e').hashLookup name bi).trans hl
  · split at heq
    · obtain ⟨rfl, he⟩ := Prod.mk.inj heq
      obtain rfl := Option.some.inj he
      exact installBlock_lookup _ _ bi hn
    · split at heq
      · obtain ⟨rfl, he⟩ := Prod.mk.inj heq
        obtain rfl := Option.some.inj he
        exact installBlock_lookup _ _ bi hn
      · exact absurd (congrArg Prod.snd heq) nofun

/-- **The last block again**: nothing changes. -/
theorem Structured.block_again (h : Structured c lru chain) (hn : f.name.length < cacheNameMax)
    (hb : bi * cacheBlockSize < f.size) (heq : c.cacheBlock f bi = (c', some e)) :
    c'.cacheBlock f bi = (c', some e) := by
  obtain ⟨c₁, e₁, chain₁, hget, hstr, -⟩ := h.getBlock f.name bi
  have hlook := cacheGetBlock_lookup hn hget
  rw [cacheBlock_eq hget] at heq
  obtain ⟨hc, he⟩ := Prod.mk.inj heq
  obtain rfl := Option.some.inj he
  have hfill : min cacheBlockSize (f.size - bi * cacheBlockSize) ≠ 0 := by
    simp only [cacheBlockSize] at hb ⊢
    omega
  have hset : (c₁.setEntry e₁ (fillEntry (c₁.pool e₁) f bi)).hashLookup f.name bi =
      c₁.hashLookup f.name bi := by
    refine hashLookup_congr setEntry_hashTable (fun y => ?_) f.name bi
    rw [setEntry_pool]
    split
    · next hy => rw [hy]; exact ⟨rfl, rfl, rfl⟩
    · exact ⟨rfl, rfl, rfl⟩
  have hlook' : c'.hashLookup f.name bi = some e₁ := by
    rw [← hc]
    split
    · exact hset.trans hlook
    · exact hlook
  have hlink : Linkage c' (e₁ :: lru.erase e₁) chain₁ := by
    rw [← hc]
    split
    · exact hstr.setEntry (fun _ => ⟨rfl, rfl⟩) fun _ _ => rfl
    · exact hstr.toLinkage
  have hvalid : (c'.pool e₁).bytesValid ≠ 0 := by
    rw [← hc]
    split
    · rw [setEntry_pool_self]
      exact hfill
    · assumption
  have hget' : c'.cacheGetBlock f.name bi = (c', some e₁) := by
    unfold cacheGetBlock
    rw [hlook']
    dsimp only
    rw [hlink.lruPromote_head]
  rw [cacheBlock_eq hget', if_neg hvalid]

/-! ## Stored names -/

/-- The lists are in order, and no stored name is too long for its field. -/
def Tagged (c : Cache) : Prop :=
  ∃ lru chain, Structured c lru chain ∧ ∀ e ∈ lru, (c.pool e).name.length < cacheNameMax

theorem cacheInit_tagged : Tagged cacheInit :=
  ⟨[], _, cacheInit_structured, fun _ he => absurd he List.not_mem_nil⟩

theorem Blocked.tagged {chain' : Nat → List Nat} (hb : Blocked c c' lru f bi e)
    (hstr : Structured c' (e :: lru.erase e) chain')
    (ht : ∀ e ∈ lru, (c.pool e).name.length < cacheNameMax) : Tagged c' := by
  refine ⟨_, chain', hstr, fun y hy => ?_⟩
  rcases List.mem_cons.mp hy with rfl | hy
  · rcases hb.outcome with ⟨he, h1, _, h2, _⟩ | ⟨_, h1, _⟩
    · rw [h2, ← h1]
      exact ht y he
    · rw [h1, List.length_take]
      exact Nat.lt_of_le_of_lt (Nat.min_le_left _ _) (by decide)
  · have hne : y ≠ e := fun he => (List.nodup_cons.mp hstr.lruNodup).1 (he ▸ hy)
    rw [(unlinked_eq (hb.others y hne)).2.1]
    exact ht y (List.mem_of_mem_erase hy)

theorem Tagged.block (h : Tagged c) (f : File) (bi : Nat) :
    ∃ c' e, c.cacheBlock f bi = (c', some e) ∧ Tagged c' := by
  obtain ⟨lru, chain, hstr, ht⟩ := h
  obtain ⟨c', e, chain', heq, hstr', hb⟩ := hstr.block f bi
  exact ⟨c', e, heq, hb.tagged hstr' ht⟩

/-- A name that does not fit is not found. -/
theorem Tagged.block_long (h : Tagged c) (hn : cacheNameMax ≤ f.name.length)
    (heq : c.cacheBlock f bi = (c', some e)) : (c'.pool e).Holds f bi := by
  obtain ⟨lru, chain, hstr, ht⟩ := h
  obtain ⟨c₁, e₁, chain', heq₁, hstr', hb⟩ := hstr.block f bi
  obtain ⟨rfl, he⟩ := Prod.mk.inj (heq.symm.trans heq₁)
  obtain rfl := Option.some.inj he
  rcases hb.outcome with ⟨he, h1, _⟩ | ⟨_, _, _, hh, _⟩
  · have hlt := ht e he
    rw [h1] at hlt
    exact absurd hlt (Nat.not_lt.mpr hn)
  · exact hh

theorem Tagged.readLoop (h : Tagged c) (f : File) (offset count fuel : Nat) (done : List UInt8) :
    ∃ c' bytes, c.cacheReadLoop f offset count fuel done = (c', some bytes) ∧ Tagged c' := by
  induction fuel generalizing c done with
  | zero => exact ⟨c, done, rfl, h⟩
  | succ fuel ih =>
    unfold cacheReadLoop
    split
    · obtain ⟨c', e, heq, h'⟩ := h.block f ((offset + done.length) / cacheBlockSize % 4294967296)
      dsimp only
      rw [heq]
      dsimp only
      split
      · exact ⟨c', done, rfl, h'⟩
      · exact ih h' _
    · exact ⟨c, done, rfl, h⟩

theorem Tagged.read (h : Tagged c) (f : File) (offset count : Nat) :
    Tagged (c.cacheRead f offset count).1 := by
  unfold cacheRead
  split
  · exact h
  · obtain ⟨c', bytes, heq, h'⟩ := h.readLoop f offset (min count (f.size - offset))
      (min count (f.size - offset)) []
    dsimp only
    rw [heq]
    exact h'

/-! ## Byte by byte -/

/-- `n` bytes from byte `x` on, each from its block, up to the first that its block does not
have. -/
def readBytes (f : File) : (n x : Nat) → Cache → Cache × List UInt8
  | 0, _, c => (c, [])
  | n + 1, x, c =>
    match c.cacheBlock f (x / cacheBlockSize % 4294967296) with
    | (c, none) => (c, [])
    | (c, some e) =>
      if (c.pool e).bytesValid ≤ x % cacheBlockSize then (c, [])
      else
        let r := readBytes f n (x + 1) c
        (r.1, (c.pool e).data (x % cacheBlockSize) :: r.2)

theorem readBytes_stop (heq : c.cacheBlock f (x / cacheBlockSize % 4294967296) = (c', some e))
    (h : (c'.pool e).bytesValid ≤ x % cacheBlockSize) (n : Nat) :
    readBytes f (n + 1) x c = (c', []) := by
  rw [readBytes, heq]
  exact if_pos h

theorem readBytes_next (heq : c.cacheBlock f (x / cacheBlockSize % 4294967296) = (c', some e))
    (h : x % cacheBlockSize < (c'.pool e).bytesValid) (n : Nat) :
    readBytes f (n + 1) x c = ((readBytes f n (x + 1) c').1,
      (c'.pool e).data (x % cacheBlockSize) :: (readBytes f n (x + 1) c').2) := by
  rw [readBytes, heq]
  exact if_neg (Nat.not_le.mpr h)

theorem length_readBytes_le (f : File) (n x : Nat) (c : Cache) :
    (readBytes f n x c).2.length ≤ n := by
  induction n generalizing x c with
  | zero => exact Nat.le_refl 0
  | succ n ih =>
    rw [readBytes]
    split
    · exact Nat.zero_le _
    · split
      · exact Nat.zero_le _
      · exact Nat.succ_le_succ (ih _ _)

/-- A shorter read is the first part of a longer one. -/
theorem readBytes_take (f : File) (h : m ≤ n) (x : Nat) (c : Cache) :
    (readBytes f m x c).2 = (readBytes f n x c).2.take m := by
  induction m generalizing n x c with
  | zero => rfl
  | succ m ih =>
    obtain ⟨n, rfl⟩ := Nat.exists_eq_add_of_le' (Nat.lt_of_lt_of_le (Nat.zero_lt_succ m) h)
    rw [readBytes, readBytes]
    split
    · rfl
    · split
      · rfl
      · exact congrArg _ (ih (Nat.le_of_succ_le_succ h) _ _)

/-- Two reads in a row. -/
theorem readBytes_add (f : File) (n : Nat) (h : (readBytes f m x c).2.length = m) :
    readBytes f (m + n) x c =
      ((readBytes f n (x + m) (readBytes f m x c).1).1,
        (readBytes f m x c).2 ++ (readBytes f n (x + m) (readBytes f m x c).1).2) := by
  induction m generalizing x c with
  | zero => simp [readBytes]
  | succ m ih =>
    rw [readBytes] at h ⊢
    rw [Nat.add_right_comm, readBytes]
    split
    · next heq => simp [heq] at h
    · next c' e heq =>
      simp only [heq] at h
      split
      · next hv => simp [hv] at h
      · next hv =>
        simp only [hv, if_false, List.length_cons, Nat.add_right_cancel_iff] at h
        simp [ih h, Nat.add_comm 1, Nat.add_assoc]

/-- The bytes of one block, which is looked up once. -/
theorem readBytes_block (h : Tagged c) (hn : f.name.length < cacheNameMax)
    (heq : c.cacheBlock f (x / cacheBlockSize % 4294967296) = (c', some e)) (hm : 0 < m)
    (hv : x % cacheBlockSize + m ≤ (c'.pool e).bytesValid)
    (hc : x % cacheBlockSize + m ≤ cacheBlockSize)
    (hb : x / cacheBlockSize % 4294967296 * cacheBlockSize < f.size) (n : Nat) :
    readBytes f (m + n) x c = ((readBytes f n (x + m) c').1,
      (List.range m).map (fun i => (c'.pool e).data (x % cacheBlockSize + i)) ++
        (readBytes f n (x + m) c').2) := by
  induction m generalizing c x with
  | zero => exact absurd hm (Nat.lt_irrefl 0)
  | succ m ih =>
    rw [Nat.add_right_comm, readBytes_next heq (by omega), List.range_succ_eq_map, List.map_cons,
      List.map_map, List.cons_append, Nat.add_zero, Function.comp_def]
    rcases Nat.eq_zero_or_pos m with rfl | hm
    · simp
    · have hdiv : (x + 1) / cacheBlockSize = x / cacheBlockSize := by
        simp only [cacheBlockSize] at hc ⊢
        omega
      have hmod : (x + 1) % cacheBlockSize = x % cacheBlockSize + 1 := by
        simp only [cacheBlockSize] at hc ⊢
        omega
      obtain ⟨lru, chain, hstr, ht⟩ := h
      obtain ⟨c₁, e₁, chain₁, heq₁, hstr₁, hb₁⟩ := hstr.block f (x / cacheBlockSize % 4294967296)
      obtain ⟨rfl, he⟩ := Prod.mk.inj (heq.symm.trans heq₁)
      obtain rfl := Option.some.inj he
      have hagain := hstr.block_again hn hb heq
      rw [← hdiv] at hagain
      rw [ih (hb₁.tagged hstr₁ ht) hagain hm (by omega) (by omega) (hdiv ▸ hb), hmod]
      simp only [Nat.succ_eq_add_one, Nat.add_assoc, Nat.add_comm 1, Nat.add_zero]

/-- With a name that its tag holds, the loop of `cache_read` reads byte by byte. -/
theorem Tagged.readLoop_short (h : Tagged c) (hn : f.name.length < cacheNameMax)
    {offset count fuel : Nat} {done : List UInt8} (hc : offset + count ≤ f.size)
    (hd : done.length ≤ count) (hfuel : count - done.length ≤ fuel) :
    c.cacheReadLoop f offset count fuel done =
      ((readBytes f (count - done.length) (offset + done.length) c).1,
        some (done ++ (readBytes f (count - done.length) (offset + done.length) c).2)) := by
  induction fuel generalizing c done with
  | zero =>
    rw [Nat.le_zero.mp hfuel]
    simp [cacheReadLoop, readBytes]
  | succ fuel ih =>
    unfold cacheReadLoop
    by_cases hlt : done.length < count
    · rw [if_pos hlt]
      dsimp only
      obtain ⟨c', e, heq, h'⟩ := h.block f ((offset + done.length) / cacheBlockSize % 4294967296)
      rw [heq]
      dsimp only
      obtain ⟨left, hleft⟩ := Nat.exists_eq_add_of_lt hlt
      have hmod := Nat.mod_lt (offset + done.length) (show 0 < cacheBlockSize by decide)
      by_cases hv : (c'.pool e).bytesValid ≤ (offset + done.length) % cacheBlockSize
      · rw [if_pos hv, show count - done.length = left + 1 by omega, readBytes_stop heq hv,
          List.append_nil]
      · -- the bytes of the block, and what is left
        have hb :
            (offset + done.length) / cacheBlockSize % 4294967296 * cacheBlockSize < f.size := by
          simp only [cacheBlockSize]
          omega
        rw [if_neg hv]
        generalize hm : min (min (cacheBlockSize - (offset + done.length) % cacheBlockSize)
          (count - done.length))
          ((c'.pool e).bytesValid - (offset + done.length) % cacheBlockSize) = m
        have hout : c'.copyOut e ((offset + done.length) % cacheBlockSize)
            (min (cacheBlockSize - (offset + done.length) % cacheBlockSize) (count - done.length)) =
            (List.range m).map fun i =>
              (c'.pool e).data ((offset + done.length) % cacheBlockSize + i) := by
          rw [← hm]
          rfl
        have hlen : (done ++ (List.range m).map fun i =>
            (c'.pool e).data ((offset + done.length) % cacheBlockSize + i)).length =
            done.length + m := by
          simp
        rw [hout, ih h' (by omega) (by omega), hlen,
          show count - done.length = m + (count - (done.length + m)) by omega,
          readBytes_block h hn heq (by omega) (by omega) (by omega) hb, List.append_assoc,
          Nat.add_assoc]
    · have hz : count - done.length = 0 := by omega
      rw [if_neg hlt, hz]
      simp [readBytes]

theorem Tagged.read_short (h : Tagged c) (hn : f.name.length < cacheNameMax) (offset count : Nat)
    (hc : count < 2147483648) :
    c.cacheRead f offset count =
      ((readBytes f (min count (f.size - offset)) offset c).1,
        ((readBytes f (min count (f.size - offset)) offset c).2.length : Int),
        (readBytes f (min count (f.size - offset)) offset c).2) := by
  unfold cacheRead
  by_cases ho : f.size ≤ offset
  · rw [if_pos ho, Nat.sub_eq_zero_of_le ho, Nat.min_zero]
    rfl
  · have hlen := length_readBytes_le f (min count (f.size - offset)) offset c
    have hloop := h.readLoop_short hn (show offset + min count (f.size - offset) ≤ f.size by omega)
      (show ([] : List UInt8).length ≤ _ from Nat.zero_le _) (Nat.sub_le _ _)
    rw [if_neg ho]
    dsimp only
    rw [hloop]
    simp only [List.length_nil, Nat.add_zero, Nat.sub_zero, List.nil_append]
    rw [Nat.mod_eq_of_lt (by omega), toInt32_of_lt (by omega)]

/-! ## Names that do not fit -/

/-- The byte that `cache_read` fills in for byte `x`: block numbers have 32 bits. -/
def wrapped (x : Nat) : Nat :=
  x / cacheBlockSize % 4294967296 * cacheBlockSize + x % cacheBlockSize

theorem wrapped_le (x : Nat) : wrapped x ≤ x := by
  simp only [wrapped, cacheBlockSize]
  omega

/-- The bytes of the file, whatever is cached. -/
def fileBytes (f : File) (offset n : Nat) : List UInt8 :=
  (List.range n).map fun i => f.src (wrapped (offset + i))

theorem length_fileBytes (f : File) (offset n : Nat) : (fileBytes f offset n).length = n := by
  simp [fileBytes]

theorem fileBytes_add (f : File) (offset m n : Nat) :
    fileBytes f offset (m + n) = fileBytes f offset m ++ fileBytes f (offset + m) n := by
  simp [fileBytes, List.range_add, Nat.add_assoc]

theorem Tagged.readLoop_long (h : Tagged c) (hn : cacheNameMax ≤ f.name.length)
    {offset count fuel m : Nat} (hc : offset + count ≤ f.size) (hm : m ≤ count)
    (hfuel : count - m ≤ fuel) :
    (c.cacheReadLoop f offset count fuel (fileBytes f offset m)).2 =
      some (fileBytes f offset count) := by
  induction fuel generalizing c m with
  | zero =>
    obtain rfl : m = count := by omega
    rfl
  | succ fuel ih =>
    unfold cacheReadLoop
    rw [length_fileBytes]
    by_cases hlt : m < count
    · obtain ⟨c', e, heq, h'⟩ := h.block f ((offset + m) / cacheBlockSize % 4294967296)
      have hh := h.block_long hn heq
      have hw : wrapped (offset + m) = (offset + m) / cacheBlockSize % 4294967296 * cacheBlockSize +
          (offset + m) % cacheBlockSize := rfl
      have hle := wrapped_le (offset + m)
      have hmod := Nat.mod_lt (offset + m) (show 0 < cacheBlockSize by decide)
      rw [if_pos hlt]
      dsimp only
      rw [heq]
      dsimp only
      generalize hk : min (cacheBlockSize - (offset + m) % cacheBlockSize) (count - m) = k
      have hv : (offset + m) % cacheBlockSize + k ≤ (c'.pool e).bytesValid := by
        rw [hh.1]
        omega
      have hout : c'.copyOut e ((offset + m) % cacheBlockSize) k = fileBytes f (offset + m) k := by
        unfold copyOut fileBytes
        rw [Nat.min_eq_left (by omega)]
        refine List.map_congr_left fun i hi => ?_
        have hik := List.mem_range.mp hi
        have hidx : wrapped (offset + m + i) = (offset + m) / cacheBlockSize % 4294967296 *
            cacheBlockSize + ((offset + m) % cacheBlockSize + i) := by
          simp only [wrapped, cacheBlockSize] at hk ⊢
          omega
        rw [hidx, hh.2 _ (by omega)]
      rw [if_neg (by omega), hout, ← fileBytes_add]
      exact ih h' (by omega) (by omega)
    · obtain rfl : m = count := by omega
      rw [if_neg hlt]

theorem Tagged.read_long (h : Tagged c) (hn : cacheNameMax ≤ f.name.length) (offset count : Nat)
    (hc : count < 2147483648) :
    (c.cacheRead f offset count).2 = (((min count (f.size - offset) : Nat) : Int),
      fileBytes f offset (min count (f.size - offset))) := by
  unfold cacheRead
  by_cases ho : f.size ≤ offset
  · rw [if_pos ho, Nat.sub_eq_zero_of_le ho, Nat.min_zero]
    rfl
  · have hloop := h.readLoop_long hn (show offset + min count (f.size - offset) ≤ f.size by omega)
      (Nat.zero_le _) (Nat.sub_le _ _)
    rw [if_neg ho]
    dsimp only
    obtain ⟨c', bytes, heq, -⟩ := h.readLoop f offset (min count (f.size - offset))
      (min count (f.size - offset)) []
    change (c.cacheReadLoop f offset _ _ []).2 = _ at hloop
    rw [heq] at hloop ⊢
    obtain rfl := Option.some.inj hloop
    dsimp only
    rw [length_fileBytes, Nat.mod_eq_of_lt (by omega), toInt32_of_lt (by omega)]

/-! ## Two reads are one -/

/-- Caches that a file of the name is read alike from. -/
structure Like (name : List UInt8) (c d : Cache) : Prop where
  left : Tagged c
  right : Tagged d
  same : name.length < cacheNameMax → c = d

theorem Like.refl (name : List UInt8) (h : Tagged c) : Like name c c := ⟨h, h, fun _ => rfl⟩

/-- What a read returns is the number of its bytes. -/
theorem Tagged.read_length (h : Tagged c) (f : File) (offset : Nat) {count : Nat}
    (hc : count < 2147483648) :
    (c.cacheRead f offset count).2.1 = (c.cacheRead f offset count).2.2.length := by
  by_cases hn : f.name.length < cacheNameMax
  · rw [h.read_short hn offset count hc]
  · rw [h.read_long (Nat.not_lt.mp hn) offset count hc, length_fileBytes]

theorem Tagged.read_le (h : Tagged c) (f : File) (offset : Nat) {count : Nat}
    (hc : count < 2147483648) :
    (c.cacheRead f offset count).2.2.length ≤ min count (f.size - offset) := by
  by_cases hn : f.name.length < cacheNameMax
  · rw [h.read_short hn offset count hc]
    exact length_readBytes_le f _ _ _
  · rw [h.read_long (Nat.not_lt.mp hn) offset count hc]
    exact Nat.le_of_eq (length_fileBytes f _ _)

theorem cacheRead_zero (c : Cache) (f : File) (offset : Nat) :
    c.cacheRead f offset 0 = (c, 0, []) := by
  unfold cacheRead
  split
  · rfl
  · simp [cacheReadLoop, toInt32]

/-- A full read, and one from where it ended: the bytes are those of one read, and the caches are
alike if the second is full too. One read of what both asked for goes as far. -/
theorem Tagged.read_add (h : Tagged c) {offset a b n : Nat} (hab : a + b < 2147483648)
    (ha : (c.cacheRead f offset a).2.1 = a) (hl : Like f.name (c.cacheRead f offset a).1 d)
    (hb : (d.cacheRead f (offset + a) b).2.1 = n) :
    (c.cacheRead f offset (a + n)).2 = (((a + n : Nat) : Int),
        (c.cacheRead f offset a).2.2 ++ (d.cacheRead f (offset + a) b).2.2) ∧
      (n = b → Like f.name (c.cacheRead f offset (a + n)).1 (d.cacheRead f (offset + a) b).1) ∧
      (c.cacheRead f offset (a + b)).2.1 = ((a + n : Nat) : Int) := by
  by_cases hn : f.name.length < cacheNameMax
  · obtain rfl := hl.same hn
    have hd := hl.right
    have hlen := length_readBytes_le f (min a (f.size - offset)) offset c
    rw [h.read_short hn offset a (by omega)] at ha hb hd ⊢
    dsimp only at ha hb hd ⊢
    obtain hmin : min a (f.size - offset) = a := by omega
    rw [hmin] at ha hb hd ⊢
    have ha' : (readBytes f a offset c).2.length = a := Int.natCast_inj.mp ha
    have ht := hd.read f (offset + a) b
    rw [hd.read_short hn _ b (by omega)] at hb ht ⊢
    dsimp only at hb ht ⊢
    have hlen' := length_readBytes_le f (min b (f.size - (offset + a))) (offset + a)
      (readBytes f a offset c).1
    have hb' := Int.natCast_inj.mp hb
    have htake := readBytes_take f (show n ≤ min b (f.size - (offset + a)) by omega) (offset + a)
      (readBytes f a offset c).1
    rw [List.take_of_length_le (by omega)] at htake
    rw [h.read_short hn offset (a + n) (by omega),
      show min (a + n) (f.size - offset) = a + n by omega,
      readBytes_add f n ha']
    dsimp only
    rw [htake, List.length_append, ha', hb']
    refine ⟨rfl, fun hnb => ?_, ?_⟩
    · rw [show min b (f.size - (offset + a)) = n by omega] at ht ⊢
      exact .refl f.name ht
    · rw [h.read_short hn offset (a + b) hab,
        show min (a + b) (f.size - offset) = a + min b (f.size - (offset + a)) by omega,
        readBytes_add f _ ha']
      dsimp only
      rw [List.length_append, ha', hb']
  · have hn := Nat.not_lt.mp hn
    rw [h.read_long hn offset a (by omega)] at ha ⊢
    rw [hl.right.read_long hn _ b (by omega)] at hb ⊢
    dsimp only at ha hb ⊢
    have hmin : min a (f.size - offset) = a := by omega
    have hmin' : min b (f.size - (offset + a)) = n := by omega
    rw [h.read_long hn offset _ (by omega), h.read_long hn offset _ hab, hmin, hmin',
      ← fileBytes_add,
      show min (a + n) (f.size - offset) = a + n by omega,
      show min (a + b) (f.size - offset) = a + n by omega]
    exact ⟨rfl,
      fun _ => ⟨h.read f _ _, hl.right.read f _ _, fun hs => absurd hs (Nat.not_lt.mpr hn)⟩, rfl⟩

/-! ## Blocks that end early -/

/-- The cached block of byte `x` ends before it. -/
def CutAt (f : File) (x : Nat) (c : Cache) : Prop :=
  ∃ e, c.hashLookup f.name (x / cacheBlockSize % 4294967296) = some e ∧
    (c.pool e).bytesValid ≠ 0 ∧ (c.pool e).bytesValid ≤ x % cacheBlockSize

theorem holds_reaches {y : CacheEntry} (h : y.Holds f (x / cacheBlockSize % 4294967296))
    (hx : x < f.size) : x % cacheBlockSize < y.bytesValid := by
  have hle := wrapped_le x
  have hmod := Nat.mod_lt x (show 0 < cacheBlockSize by decide)
  unfold wrapped at hle
  rw [h.1]
  omega

/-- The block that is read has the byte, or it was in the cache and ends before it. -/
theorem Tagged.cutAt_iff (h : Tagged c) (hx : x < f.size)
    (heq : c.cacheBlock f (x / cacheBlockSize % 4294967296) = (c', some e)) :
    (c'.pool e).bytesValid ≤ x % cacheBlockSize ↔ CutAt f x c := by
  obtain ⟨lru, chain, hstr, -⟩ := h
  rcases hstr.lookup f.name (x / cacheBlockSize % 4294967296) with ⟨y, -, hl, -, -⟩ | ⟨hl, hno⟩
  · -- a hit
    have hget : c.cacheGetBlock f.name (x / cacheBlockSize % 4294967296) =
        (c.lruPromote y, some y) := by
      unfold cacheGetBlock
      rw [hl]
    have hvalid : ((c.lruPromote y).pool y).bytesValid = (c.pool y).bytesValid :=
      (unlinked_eq ((lruPromote_same y).unlinked y)).2.2.2.2
    rw [cacheBlock_eq hget] at heq
    obtain ⟨rfl, he⟩ := Prod.mk.inj heq
    obtain rfl := Option.some.inj he
    by_cases h0 : ((c.lruPromote y).pool y).bytesValid = 0
    · -- of a block that is filled now
      rw [if_pos h0, setEntry_pool_self]
      have hlt := holds_reaches (fillEntry_holds ((c.lruPromote y).pool y) f _) hx
      refine ⟨fun hle => absurd hle (Nat.not_le.mpr hlt), fun ⟨z, hz, hne, _⟩ => ?_⟩
      obtain rfl := Option.some.inj (hz.symm.trans hl)
      exact absurd (hvalid.symm.trans h0) hne
    · rw [if_neg h0, hvalid]
      refine ⟨fun hle => ⟨y, hl, hvalid ▸ h0, hle⟩, fun ⟨z, hz, _, hle⟩ => ?_⟩
      obtain rfl := Option.some.inj (hz.symm.trans hl)
      exact hle
  · -- a miss
    obtain ⟨c₁, e₁, chain', heq₁, -, hb⟩ := hstr.block f (x / cacheBlockSize % 4294967296)
    obtain ⟨rfl, he⟩ := Prod.mk.inj (heq.symm.trans heq₁)
    obtain rfl := Option.some.inj he
    rcases hb.outcome with ⟨he, h1, h2, _⟩ | ⟨_, _, _, hh, _⟩
    · exact absurd ⟨h1, h2⟩ (hno e he)
    · refine ⟨fun hle => absurd hle (Nat.not_le.mpr (holds_reaches hh hx)), fun ⟨z, hz, _⟩ => ?_⟩
      exact absurd (hz.symm.trans hl) nofun

/-- A read goes up to the first byte that is cut off. -/
theorem Tagged.readBytes_length (h : Tagged c) (hx : x + n ≤ f.size) :
    (∀ d < (readBytes f n x c).2.length, ¬ CutAt f (x + d) (readBytes f d x c).1) ∧
      ((readBytes f n x c).2.length < n →
        CutAt f (x + (readBytes f n x c).2.length)
          (readBytes f (readBytes f n x c).2.length x c).1) := by
  induction n generalizing x c with
  | zero => exact ⟨fun d hd => absurd hd (Nat.not_lt_zero d), fun hd => absurd hd (Nat.lt_irrefl 0)⟩
  | succ n ih =>
    obtain ⟨c', e, heq, h'⟩ := h.block f (x / cacheBlockSize % 4294967296)
    have hcut := h.cutAt_iff (show x < f.size by omega) heq
    by_cases hv : (c'.pool e).bytesValid ≤ x % cacheBlockSize
    · rw [readBytes_stop heq hv]
      exact ⟨fun d hd => absurd hd (Nat.not_lt_zero d), fun _ => hcut.mp hv⟩
    · have hnext := readBytes_next heq (Nat.not_le.mp hv)
      have hadd : ∀ d, x + (d + 1) = x + 1 + d := fun d => by omega
      obtain ⟨h1, h2⟩ := ih h' (show x + 1 + n ≤ f.size by omega)
      rw [hnext]
      dsimp only
      rw [List.length_cons]
      refine ⟨fun d hd => ?_, fun hlt => ?_⟩
      · cases d with
        | zero => exact fun hc => hv (hcut.mpr hc)
        | succ d =>
          rw [hnext, hadd]
          exact h1 d (by omega)
      · rw [hnext, hadd]
        exact h2 (by omega)

theorem Tagged.not_cutAt_long (h : Tagged c) (hn : cacheNameMax ≤ f.name.length) (x : Nat) :
    ¬ CutAt f x c := by
  obtain ⟨lru, chain, hstr, ht⟩ := h
  rintro ⟨e, he, _⟩
  rcases hstr.lookup f.name (x / cacheBlockSize % 4294967296) with ⟨y, hy, -, hname, -⟩ | ⟨hl, -⟩
  · have hlt := ht y hy
    rw [hname] at hlt
    exact absurd hlt (Nat.not_lt.mpr hn)
  · exact absurd (he.symm.trans hl) nofun

/-- `m` bytes on, a read comes to a cached block that ends before the file does. -/
def Cut (f : File) (offset m : Nat) (c : Cache) : Prop :=
  offset + m < f.size ∧ CutAt f (offset + m) (c.cacheRead f offset m).1

/-- A read goes up to the first block that ends early. -/
theorem Tagged.read_cut (h : Tagged c) (f : File) (offset : Nat) {count n : Nat}
    (hc : count < 2147483648) (hn : (c.cacheRead f offset count).2.1 = n) :
    (∀ d < n, ¬ Cut f offset d c) ∧ (n < count → offset + n < f.size → Cut f offset n c) := by
  by_cases hlong : f.name.length < cacheNameMax
  · rw [h.read_short hlong offset count hc] at hn
    dsimp only at hn
    generalize hk : min count (f.size - offset) = k at hn
    have hlen := length_readBytes_le f k offset c
    have hstate : ∀ d ≤ k, (c.cacheRead f offset d).1 = (readBytes f d offset c).1 := by
      intro d hd
      rw [h.read_short hlong offset d (by omega), Nat.min_eq_left (by omega)]
    by_cases ho : offset + k ≤ f.size
    · obtain ⟨h1, h2⟩ := h.readBytes_length ho
      obtain rfl : (readBytes f k offset c).2.length = n := by omega
      refine ⟨fun d hd hcut => ?_, fun hlt hend => ⟨hend, ?_⟩⟩
      · exact h1 d hd (hstate d (by omega) ▸ hcut.2)
      · rw [hstate _ hlen]
        exact h2 (by omega)
    · exact ⟨fun d hd => by omega, fun _ _ => by omega⟩
  · have hlong := Nat.not_lt.mp hlong
    rw [h.read_long hlong offset count hc] at hn
    dsimp only at hn
    exact ⟨fun d _ hcut => (h.read f offset d).not_cutAt_long hlong _ hcut.2, fun _ _ => by omega⟩

/-- The cached blocks under the name of the file have its bytes from `lo` to `hi`. -/
def Reaches (f : File) (lo hi : Nat) (c : Cache) : Prop :=
  ∀ x, lo ≤ x → x < hi → x < f.size → ∀ e < cacheMaxBlocks, (c.pool e).valid = true →
    (c.pool e).name = f.name → (c.pool e).blockIndex = x / cacheBlockSize % 4294967296 →
      x % cacheBlockSize < (c.pool e).bytesValid

variable {lo hi : Nat}

theorem reaches_of_long (h : Tagged c) (hn : cacheNameMax ≤ f.name.length) : Reaches f lo hi c := by
  intro x _ _ _ e he hv hname
  obtain ⟨lru, chain, hstr, ht⟩ := h
  have hlt := ht e ((hstr.mem e).mpr ⟨he, hv⟩)
  rw [hname] at hlt
  exact absurd hlt (Nat.not_lt.mpr hn)

/-- One block. -/
theorem Reaches.block (hr : Reaches f lo hi c) (h : Tagged c) (h1 : lo ≤ x) (h2 : x < hi)
    (hx : x < f.size) (heq : c.cacheBlock f (x / cacheBlockSize % 4294967296) = (c', some e)) :
    Reaches f lo hi c' ∧ x % cacheBlockSize < (c'.pool e).bytesValid := by
  obtain ⟨lru, chain, hstr, ht⟩ := h
  obtain ⟨c₁, e₁, chain', heq₁, hstr', hb⟩ := hstr.block f (x / cacheBlockSize % 4294967296)
  obtain ⟨rfl, he⟩ := Prod.mk.inj (heq.symm.trans heq₁)
  obtain rfl := Option.some.inj he
  -- the entry that is returned
  have hself : ∀ y, lo ≤ y → y < hi → y < f.size →
      y / cacheBlockSize % 4294967296 = x / cacheBlockSize % 4294967296 →
      y % cacheBlockSize < (c'.pool e).bytesValid := by
    intro y g1 g2 hy hxy
    rcases hb.outcome with ⟨he, hn, hi', _, _, hsame, _⟩ | ⟨_, _, _, hh, _⟩
    · obtain ⟨hlt, hv⟩ := (hstr.mem e).mp he
      have hpos := hr x h1 h2 hx e hlt hv hn hi'
      rw [(unlinked_eq (hsame (Nat.ne_zero_of_lt hpos))).2.2.2.2]
      exact hr y g1 g2 hy e hlt hv hn (hi'.trans hxy.symm)
    · have hle := wrapped_le y
      have hmod := Nat.mod_lt y (show 0 < cacheBlockSize by decide)
      unfold wrapped at hle
      rw [hh.1, ← hxy]
      omega
  refine ⟨fun y g1 g2 hy e' he' hv hn hi' => ?_, hself x h1 h2 hx rfl⟩
  by_cases hee : e' = e
  · subst hee
    refine hself y g1 g2 hy (hi'.symm.trans ?_)
    rcases hb.outcome with ⟨_, _, _, _, h, _⟩ | ⟨_, _, h, _⟩
    · exact h
    · exact h
  · obtain ⟨g3, g4, g5, _, g6⟩ := unlinked_eq (hb.others e' hee)
    rw [g3] at hv
    rw [g4] at hn
    rw [g5] at hi'
    rw [g6]
    exact hr y g1 g2 hy e' he' hv hn hi'

theorem Reaches.readBytes (hr : Reaches f lo hi c) (h : Tagged c) (h1 : lo ≤ x) (h2 : x + n ≤ hi)
    (hx : x + n ≤ f.size) :
    (readBytes f n x c).2.length = n ∧ Reaches f lo hi (readBytes f n x c).1 := by
  induction n generalizing x c with
  | zero => exact ⟨rfl, hr⟩
  | succ n ih =>
    obtain ⟨c', e, heq, h'⟩ := h.block f (x / cacheBlockSize % 4294967296)
    obtain ⟨hr', hv⟩ := hr.block h h1 (by omega) (by omega) heq
    obtain ⟨hl, hr''⟩ := ih hr' h' (Nat.le_succ_of_le h1) (by omega) (by omega)
    rw [readBytes_next heq hv]
    exact ⟨congrArg (· + 1) hl, hr''⟩

/-- A read then ends at the end of the file, if anywhere before its count. -/
theorem Reaches.read (hr : Reaches f lo hi c) (h : Tagged c) {offset count : Nat}
    (hc : count < 2147483648) (h1 : lo ≤ offset) (h2 : offset + count ≤ hi) :
    (c.cacheRead f offset count).2.1 = (min count (f.size - offset) : Nat) ∧
      Reaches f lo hi (c.cacheRead f offset count).1 := by
  by_cases hn : f.name.length < cacheNameMax
  · rw [h.read_short hn offset count hc]
    by_cases ho : offset ≤ f.size
    · obtain ⟨hl, hr'⟩ :=
        hr.readBytes h h1 (show offset + min count (f.size - offset) ≤ hi by omega)
        (by omega)
      exact ⟨congrArg _ hl, hr'⟩
    · rw [show min count (f.size - offset) = 0 by omega]
      exact ⟨rfl, hr⟩
  · have hn := Nat.not_lt.mp hn
    rw [h.read_long hn offset count hc]
    exact ⟨rfl, reaches_of_long (h.read f offset count) hn⟩

/-- Then no block of them ends early. -/
theorem Reaches.not_cut (hr : Reaches f lo hi c) (h : Tagged c) {offset d : Nat}
    (hd : d + 1 < 2147483648) (h1 : lo ≤ offset) (h2 : offset + d < hi) : ¬ Cut f offset d c := by
  intro hcut
  have hend := hcut.1
  have hread := (hr.read h hd h1 (show offset + (d + 1) ≤ hi by omega)).1
  rw [show min (d + 1) (f.size - offset) = d + 1 by omega] at hread
  exact (h.read_cut f offset hd hread).1 d (Nat.lt_succ_self d) hcut

end GenOS.Cache
