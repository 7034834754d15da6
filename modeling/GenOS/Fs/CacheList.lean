import Mathlib.Data.List.Perm.Subperm
import Mathlib.Tactic.Convert
import GenOS.Lib.Chain
import GenOS.Fs.Cache

/-!
# The lists of the buffer cache

Every entry is threaded on the LRU list and on one hash chain. `Linkage` names the lists; each
operation of `cache.c` on the links is one change to them.
-/

namespace GenOS.Cache

open Chain

variable {c c' : Cache} {lru : List Nat} {chain : Nat → List Nat} {e b : Nat}

/-- The links of `c` are the LRU list `lru` and the hash chains `chain`. -/
structure Linkage (c : Cache) (lru : List Nat) (chain : Nat → List Nat) : Prop where
  order :
    DLinked (fun e => (c.pool e).lruNext) (fun e => (c.pool e).lruPrev) c.lruHead c.lruTail lru
  lruNodup : lru.Nodup
  bucket : ∀ b, Linked (fun e => (c.pool e).hashNext) (c.hashTable b) (chain b)
  chainNodup : ∀ b, (chain b).Nodup
  apart : ∀ b b' e, e ∈ chain b → e ∈ chain b' → b = b'

@[simp] theorem setEntry_pool_self {x : CacheEntry} : (c.setEntry e x).pool e = x := by
  simp [setEntry]

@[simp] theorem setEntry_pool_ne {x : CacheEntry} {d : Nat} (h : d ≠ e) :
    (c.setEntry e x).pool d = c.pool d := by
  simp [setEntry, h]

theorem setEntry_pool {x : CacheEntry} {d : Nat} :
    (c.setEntry e x).pool d = if d = e then x else c.pool d := by
  by_cases h : d = e
  · subst h; simp
  · simp [h]

@[simp] theorem setEntry_hashTable {x : CacheEntry} :
    (c.setEntry e x).hashTable = c.hashTable := rfl
@[simp] theorem setEntry_lruHead {x : CacheEntry} : (c.setEntry e x).lruHead = c.lruHead := rfl
@[simp] theorem setEntry_lruTail {x : CacheEntry} : (c.setEntry e x).lruTail = c.lruTail := rfl
@[simp] theorem setEntry_freeHint {x : CacheEntry} : (c.setEntry e x).freeHint = c.freeHint := rfl
@[simp] theorem setEntry_usedBlocks {x : CacheEntry} :
    (c.setEntry e x).usedBlocks = c.usedBlocks := rfl
@[simp] theorem setEntry_evictions {x : CacheEntry} :
    (c.setEntry e x).evictions = c.evictions := rfl

/-- The entries of `c'` are those of `c` with other LRU links. -/
structure SameLru (c c' : Cache) : Prop where
  hashTable : c'.hashTable = c.hashTable
  freeHint : c'.freeHint = c.freeHint
  usedBlocks : c'.usedBlocks = c.usedBlocks
  evictions : c'.evictions = c.evictions
  pool : ∀ e, c'.pool e =
    { c.pool e with lruPrev := (c'.pool e).lruPrev, lruNext := (c'.pool e).lruNext }

/-- The entries of `c'` are those of `c` with other hash links. -/
structure SameHash (c c' : Cache) : Prop where
  lruHead : c'.lruHead = c.lruHead
  lruTail : c'.lruTail = c.lruTail
  freeHint : c'.freeHint = c.freeHint
  usedBlocks : c'.usedBlocks = c.usedBlocks
  evictions : c'.evictions = c.evictions
  pool : ∀ e, c'.pool e = { c.pool e with hashNext := (c'.pool e).hashNext }

theorem SameLru.linkage (h : SameLru c c') (hl : Linkage c lru chain) {lru' : List Nat}
    (hd : DLinked (fun e => (c'.pool e).lruNext) (fun e => (c'.pool e).lruPrev) c'.lruHead
      c'.lruTail lru') (hn : lru'.Nodup) : Linkage c' lru' chain where
  order := hd
  lruNodup := hn
  bucket b := by
    have hx : (fun e => (c'.pool e).hashNext) = fun e => (c.pool e).hashNext :=
      funext fun e => by rw [h.pool e]
    rw [hx, h.hashTable]
    exact hl.bucket b
  chainNodup := hl.chainNodup
  apart := hl.apart

theorem SameHash.linkage (h : SameHash c c') (hl : Linkage c lru chain)
    {chain' : Nat → List Nat}
    (hc : ∀ b, Linked (fun e => (c'.pool e).hashNext) (c'.hashTable b) (chain' b))
    (hn : ∀ b, (chain' b).Nodup) (ha : ∀ b b' e, e ∈ chain' b → e ∈ chain' b' → b = b') :
    Linkage c' lru chain' where
  order := by
    have hx : (fun e => (c'.pool e).lruNext) = fun e => (c.pool e).lruNext :=
      funext fun e => by rw [h.pool e]
    have hy : (fun e => (c'.pool e).lruPrev) = fun e => (c.pool e).lruPrev :=
      funext fun e => by rw [h.pool e]
    rw [hx, hy, h.lruHead, h.lruTail]
    exact hl.order
  lruNodup := hl.lruNodup
  bucket := hc
  chainNodup := hn
  apart := ha

/-! ## The LRU list -/

theorem lruRemove_same (e : Nat) : SameLru c (c.lruRemove e) := by
  unfold lruRemove
  dsimp only
  constructor
  · split <;> split <;> rfl
  · split <;> split <;> rfl
  · split <;> split <;> rfl
  · split <;> split <;> rfl
  · intro x
    split <;> split <;> simp only [setEntry_pool] <;> split_ifs <;> simp_all

/-- The fields that `lru_remove` writes. -/
theorem lruRemove_links (e : Nat) :
    ((c.lruRemove e).lruHead = if (c.pool e).lruPrev = none then (c.pool e).lruNext
      else c.lruHead) ∧
    ((c.lruRemove e).lruTail = if (c.pool e).lruNext = none then (c.pool e).lruPrev
      else c.lruTail) ∧
    ∀ x, x ≠ e → ((c.lruRemove e).pool x).lruNext =
        (if (c.pool e).lruPrev = some x then (c.pool e).lruNext else (c.pool x).lruNext) ∧
      ((c.lruRemove e).pool x).lruPrev =
        if (c.pool e).lruNext = some x then (c.pool e).lruPrev else (c.pool x).lruPrev := by
  unfold lruRemove
  dsimp only
  cases hp : (c.pool e).lruPrev with
  | none =>
    cases hn : (c.pool e).lruNext with
    | none => exact ⟨rfl, rfl, fun x hx => by simp [hx]⟩
    | some n =>
      refine ⟨rfl, rfl, fun x hx => ?_⟩
      simp only [setEntry_pool, hx, ↓reduceIte]
      by_cases hxn : x = n
      · simp [hxn]
      · simp [hxn, Ne.symm hxn]
  | some p =>
    cases hn : (c.pool e).lruNext with
    | none =>
      refine ⟨rfl, rfl, fun x hx => ?_⟩
      simp only [setEntry_pool, hx, ↓reduceIte]
      by_cases hxp : x = p
      · simp [hxp]
      · simp [hxp, Ne.symm hxp]
    | some n =>
      refine ⟨rfl, rfl, fun x hx => ?_⟩
      simp only [setEntry_pool, hx, ↓reduceIte]
      constructor <;> split_ifs <;> grind

theorem Linkage.lruRemove (h : Linkage c lru chain) (he : e ∈ lru) :
    Linkage (c.lruRemove e) (lru.erase e) chain := by
  obtain ⟨l₁, l₂, rfl⟩ := List.append_of_mem he
  have hn := h.lruNodup
  have he₁ : e ∉ l₁ := fun h => (List.nodup_append.mp hn).2.2 e h e List.mem_cons_self rfl
  have he₂ : e ∉ l₂ := (List.nodup_cons.mp (List.nodup_append.mp hn).2.1).1
  obtain ⟨hhead, htail, hx⟩ := lruRemove_links (c := c) e
  have hne : ∀ x ∈ l₁ ++ l₂, x ≠ e := by
    intro x hxl hxe
    exact (List.mem_append.mp hxl).elim (fun h => he₁ (hxe ▸ h)) fun h => he₂ (hxe ▸ h)
  rw [List.erase_append_right _ he₁, List.erase_cons_head]
  refine (lruRemove_same e).linkage h ?_ (hn.sublist ((List.sublist_cons_self e l₂).append_left l₁))
  rw [hhead, htail]
  exact h.order.remove hn (fun x hxl => (hx x (hne x hxl)).1) fun x hxl => (hx x (hne x hxl)).2

theorem lruPushHead_same (e : Nat) : SameLru c (c.lruPushHead e) := by
  unfold lruPushHead
  dsimp only
  constructor
  · split <;> rfl
  · split <;> rfl
  · split <;> rfl
  · split <;> rfl
  · intro x
    split <;> simp only [setEntry_pool] <;> split_ifs <;> simp_all

/-- The fields that `lru_push_head` writes. -/
theorem lruPushHead_links (he : c.lruHead ≠ some e) :
    (c.lruPushHead e).lruHead = some e ∧ (c.lruPushHead e).lruTail = c.lruTail.or (some e) ∧
    ((c.lruPushHead e).pool e).lruNext = c.lruHead ∧
    ((c.lruPushHead e).pool e).lruPrev = none ∧
    ∀ x, x ≠ e → ((c.lruPushHead e).pool x).lruNext = (c.pool x).lruNext ∧
      ((c.lruPushHead e).pool x).lruPrev =
        if c.lruHead = some x then some e else (c.pool x).lruPrev := by
  have ht : ∀ o : Option Nat, (if o = none then some e else o) = o.or (some e) := by
    intro o
    cases o <;> rfl
  unfold lruPushHead
  dsimp only
  rw [setEntry_lruHead]
  cases hh : c.lruHead with
  | none => exact ⟨rfl, ht _, by simp, by simp, fun x hx => by simp [hx]⟩
  | some h =>
    have hne : e ≠ h := fun eq => he (by rw [hh, eq])
    refine ⟨rfl, ht _, by simp [setEntry_pool, hne], by simp [setEntry_pool, hne], fun x hx => ?_⟩
    by_cases hxh : x = h
    · subst hxh
      simp [hx]
    · simp [setEntry_pool, hx, hxh, Ne.symm hxh]

theorem Linkage.lruPushHead (h : Linkage c lru chain) (he : e ∉ lru) :
    Linkage (c.lruPushHead e) (e :: lru) chain := by
  have hh : c.lruHead ≠ some e := by
    rw [h.order.fwd.head?]
    exact fun e' => he (List.mem_of_mem_head? e')
  obtain ⟨h1, h2, h3, h4, hx⟩ := lruPushHead_links hh
  refine (lruPushHead_same e).linkage h ?_ (List.nodup_cons.mpr ⟨he, h.lruNodup⟩)
  rw [h1, h2]
  have hne : ∀ x ∈ lru, x ≠ e := fun x hx e' => he (e' ▸ hx)
  exact h.order.push h.lruNodup h3 h4 (fun x hxl => (hx x (hne x hxl)).1)
    fun x hxl => (hx x (hne x hxl)).2

theorem Linkage.lruPromote (h : Linkage c lru chain) (he : e ∈ lru) :
    Linkage (c.lruPromote e) (e :: lru.erase e) chain :=
  (h.lruRemove he).lruPushHead fun hm => (h.lruNodup.mem_erase_iff.mp hm).1 rfl

theorem lruPromote_same (e : Nat) : SameLru c (c.lruPromote e) := by
  have h₁ := lruRemove_same (c := c) e
  have h₂ := lruPushHead_same (c := c.lruRemove e) e
  exact ⟨h₂.hashTable.trans h₁.hashTable, h₂.freeHint.trans h₁.freeHint,
    h₂.usedBlocks.trans h₁.usedBlocks, h₂.evictions.trans h₁.evictions, fun x => by
      unfold Cache.lruPromote
      rw [h₂.pool x, h₁.pool x]⟩

/-! ## Other stores -/

/-- A store to an entry that keeps the links of the lists it is on. -/
theorem Linkage.setEntry (h : Linkage c lru chain) {x : CacheEntry}
    (hl : e ∈ lru → x.lruNext = (c.pool e).lruNext ∧ x.lruPrev = (c.pool e).lruPrev)
    (hc : ∀ b, e ∈ chain b → x.hashNext = (c.pool e).hashNext) :
    Linkage (c.setEntry e x) lru chain where
  order := by
    refine ⟨h.order.fwd.congr fun a ha => ?_, h.order.bwd.congr fun a ha => ?_⟩
    · rw [setEntry_pool]
      split
      · next e' => exact e' ▸ (hl (e' ▸ ha)).1
      · rfl
    · rw [setEntry_pool]
      split
      · next e' => exact e' ▸ (hl (e' ▸ List.mem_reverse.mp ha)).2
      · rfl
  lruNodup := h.lruNodup
  bucket b := by
    refine (h.bucket b).congr fun a ha => ?_
    rw [setEntry_pool]
    split
    · next e' => exact e' ▸ hc b (e' ▸ ha)
    · rfl
  chainNodup := h.chainNodup
  apart := h.apart

/-! ## The hash chains -/

/-- The place of the link after the entries of `k`, from the place `pp`. -/
def slotAfter (pp : Slot) (k : List Nat) : Slot := (k.getLast?.map Slot.link).getD pp

theorem slotAfter_cons (pp : Slot) (a : Nat) (k : List Nat) :
    slotAfter pp (a :: k) = slotAfter (.link a) k := by
  unfold slotAfter
  rw [List.getLast?_cons]
  cases k.getLast? <;> rfl

/-- `hash_remove` finds the link to `e`. -/
theorem hashUnlink_eq {k : List Nat} {fuel : Nat} {pp : Slot}
    (hs : Seg (fun e => (c.pool e).hashNext) (c.load pp) k (some e)) (he : e ∉ k)
    (hf : k.length < fuel) : c.hashUnlink e fuel pp =
      (c.store (c.pool e).hashNext (slotAfter pp k)).setEntry e
        { (c.store (c.pool e).hashNext (slotAfter pp k)).pool e with hashNext := none } := by
  induction k generalizing pp fuel with
  | nil =>
    obtain ⟨n, rfl⟩ := Nat.exists_eq_succ_of_ne_zero (Nat.ne_zero_of_lt hf)
    have hl : c.load pp = some e := hs
    rw [hashUnlink, hl]
    simp only [↓reduceIte]
    rfl
  | cons a k ih =>
    obtain ⟨n, rfl⟩ := Nat.exists_eq_succ_of_ne_zero (Nat.ne_zero_of_lt hf)
    obtain ⟨hl, hs⟩ := hs
    have hne : a ≠ e := fun e' => he (e' ▸ List.mem_cons_self)
    rw [hashUnlink, hl, slotAfter_cons]
    simp only [hne, ↓reduceIte]
    exact ih (show Seg _ (c.load (.link a)) k (some e) from hs)
      (fun h => he (List.mem_cons_of_mem _ h)) (Nat.lt_of_succ_lt_succ hf)

theorem store_same (v : Option Nat) (pp : Slot) : SameHash c (c.store v pp) := by
  cases pp with
  | bucket b => exact ⟨rfl, rfl, rfl, rfl, rfl, fun _ => rfl⟩
  | link x =>
    refine ⟨rfl, rfl, rfl, rfl, rfl, fun d => ?_⟩
    simp only [store, setEntry_pool]
    split
    · next h => rw [h]
    · rfl

/-- One chain changed. -/
theorem Linkage.rechain (h : Linkage c lru chain) (hs : SameHash c c') {k : List Nat}
    (hk : Linked (fun e => (c'.pool e).hashNext) (c'.hashTable b) k) (hn : k.Nodup)
    (hother : ∀ d, d ≠ b → Linked (fun e => (c'.pool e).hashNext) (c'.hashTable d) (chain d))
    (hd : ∀ x ∈ k, ∀ d, d ≠ b → x ∉ chain d) :
    Linkage c' lru (Function.update chain b k) := by
  refine hs.linkage h (fun d => ?_) (fun d => ?_) fun d d' x hx hx' => ?_
  · by_cases hdb : d = b
    · subst hdb; simpa using hk
    · simpa [hdb] using hother d hdb
  · by_cases hdb : d = b
    · subst hdb; simpa using hn
    · simpa [hdb] using h.chainNodup d
  · by_cases hdb : d = b <;> by_cases hdb' : d' = b
    · rw [hdb, hdb']
    · subst hdb
      simp only [Function.update_self, ne_eq, hdb', not_false_eq_true,
        Function.update_of_ne] at hx hx'
      exact absurd hx' (hd x hx d' hdb')
    · subst hdb'
      simp only [Function.update_self, ne_eq, hdb, not_false_eq_true,
        Function.update_of_ne] at hx hx'
      exact absurd hx (hd x hx' d hdb)
    · simp only [ne_eq, hdb, hdb', not_false_eq_true, Function.update_of_ne] at hx hx'
      exact h.apart d d' x hx hx'

/-- The link to `e` overwritten by the link after `e`: `e` is off its chain. -/
theorem Linkage.unlink (h : Linkage c lru chain) {l₁ l₂ : List Nat}
    (hb : chain b = l₁ ++ e :: l₂) :
    Linkage (c.store (c.pool e).hashNext (slotAfter (.bucket b) l₁)) lru
      (Function.update chain b (l₁ ++ l₂)) := by
  have hn : (l₁ ++ e :: l₂).Nodup := hb ▸ h.chainNodup b
  have hsub : ∀ x ∈ l₁ ++ l₂, x ∈ chain b := fun x hx => by
    rw [hb]
    rcases List.mem_append.mp hx with hx | hx
    · exact List.mem_append_left _ hx
    · exact List.mem_append_right _ (List.mem_cons_of_mem _ hx)
  -- what the store does to the links, and to the start of the chain
  have hx : ∀ x, ((c.store (c.pool e).hashNext (slotAfter (.bucket b) l₁)).pool x).hashNext =
      if l₁.getLast? = some x then (c.pool e).hashNext else (c.pool x).hashNext := by
    intro x
    rcases List.eq_nil_or_concat' l₁ with rfl | ⟨k, p, rfl⟩
    · simp [slotAfter, store]
    · simp only [slotAfter, List.getLast?_concat, Option.map_some, Option.getD_some, store,
        setEntry_pool, Option.some.injEq]
      by_cases hxp : x = p
      · simp [hxp]
      · simp [hxp, Ne.symm hxp]
  have ht : ∀ d, (c.store (c.pool e).hashNext (slotAfter (.bucket b) l₁)).hashTable d =
      if d = b ∧ l₁ = [] then (c.pool e).hashNext else c.hashTable d := by
    intro d
    rcases List.eq_nil_or_concat' l₁ with rfl | ⟨k, p, rfl⟩
    · by_cases hd : d = b
      · simp [slotAfter, store, hd]
      · simp [slotAfter, store, hd]
    · simp [slotAfter, store]
  refine h.rechain (store_same _ _) ?_ (hn.sublist ((List.sublist_cons_self e l₂).append_left l₁))
    (fun d hd => ?_) fun x hx d hd hxd => hd (h.apart d b x hxd (hsub x hx))
  · rw [ht b]
    simp only [true_and]
    exact (hb ▸ h.bucket b).remove hn fun x _ => hx x
  · rw [ht d, if_neg fun h => hd h.1]
    refine (h.bucket d).congr fun a ha => ?_
    rw [hx a, if_neg]
    exact fun hlast =>
      hd (h.apart d b a ha (hsub a (List.mem_append_left _ (List.mem_of_getLast? hlast))))

theorem Linkage.length_le (h : Linkage c lru chain) (hb : ∀ x ∈ chain b, x < cacheMaxBlocks) :
    (chain b).length ≤ cacheMaxBlocks := by
  have hs : chain b ⊆ List.range cacheMaxBlocks := fun x hx => List.mem_range.mpr (hb x hx)
  simpa using (List.Nodup.subperm (h.chainNodup b) hs).length_le

theorem Linkage.hashRemove (h : Linkage c lru chain)
    (hb : cacheHash (c.pool e).name (c.pool e).blockIndex = b) (he : e ∈ chain b)
    (hlt : ∀ x ∈ chain b, x < cacheMaxBlocks) :
    Linkage (c.hashRemove e) lru (Function.update chain b ((chain b).erase e)) ∧
      SameHash c (c.hashRemove e) := by
  have hlen := h.length_le hlt
  obtain ⟨l₁, l₂, hch⟩ := List.append_of_mem he
  have hn : (l₁ ++ e :: l₂).Nodup := hch ▸ h.chainNodup b
  have he₁ : e ∉ l₁ := fun h => (List.nodup_append.mp hn).2.2 e h e List.mem_cons_self rfl
  have he₂ : e ∉ l₂ := (List.nodup_cons.mp (List.nodup_append.mp hn).2.1).1
  obtain ⟨m, hs, rfl, _⟩ := seg_append.mp (hch ▸ h.bucket b)
  have hfuel : l₁.length < cacheMaxBlocks + 1 := by
    rw [hch, List.length_append, List.length_cons] at hlen
    omega
  have hu := @hashUnlink_eq c e l₁ _ (.bucket b) hs he₁ hfuel
  unfold Cache.hashRemove
  rw [hb, hu, hch, List.erase_append_right _ he₁, List.erase_cons_head]
  refine ⟨(h.unlink hch).setEntry (fun _ => ⟨rfl, rfl⟩) fun d hd => ?_, ?_⟩
  · -- `e` is on no chain any more
    exfalso
    by_cases hdb : d = b
    · subst hdb
      simp only [Function.update_self, List.mem_append] at hd
      exact hd.elim he₁ he₂
    · rw [Function.update_of_ne hdb] at hd
      exact hdb (h.apart d b e hd he)
  · have hst := store_same (c := c) (c.pool e).hashNext (slotAfter (.bucket b) l₁)
    refine ⟨hst.lruHead, hst.lruTail, hst.freeHint, hst.usedBlocks, hst.evictions, fun x => ?_⟩
    rw [setEntry_pool]
    split
    · next hx => rw [hx, hst.pool e]
    · exact hst.pool x

theorem hashInsert_same (e : Nat) : SameHash c (c.hashInsert e) := by
  refine ⟨rfl, rfl, rfl, rfl, rfl, fun x => ?_⟩
  simp only [Cache.hashInsert, setEntry_pool]
  split
  · next hx => rw [hx]
  · rfl

theorem Linkage.hashInsert (h : Linkage c lru chain)
    (hb : cacheHash (c.pool e).name (c.pool e).blockIndex = b) (he : ∀ d, e ∉ chain d) :
    Linkage (c.hashInsert e) lru (Function.update chain b (e :: chain b)) := by
  have hs : SameHash c (c.hashInsert e) := hashInsert_same e
  have hx : ∀ x, x ≠ e → ((c.hashInsert e).pool x).hashNext = (c.pool x).hashNext := by
    intro x hx
    simp [Cache.hashInsert, hx]
  refine h.rechain hs ?_ (List.nodup_cons.mpr ⟨he b, h.chainNodup b⟩) (fun d hd => ?_)
    fun x hxe d hd hxd => ?_
  · have ht : (c.hashInsert e).hashTable b = some e := by simp [Cache.hashInsert, hb]
    rw [ht]
    exact (h.bucket b).push (by simp [Cache.hashInsert, hb]) fun x hxb =>
      hx x fun e' => he b (e' ▸ hxb)
  · have ht : (c.hashInsert e).hashTable d = c.hashTable d := by simp [Cache.hashInsert, hb, hd]
    rw [ht]
    exact (h.bucket d).congr fun x hxd => hx x fun e' => he d (e' ▸ hxd)
  · rcases List.mem_cons.mp hxe with rfl | hxe
    · exact he d hxd
    · exact hd (h.apart d b x hxd hxe)

/-- `hash_lookup` is a search of the chain. -/
theorem hashScan_eq {name : List UInt8} {bi : Nat} {k : List Nat} {h : Option Nat} {fuel : Nat}
    (hs : Linked (fun e => (c.pool e).hashNext) h k) (hf : k.length < fuel) :
    c.hashScan name bi fuel h =
      k.find? fun e => decide ((c.pool e).blockIndex = bi ∧ (c.pool e).name = name) := by
  induction k generalizing h fuel with
  | nil =>
    obtain ⟨n, rfl⟩ := Nat.exists_eq_succ_of_ne_zero (Nat.ne_zero_of_lt hf)
    obtain rfl : h = none := hs
    rfl
  | cons a k ih =>
    obtain ⟨n, rfl⟩ := Nat.exists_eq_succ_of_ne_zero (Nat.ne_zero_of_lt hf)
    obtain ⟨rfl, hs⟩ := hs
    rw [hashScan, List.find?_cons, ih hs (Nat.lt_of_succ_lt_succ hf)]
    by_cases hx : (c.pool a).blockIndex = bi ∧ (c.pool a).name = name
    · rw [if_pos hx, decide_eq_true hx]
    · rw [if_neg hx, decide_eq_false hx]

end GenOS.Cache
