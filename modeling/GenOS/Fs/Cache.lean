import Mathlib.Logic.Function.Basic
import Mathlib.Data.List.Basic
import GenOS.Lib.CInt

/-!
# The buffer cache

`fs/cache.c`. A block of the pool is named by its index, and `NULL` is `none`. A C string is the
list of its bytes without the terminator, so `strcmp(a, b) == 0` is equality. The hits and misses of
`cache_stats_t` are left out: no function reads them. The loops along a hash chain have fuel for one
turn more than the pool has blocks.
-/

namespace GenOS

/-- `CACHE_BLOCK_SIZE`. -/
abbrev cacheBlockSize : Nat := 4096

/-- `CACHE_MAX_BLOCKS`. -/
abbrev cacheMaxBlocks : Nat := 128

/-- `CACHE_HASH_BUCKETS`. -/
abbrev cacheHashBuckets : Nat := 64

/-- `CACHE_NAME_MAX`. -/
abbrev cacheNameMax : Nat := 64

/-- `cache_entry_t`. -/
structure CacheEntry where
  valid : Bool := false
  name : List UInt8 := []
  blockIndex : Nat := 0
  data : Nat → UInt8 := fun _ => 0
  bytesValid : Nat := 0
  lruPrev : Option Nat := none
  lruNext : Option Nat := none
  hashNext : Option Nat := none

/-- The static variables of `cache.c`. -/
structure Cache where
  pool : Nat → CacheEntry
  hashTable : Nat → Option Nat
  lruHead : Option Nat
  lruTail : Option Nat
  freeHint : Nat
  usedBlocks : Nat
  evictions : Nat

/-- `cache_hash`. -/
def cacheHash (name : List UInt8) (blockIndex : Nat) : Nat :=
  name.foldl (fun h c => (h * 31 + c.toNat) % 4294967296)
    (blockIndex * 2654435761 % 4294967296) % cacheHashBuckets

namespace Cache

/-! ## Stores -/

/-- Store to one entry. -/
def setEntry (c : Cache) (e : Nat) (x : CacheEntry) : Cache :=
  { c with pool := Function.update c.pool e x }

/-- A place that holds a link of a hash chain: what a `cache_entry_t**` points to. -/
inductive Slot where
  | bucket (b : Nat)
  | link (e : Nat)

/-- `*pp`. -/
def load (c : Cache) : Slot → Option Nat
  | .bucket b => c.hashTable b
  | .link e => (c.pool e).hashNext

/-- `*pp = v`. -/
def store (c : Cache) (v : Option Nat) : Slot → Cache
  | .bucket b => { c with hashTable := Function.update c.hashTable b v }
  | .link e => c.setEntry e { c.pool e with hashNext := v }

/-! ## LRU operations -/

/-- `lru_remove`. -/
def lruRemove (c : Cache) (e : Nat) : Cache :=
  let prev := (c.pool e).lruPrev
  let next := (c.pool e).lruNext
  let c := match prev with
    | some p => c.setEntry p { c.pool p with lruNext := next }
    | none => { c with lruHead := next }
  let c := match next with
    | some n => c.setEntry n { c.pool n with lruPrev := prev }
    | none => { c with lruTail := prev }
  c.setEntry e { c.pool e with lruPrev := none, lruNext := none }

/-- `lru_push_head`. -/
def lruPushHead (c : Cache) (e : Nat) : Cache :=
  let c := c.setEntry e { c.pool e with lruPrev := none, lruNext := c.lruHead }
  let c := match c.lruHead with
    | some h => c.setEntry h { c.pool h with lruPrev := some e }
    | none => c
  { c with lruHead := some e, lruTail := if c.lruTail = none then some e else c.lruTail }

/-- `lru_promote`. -/
def lruPromote (c : Cache) (e : Nat) : Cache := (c.lruRemove e).lruPushHead e

/-! ## Hash table operations -/

/-- The loop of `hash_remove`. -/
def hashUnlink (c : Cache) (e : Nat) : (fuel : Nat) → Slot → Cache
  | 0, _ => c
  | fuel + 1, pp =>
    match c.load pp with
    | none => c
    | some x =>
      if x = e then
        let c := c.store (c.pool e).hashNext pp
        c.setEntry e { c.pool e with hashNext := none }
      else c.hashUnlink e fuel (.link x)

/-- `hash_remove`. -/
def hashRemove (c : Cache) (e : Nat) : Cache :=
  c.hashUnlink e (cacheMaxBlocks + 1) (.bucket (cacheHash (c.pool e).name (c.pool e).blockIndex))

/-- `hash_insert`. -/
def hashInsert (c : Cache) (e : Nat) : Cache :=
  let bucket := cacheHash (c.pool e).name (c.pool e).blockIndex
  let c := c.setEntry e { c.pool e with hashNext := c.hashTable bucket }
  { c with hashTable := Function.update c.hashTable bucket (some e) }

/-- The loop of `hash_lookup`. -/
def hashScan (c : Cache) (name : List UInt8) (blockIndex : Nat) :
    (fuel : Nat) → Option Nat → Option Nat
  | 0, _ => none
  | _ + 1, none => none
  | fuel + 1, some e =>
    if (c.pool e).blockIndex = blockIndex ∧ (c.pool e).name = name then some e
    else c.hashScan name blockIndex fuel (c.pool e).hashNext

/-- `hash_lookup`. -/
def hashLookup (c : Cache) (name : List UInt8) (blockIndex : Nat) : Option Nat :=
  c.hashScan name blockIndex (cacheMaxBlocks + 1) (c.hashTable (cacheHash name blockIndex))

/-! ## Block allocation and eviction -/

/-- `alloc_block`. -/
def allocBlock (c : Cache) : Cache × Option Nat :=
  match ((List.range cacheMaxBlocks).map fun i => (c.freeHint + i) % cacheMaxBlocks).find?
      fun idx => !(c.pool idx).valid with
  | some idx =>
    ({ c.setEntry idx { c.pool idx with valid := true } with
        freeHint := (idx + 1) % cacheMaxBlocks, usedBlocks := (c.usedBlocks + 1) % 4294967296 },
      some idx)
  | none => (c, none)

/-- `evict_lru`. -/
def evictLru (c : Cache) : Cache × Option Nat :=
  match c.lruTail with
  | none => (c, none)
  | some victim =>
    let c := (c.hashRemove victim).lruRemove victim
    ({ c.setEntry victim { c.pool victim with
          valid := true, hashNext := none, lruPrev := none, lruNext := none } with
        evictions := (c.evictions + 1) % 18446744073709551616 }, some victim)

/-- The initialisation of a new entry in `cache_get_block`. -/
def installBlock (c : Cache) (e : Nat) (name : List UInt8) (blockIndex : Nat) : Cache :=
  let c := c.setEntry e { c.pool e with
    blockIndex := blockIndex, bytesValid := 0, hashNext := none, lruPrev := none, lruNext := none,
    name := name.take (cacheNameMax - 1) }
  (c.hashInsert e).lruPushHead e

/-- `cache_get_block`. -/
def cacheGetBlock (c : Cache) (name : List UInt8) (blockIndex : Nat) : Cache × Option Nat :=
  match c.hashLookup name blockIndex with
  | some e => (c.lruPromote e, some e)
  | none =>
    match c.allocBlock with
    | (c, some e) => (c.installBlock e name blockIndex, some e)
    | (c, none) =>
      match c.evictLru with
      | (c, some e) => (c.installBlock e name blockIndex, some e)
      | (c, none) => (c, none)

/-! ## The public functions -/

/-- `cache_init`. -/
def cacheInit : Cache where
  pool _ := {}
  hashTable _ := none
  lruHead := none
  lruTail := none
  freeHint := 0
  usedBlocks := 0
  evictions := 0

/-- A file as its reader passes it: `name`, `src` and `file_size`. -/
structure File where
  name : List UInt8
  src : Nat → UInt8
  size : Nat

/-- One block of `cache_read`: `cache_get_block`, and the fill of a new block. -/
def cacheBlock (c : Cache) (f : File) (blockIndex : Nat) : Cache × Option Nat :=
  match c.cacheGetBlock f.name blockIndex with
  | (c, none) => (c, none)
  | (c, some e) =>
    if (c.pool e).bytesValid = 0 then
      let fileOff := blockIndex * cacheBlockSize
      let avail := if fileOff < f.size then f.size - fileOff else 0
      let toFill := if avail < cacheBlockSize then avail else cacheBlockSize
      (c.setEntry e { c.pool e with
        data := fun i => if i < toFill then f.src (fileOff + i) else (c.pool e).data i
        bytesValid := toFill }, some e)
    else (c, some e)

/-- The bytes that `cache_read` copies out of a block, `chunk` at most. -/
def copyOut (c : Cache) (e blockOff chunk : Nat) : List UInt8 :=
  (List.range (min chunk ((c.pool e).bytesValid - blockOff))).map fun i =>
    (c.pool e).data (blockOff + i)

/-- The loop of `cache_read`, with the bytes already stored in `buf`: each turn but the last stores
at least one more. `none` is the allocation failure. -/
def cacheReadLoop (c : Cache) (f : File) (offset count : Nat) :
    (fuel : Nat) → List UInt8 → Cache × Option (List UInt8)
  | 0, done => (c, some done)
  | fuel + 1, done =>
    if done.length < count then
      let curOffset := offset + done.length
      let blockIdx := curOffset / cacheBlockSize % 4294967296
      let blockOff := curOffset % cacheBlockSize
      let chunk := min (cacheBlockSize - blockOff) (count - done.length)
      match c.cacheBlock f blockIdx with
      | (c, none) => (c, none)
      | (c, some e) =>
        if (c.pool e).bytesValid ≤ blockOff then (c, some done)
        else c.cacheReadLoop f offset count fuel (done ++ c.copyOut e blockOff chunk)
    else (c, some done)

/-- `cache_read`: what it returns, and the bytes that it has stored in `buf` when it succeeds. -/
def cacheRead (c : Cache) (f : File) (offset count : Nat) : Cache × Int × List UInt8 :=
  if f.size ≤ offset then (c, 0, [])
  else
    let count := min count (f.size - offset)
    match c.cacheReadLoop f offset count count [] with
    | (c, some bytes) => (c, toInt32 (bytes.length % 4294967296), bytes)
    | (c, none) => (c, -1, [])

/-- One chain of `cache_invalidate`. -/
def invalidateChain (c : Cache) (name : List UInt8) : (fuel : Nat) → Slot → Cache
  | 0, _ => c
  | fuel + 1, pp =>
    match c.load pp with
    | none => c
    | some e =>
      if (c.pool e).name = name then
        let c := (c.store (c.pool e).hashNext pp).lruRemove e
        let c := { c.setEntry e { c.pool e with valid := false, hashNext := none } with
          usedBlocks := (c.usedBlocks + 4294967295) % 4294967296 }
        c.invalidateChain name fuel pp
      else c.invalidateChain name fuel (.link e)

/-- `cache_invalidate`. -/
def cacheInvalidate (c : Cache) (name : List UInt8) : Cache :=
  (List.range cacheHashBuckets).foldl
    (fun c b => c.invalidateChain name (cacheMaxBlocks + 1) (.bucket b)) c

/-- `cache_flush_all`. -/
def cacheFlushAll (c : Cache) : Cache where
  pool i :=
    if i < cacheMaxBlocks then
      { c.pool i with valid := false, hashNext := none, lruPrev := none, lruNext := none }
    else c.pool i
  hashTable b := if b < cacheHashBuckets then none else c.hashTable b
  lruHead := none
  lruTail := none
  freeHint := 0
  usedBlocks := 0
  evictions := c.evictions

end Cache

end GenOS
