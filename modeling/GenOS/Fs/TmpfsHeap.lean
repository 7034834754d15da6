import Mathlib.Data.List.ReduceOption
import GenOS.Fs.TmpfsArray
import GenOS.Lib.Machine
import GenOS.Mm.HeapSafety

/-!
# `tmpfs` over the kernel heap

`fs/tmpfs.c` once more, with buffers that are payloads of `mm/heap.c`. The rest of the kernel uses
the same heap between the calls. `Backs` relates such a state to one of `Tmpfs`: the garbage in the
blocks that the heap returns is the `alloc` of the calls there.
-/

namespace GenOS

open HeapClient

/-- `tmpfs_file_t`, where `NULL` is 0. -/
structure TmpfsSlot where
  inUse : Bool := false
  name : List UInt8 := []
  data : Nat := 0
  size : Nat := 0
  capacity : Nat := 0

/-- `files`, and the heap. -/
structure HeapTmpfs where
  files : Nat → TmpfsSlot
  client : HeapClient

/-- Stores of the holder of a payload. -/
def HeapClient.setBytes (c : HeapClient) (m : Bytes.Mem) : HeapClient :=
  { c with heap := { c.heap with bytes := m } }

namespace HeapTmpfs

/-- `for (b = from; b < to; b++) buf[b] = 0;` -/
def zero (m : Bytes.Mem) (buf start stop : Nat) : Bytes.Mem :=
  Bytes.write m (buf + start) (List.replicate (stop - start) 0)

/-- `for (i = 0; i < count; i++) f->data[offset + i] = src[i];` -/
def storeBytes (m : Bytes.Mem) (data : Nat) : (offset : Nat) → List UInt8 → Bytes.Mem
  | _, [] => m
  | offset, b :: src =>
    storeBytes (Function.update m ((data + offset) % 18446744073709551616) b.toBitVec) data
      (offset + 1) src

/-- `tmpfs_open`. -/
def tmpfsOpen (s : HeapTmpfs) (name : List UInt8) : Option Nat :=
  (List.range tmpfsMaxFiles).find? fun i => (s.files i).inUse && decide ((s.files i).name = name)

/-- `tmpfs_create`. -/
def tmpfsCreate (s : HeapTmpfs) (name : List UInt8) : Option (HeapTmpfs × Option Nat) :=
  match s.tmpfsOpen name with
  | some existing => some (s, some existing)
  | none =>
    match (List.range tmpfsMaxFiles).find? fun i => !(s.files i).inUse with
    | none => some (s, none)
    | some i => do
      let (buf, client) ← s.client.call (.kmalloc tmpfsInitialCap)
      if buf = 0 then some ({ s with client }, none)
      else
        some ({
          files := Function.update s.files i
            { name := name.take 99, data := buf, size := 0, capacity := tmpfsInitialCap,
              inUse := true }
          client := client.setBytes (zero client.heap.bytes buf 0 tmpfsInitialCap) }, some i)

/-- The growth of the buffer in `tmpfs_write`, and whether there was room. -/
def grow (s : HeapTmpfs) (index endPos : Nat) : Option (HeapTmpfs × Bool) :=
  let f := s.files index
  if f.capacity < endPos then do
    let newCap := TmpfsFile.growCap endPos 16 f.capacity
    let (newBuf, client) ← s.client.call (.krealloc f.data newCap)
    if newBuf = 0 then some ({ s with client }, false)
    else
      some ({
        files := Function.update s.files index { f with data := newBuf, capacity := newCap }
        client := client.setBytes (zero client.heap.bytes newBuf f.capacity newCap) }, true)
  else some (s, true)

/-- What follows the growth: the stores, and the new size. -/
def storeAt (s : HeapTmpfs) (index offset endPos : Nat) (src : List UInt8) : HeapTmpfs where
  files := Function.update s.files index
    { s.files index with
      size := if (s.files index).size < endPos then endPos else (s.files index).size }
  client := s.client.setBytes (storeBytes s.client.heap.bytes (s.files index).data offset src)

/-- `tmpfs_write`; `src` has `count` bytes. -/
def tmpfsWrite (s : HeapTmpfs) (index offset : Nat) (src : List UInt8) : Option (HeapTmpfs × Int) :=
  if tmpfsMaxFiles ≤ index then some (s, -1)
  else if (s.files index).inUse = false then some (s, -1)
  else
    let endPos := (offset + src.length) % 18446744073709551616
    let count :=
      if tmpfsMaxSize < endPos then (if offset < tmpfsMaxSize then tmpfsMaxSize - offset else 0)
      else src.length
    let endPos :=
      if tmpfsMaxSize < endPos then (offset + count) % 18446744073709551616 else endPos
    if count = 0 then some (s, 0)
    else do
      let (s, room) ← s.grow index endPos
      if room then
        some (s.storeAt index offset endPos (src.take count), toInt32 (count % 4294967296))
      else some (s, -1)

/-- `tmpfs_read`: what it returns, and the bytes that it stores in `buf`. -/
def tmpfsRead (s : HeapTmpfs) (index offset count : Nat) : Int × List UInt8 :=
  if tmpfsMaxFiles ≤ index then (-1, [])
  else if (s.files index).inUse = false then (-1, [])
  else
    let f := s.files index
    if f.size ≤ offset then (0, [])
    else
      let remaining := f.size - offset
      let count := if remaining < count then remaining else count
      (toInt32 (count % 4294967296),
        (List.range count).map fun i => .ofBitVec (s.client.heap.bytes (f.data + (offset + i))))

/-- `tmpfs_unlink`. -/
def tmpfsUnlink (s : HeapTmpfs) (name : List UInt8) : Option (HeapTmpfs × Int) :=
  match s.tmpfsOpen name with
  | some i => do
    let client ←
      if (s.files i).data ≠ 0 then (s.client.call (.kfree (s.files i).data)).map Prod.snd
      else some s.client
    some ({
      files := Function.update s.files i
        { s.files i with data := 0, size := 0, capacity := 0, inUse := false }
      client }, 0)
  | none => some (s, -1)

/-- A call: the state after it, what it returns, and the bytes that it stores for the caller. -/
def call (s : HeapTmpfs) : TmpfsCall → Option (HeapTmpfs × Int × List UInt8)
  | .create name => (s.tmpfsCreate name).map fun (s, i) => (s, Tmpfs.indexInt i, [])
  | .write index offset src => (s.tmpfsWrite index offset src).map fun (s, r) => (s, r, [])
  | .read index offset count => some (s, s.tmpfsRead index offset count)
  | .unlink name => (s.tmpfsUnlink name).map fun (s, r) => (s, r, [])

/-- `tmpfs_init`. -/
def init (client : HeapClient) : HeapTmpfs := ⟨fun _ => {}, client⟩

/-- What a call asks of the heap for a buffer: the block of a new file, or a longer one. -/
def request (s : HeapTmpfs) : TmpfsCall → Option HeapOp
  | .create name =>
    if (s.tmpfsOpen name).isNone && (List.range tmpfsMaxFiles).any fun i => !(s.files i).inUse then
      some (.kmalloc tmpfsInitialCap)
    else none
  | .write k offset src =>
    let endPos := Tmpfs.writeEnd offset src.length
    if decide (k < tmpfsMaxFiles) && (s.files k).inUse &&
        decide (Tmpfs.writeCount offset src.length ≠ 0) && decide
          ((s.files k).capacity < endPos) then
      some (.krealloc (s.files k).data (TmpfsFile.growCap endPos 16 (s.files k).capacity))
    else none
  | .read .. | .unlink _ => none

/-- The heap's answer: the call had the buffer that it asked for, if it asked for one. -/
def granted (s : HeapTmpfs) (c : TmpfsCall) : Bool :=
  match s.request c with
  | none => true
  | some op =>
    match s.client.call op with
    | some (buf, _) => buf != 0
    | none => false

/-! ## Payloads of the heap -/

variable {c c' : HeapClient} {l : List FirstFit.Block} {m : Bytes.Mem} {x y : Nat × Nat} {a n : Nat}

/-- Stores inside a payload keep the heap. -/
theorem owned_setBytes (ho : Owned c l) (hx : x ∈ c.live)
    (hm : Bytes.Outside c.heap.bytes m a n) (h1 : x.1 ≤ a) (h2 : a + n ≤ x.1 + x.2) :
    Owned (c.setBytes m) l := by
  obtain ⟨hu, hle⟩ := ho.mem_used hx
  have h32 := (ho.holds.block x hx).1
  exact ⟨ho.tiled.write hu hm (by omega) (by omega), ho.holds⟩

/-- Payloads that are not the same have no byte in common. -/
theorem payloads_apart (ho : Owned c l) (hx : x ∈ c.live) (hy : y ∈ c.live) (hne : x.1 ≠ y.1) :
    x.1 + x.2 ≤ y.1 ∨ y.1 + y.2 ≤ x.1 := by
  obtain ⟨hux, hlx⟩ := ho.mem_used hx
  obtain ⟨huy, hly⟩ := ho.mem_used hy
  have hx32 := (ho.holds.block x hx).1
  have hy32 := (ho.holds.block y hy).1
  rcases FirstFit.used_apart hux huy with h | h | h
  · exact absurd (by have := congrArg Prod.fst h; simp only at this; omega) hne
  · simp only at h
    omega
  · simp only at h
    omega

/-- A payload that a call returned is none of the others. -/
theorem fresh_ne (ho : Owned c l) {p : Nat} {live : List (Nat × Nat)}
    (hl : c.live = (p, n) :: live) (hx : x ∈ live) : x.1 ≠ p := by
  have hnd := ho.holds.nodup
  rw [hl, List.map_cons, List.nodup_cons] at hnd
  exact fun hc => hnd.1 (List.mem_map.mpr ⟨x, hx, hc⟩)

/-- A payload ends below the top of the address space. -/
theorem payload_lt (ho : Owned c l) (hx : x ∈ c.live) : x.1 + x.2 < 18446744073709551616 := by
  obtain ⟨hu, hle⟩ := ho.mem_used hx
  have h1 := (ho.tiled.used_lt hu).2
  have h2 := ho.tiled.lt
  have h32 := (ho.holds.block x hx).1
  simp only at h1
  omega

theorem kmalloc_live {size r : Nat} (h : c.call (.kmalloc size) = some (r, c')) :
    c'.live = if r = 0 then c.live else (r, size) :: c.live := by
  rw [call_kmalloc, Option.map_eq_some_iff] at h
  obtain ⟨g, _, h⟩ := h
  obtain ⟨rfl, rfl⟩ := Prod.mk.inj h
  rfl

theorem kfree_live {ptr r : Nat} (h : c.call (.kfree ptr) = some (r, c')) :
    c'.live = drop c.live ptr := by
  rw [call_kfree, Option.map_eq_some_iff] at h
  obtain ⟨g, _, h⟩ := h
  obtain ⟨_, rfl⟩ := Prod.mk.inj h
  rfl

theorem krealloc_live {ptr size r : Nat} (h0 : size ≠ 0)
    (h : c.call (.krealloc ptr size) = some (r, c')) :
    c'.live = if r = 0 then c.live else (r, size) :: drop c.live ptr := by
  rw [call_krealloc, Option.map_eq_some_iff] at h
  obtain ⟨g, _, h⟩ := h
  obtain ⟨rfl, rfl⟩ := Prod.mk.inj h
  exact if_neg h0

theorem storeBytes_apply (m : Bytes.Mem) {data offset : Nat} {src : List UInt8}
    (h : data + offset + src.length ≤ 18446744073709551616) (i : Nat) :
    storeBytes m data offset src i =
      if data + offset ≤ i ∧ i < data + offset + src.length then
        (src.getD (i - (data + offset)) 0).toBitVec else m i := by
  induction src generalizing m offset with
  | nil => exact (if_neg (by simp)).symm
  | cons b src ih =>
    rw [List.length_cons] at h ⊢
    rw [storeBytes, ih _ (by omega), Nat.mod_eq_of_lt (by omega)]
    by_cases h1 : data + (offset + 1) ≤ i ∧ i < data + (offset + 1) + src.length
    · rw [if_pos h1, if_pos (by omega),
        show i - (data + offset) = i - (data + (offset + 1)) + 1 by omega, List.getD_cons_succ]
    · rw [if_neg h1]
      by_cases h2 : i = data + offset
      · rw [h2, Function.update_self, if_pos (by omega), Nat.sub_self, List.getD_cons_zero]
      · rw [Function.update_of_ne h2, if_neg (by omega)]

theorem zero_apply (m : Bytes.Mem) (buf start stop i : Nat) :
    zero m buf start stop i = if buf + start ≤ i ∧
    i < buf + start + (stop - start) then 0 else m i := by
  unfold zero Bytes.write
  rw [List.length_replicate]
  by_cases h : buf + start ≤ i ∧ i < buf + start + (stop - start)
  · rw [if_pos h, if_pos h, List.getD_replicate _ (by omega)]
  · rw [if_neg h, if_neg h]

/-! ## The relation -/

/-- The same but for the data. -/
structure Alike (x : TmpfsSlot) (f : TmpfsFile) : Prop where
  inUse : x.inUse = f.inUse
  name : x.name = f.name
  size : x.size = f.size
  capacity : x.capacity = f.capacity

/-- The buffer is a payload, with the bytes of the file. -/
structure Buffer (c : HeapClient) (x : TmpfsSlot) (f : TmpfsFile) : Prop where
  held : (x.data, f.capacity) ∈ c.live
  bytes : ∀ b < f.capacity, c.heap.bytes (x.data + b) = (f.data b).toBitVec

/-- The state backs the files `fs`. -/
structure Backs (s : HeapTmpfs) (fs : Tmpfs) (l : List FirstFit.Block) : Prop where
  owned : Owned s.client l
  alike : ∀ k, Alike (s.files k) (fs k)
  buffer : ∀ k, (fs k).inUse = true → Buffer s.client (s.files k) (fs k)
  apart : ∀ j k, (fs j).inUse = true → (fs k).inUse = true →
    (s.files j).data = (s.files k).data → j = k

variable {s s' : HeapTmpfs} {fs : Tmpfs} {k : Nat} {name : List UInt8} {x : TmpfsSlot}
  {f : TmpfsFile} {l' : List FirstFit.Block}

/-- The heap holds the buffer still, and no byte of it has changed. -/
structure Keeps (c c' : HeapClient) (x : TmpfsSlot) (f : TmpfsFile) : Prop where
  held : (x.data, f.capacity) ∈ c'.live
  same : ∀ b < f.capacity, c'.heap.bytes (x.data + b) = c.heap.bytes (x.data + b)

theorem Buffer.keeps (h : Buffer c x f) (hk : Keeps c c' x f) : Buffer c' x f :=
  ⟨hk.held, fun b hb => (hk.same b hb).trans (h.bytes b hb)⟩

theorem Keeps.trans {c'' : HeapClient} (h : Keeps c c' x f) (h' : Keeps c' c'' x f) :
    Keeps c c'' x f :=
  ⟨h'.held, fun b hb => (h'.same b hb).trans (h.same b hb)⟩

/-- A call of the heap on another payload. -/
theorem Buffer.keeps_of_untouched (h : Buffer c x f) (ho : Owned c l) {p : Nat}
    (hun : Untouched c c' p) (hne : x.data ≠ p) (hl : (x.data, f.capacity) ∈ c'.live) :
    Keeps c c' x f :=
  ⟨hl, fun b hb => hun _ h.held hne b (Nat.lt_of_lt_of_le hb (ho.mem_used h.held).2)⟩

/-- Stores to another payload. -/
theorem Buffer.keeps_of_outside (h : Buffer c x f) (ho : Owned c l) {y : Nat × Nat}
    (hy : y ∈ c.live) (hne : x.data ≠ y.1) (hm : Bytes.Outside c.heap.bytes m a n)
    (h1 : y.1 ≤ a) (h2 : a + n ≤ y.1 + y.2) : Keeps c (c.setBytes m) x f := by
  refine ⟨h.held, fun b hb => hm _ ?_⟩
  have hap := payloads_apart ho h.held hy hne
  simp only at hap
  omega

/-- The heap did something else. -/
theorem Backs.frame (h : Backs s fs l) (ho : Owned c' l')
    (hk : ∀ k, (fs k).inUse = true → Keeps s.client c' (s.files k) (fs k)) :
    Backs { s with client := c' } fs l' :=
  ⟨ho, h.alike, fun k hu => (h.buffer k hu).keeps (hk k hu), h.apart⟩

/-- One file changed. -/
theorem Backs.replace (h : Backs s fs l) (ho : Owned c' l') (hx : Alike x f)
    (hb : f.inUse = true → Buffer c' x f)
    (hothers : ∀ j, j ≠ k → (fs j).inUse = true → Keeps s.client c' (s.files j) (fs j) ∧
      (f.inUse = true → (s.files j).data ≠ x.data)) :
    Backs ⟨Function.update s.files k x, c'⟩ (Function.update fs k f) l' := by
  refine ⟨ho, fun j => ?_, fun j hj => ?_, fun i j hi hj hij => ?_⟩
  · dsimp only
    by_cases hjk : j = k
    · rw [hjk, Function.update_self, Function.update_self]
      exact hx
    · rw [Function.update_of_ne hjk, Function.update_of_ne hjk]
      exact h.alike j
  · dsimp only
    by_cases hjk : j = k
    · subst hjk
      rw [Function.update_self] at hj
      rw [Function.update_self, Function.update_self]
      exact hb hj
    · rw [Function.update_of_ne hjk] at hj
      rw [Function.update_of_ne hjk, Function.update_of_ne hjk]
      exact (h.buffer j hj).keeps (hothers j hjk hj).1
  · dsimp only at hij
    by_cases hik : i = k
    · by_cases hjk : j = k
      · exact hik.trans hjk.symm
      · subst hik
        rw [Function.update_self] at hi hij
        rw [Function.update_of_ne hjk] at hj hij
        exact absurd hij.symm ((hothers j hjk hj).2 hi)
    · rw [Function.update_of_ne hik] at hi hij
      by_cases hjk : j = k
      · subst hjk
        rw [Function.update_self] at hj hij
        exact absurd hij ((hothers i hik hi).2 hj)
      · rw [Function.update_of_ne hjk] at hj hij
        exact h.apart i j hi hj hij

theorem Backs.tmpfsOpen_eq (h : Backs s fs l) (name : List UInt8) :
    s.tmpfsOpen name = fs.tmpfsOpen name := by
  unfold HeapTmpfs.tmpfsOpen Tmpfs.tmpfsOpen
  simp only [(h.alike _).inUse, (h.alike _).name]

/-! ## The calls -/

theorem Backs.request_isSome (h : Backs s fs l) (c : TmpfsCall) :
    (s.request c).isSome = fs.asks c := by
  cases c with
  | create name =>
    simp only [HeapTmpfs.request, Tmpfs.asks, h.tmpfsOpen_eq, (h.alike _).inUse]
    split
    · next hc => exact hc.symm
    · next hc => exact (Bool.eq_false_iff.mpr hc).symm
  | write k offset src =>
    simp only [HeapTmpfs.request, Tmpfs.asks, (h.alike _).inUse, (h.alike _).capacity]
    split
    · next hc => exact hc.symm
    · next hc => exact (Bool.eq_false_iff.mpr hc).symm
  | read k offset count => rfl
  | unlink name => rfl

/-- A call that asks for nothing. -/
theorem Backs.granted_of_not (h : Backs s fs l) {c : TmpfsCall} (hc : fs.asks c = false)
    (alloc : HeapBlockBytes) : s.granted c = fs.hasRoom alloc c := by
  rw [Tmpfs.hasRoom_of_not hc, HeapTmpfs.granted]
  rw [← h.request_isSome c, Option.isSome_eq_false_iff, Option.isNone_iff_eq_none] at hc
  rw [hc]

theorem granted_of_call {c : TmpfsCall} {op : HeapOp} {r : Nat} (hreq : s.request c = some op)
    (hcall : s.client.call op = some (r, c')) : s.granted c = (r != 0) := by
  simp only [granted, hreq, hcall]

/-- The byte of a zeroed range. -/
theorem zero_of_mem {buf start stop b : Nat} (h1 : start ≤ b) (h2 : b < stop) :
    zero m buf start stop (buf + b) = 0 := by
  rw [zero_apply, if_pos (by omega)]

theorem zero_outside (m : Bytes.Mem) (buf start stop : Nat) :
    Bytes.Outside m (zero m buf start stop) (buf + start) (stop - start) := by
  intro i hi
  rw [zero_apply, if_neg (by omega)]

theorem Backs.create (h : Backs s fs l) (name : List UInt8) :
    ∃ alloc s' l', s.tmpfsCreate name = some (s', (fs.tmpfsCreate name alloc).2) ∧
      Backs s' (fs.tmpfsCreate name alloc).1 l' ∧
        s.granted (.create name) = fs.hasRoom alloc (.create name) := by
  unfold HeapTmpfs.tmpfsCreate
  rw [h.tmpfsOpen_eq]
  cases hopen : fs.tmpfsOpen name with
  | some existing =>
    refine ⟨none, s, l, ?_⟩
    have heq : fs.tmpfsCreate name none = (fs, some existing) := by
      unfold Tmpfs.tmpfsCreate
      rw [hopen]
    rw [heq]
    exact ⟨rfl, h, h.granted_of_not (by rw [Tmpfs.asks, hopen]; rfl) none⟩
  | none =>
    dsimp only
    have hfind : ((List.range tmpfsMaxFiles).find? fun i => !(s.files i).inUse) =
        (List.range tmpfsMaxFiles).find? fun i => !(fs i).inUse := by
      simp only [(h.alike _).inUse]
    rw [hfind]
    cases hslot : (List.range tmpfsMaxFiles).find? fun i => !(fs i).inUse with
    | none =>
      have heq : fs.tmpfsCreate name none = (fs, none) := by
        unfold Tmpfs.tmpfsCreate
        rw [hopen]
        dsimp only
        rw [hslot]
      refine ⟨none, s, l, ?_⟩
      rw [heq]
      refine ⟨rfl, h, h.granted_of_not ?_ none⟩
      rw [Tmpfs.asks, hopen, Option.isNone_none, Bool.true_and, List.any_eq_false]
      exact fun i hi => List.find?_eq_none.mp hslot i hi
    | some i =>
      have hask : fs.asks (.create name) = true := by
        rw [Tmpfs.asks, hopen, Option.isNone_none, Bool.true_and, List.any_eq_true]
        exact ⟨i, List.mem_of_find?_eq_some hslot,
          @List.find?_some _ (fun i => !(fs i).inUse) _ _ hslot⟩
      have hfull : fs.tmpfsCreate name none = (fs, none) := by
        unfold Tmpfs.tmpfsCreate
        rw [hopen]
        dsimp only
        rw [hslot]
      have hmade : fs.tmpfsCreate name (some fun _ => 0) =
          (Function.update fs i (Tmpfs.created name fun _ => 0), some i) := by
        unfold Tmpfs.tmpfsCreate
        rw [hopen]
        dsimp only
        rw [hslot]
        rfl
      obtain ⟨r, c', l', hcall, ho', hok⟩ := kmalloc_step h.owned tmpfsInitialCap
      have hlive := kmalloc_live hcall
      have hgranted : s.granted (.create name) = (r != 0) := by
        refine granted_of_call (if_pos ?_) hcall
        simpa only [Tmpfs.asks, ← h.tmpfsOpen_eq, ← (h.alike _).inUse] using hask
      dsimp only
      rw [hcall]
      change ∃ alloc s' l', (if r = 0 then some ({ s with client := c' }, none)
        else some (HeapTmpfs.mk (Function.update s.files i
            { name := name.take 99, data := r, size := 0, capacity := tmpfsInitialCap,
              inUse := true })
          (c'.setBytes (zero c'.heap.bytes r 0 tmpfsInitialCap)), some i)) = some (s', _) ∧ _
      have hkeep : ∀ j, (fs j).inUse = true → Keeps s.client c' (s.files j) (fs j) := by
        intro j hj
        have hb := h.buffer j hj
        refine hb.keeps_of_untouched h.owned hok.1 (h.owned.ptr_ne_zero hb.held) ?_
        rw [hlive]
        split
        · exact hb.held
        · exact List.mem_cons_of_mem _ hb.held
      by_cases hr : r = 0
      · rw [if_pos hr]
        refine ⟨none, { s with client := c' }, l', ?_⟩
        rw [hfull]
        refine ⟨rfl, h.frame ho' hkeep, ?_⟩
        rw [hgranted, hr, Tmpfs.hasRoom, hask]
        rfl
      · rw [if_neg hr] at hlive
        have hmem : (r, tmpfsInitialCap) ∈ c'.live := hlive ▸ List.mem_cons_self
        have hout := zero_outside c'.heap.bytes r 0 tmpfsInitialCap
        have hfresh : ∀ j, (fs j).inUse = true → (s.files j).data ≠ r := fun j hj =>
          fresh_ne ho' hlive (h.buffer j hj).held
        rw [if_neg hr]
        refine ⟨some fun _ => 0, _, l', congrArg (fun i => some (_, i))
          (congrArg Prod.snd hmade).symm, ?_, hgranted.trans (bne_iff_ne.mpr hr)⟩
        rw [hmade]
        refine h.replace (owned_setBytes ho' hmem hout (by simp) (by simp)) ⟨rfl, rfl, rfl, rfl⟩
          (fun _ => ⟨hmem, fun b hb => ?_⟩) fun j _ hj => ⟨?_, fun _ => hfresh j hj⟩
        · exact (zero_of_mem (Nat.zero_le b) hb).trans
            (congrArg UInt8.toBitVec
              (if_pos hb : (if b < tmpfsInitialCap then (0 : UInt8) else 0) = 0)).symm
        · exact (hkeep j hj).trans (((h.buffer j hj).keeps (hkeep j hj)).keeps_of_outside ho' hmem
            (hfresh j hj) hout (by simp) (by simp))

theorem grow_eq {endPos r : Nat} (hlt : (s.files k).capacity < endPos)
    (hcall : s.client.call (.krealloc (s.files k).data
      (TmpfsFile.growCap endPos 16 (s.files k).capacity)) = some (r, c')) :
    s.grow k endPos = if r = 0 then some ({ s with client := c' }, false)
      else some (⟨Function.update s.files k
          { s.files k with
            data := r, capacity := TmpfsFile.growCap endPos 16 (s.files k).capacity },
        c'.setBytes (zero c'.heap.bytes r (s.files k).capacity
          (TmpfsFile.growCap endPos 16 (s.files k).capacity))⟩, true) := by
  unfold HeapTmpfs.grow
  simp only [if_pos hlt]
  rw [hcall]
  rfl

/-- The growth of the buffer. -/
theorem Backs.grow (h : Backs s fs l) (hb : fs.Bounded) (hu : (fs k).inUse = true) {endPos : Nat}
    (he : endPos ≤ tmpfsMaxSize) :
    ∃ alloc s' l', ((fs k).grow endPos alloc = none ∧ s.grow k endPos = some (s', false) ∧
          Backs s' fs l' ∨
        ∃ g, (fs k).grow endPos alloc = some g ∧ s.grow k endPos = some (s', true) ∧
          Backs s' (Function.update fs k g) l') ∧
      ((fs k).capacity < endPos → ∃ r c', s.client.call (.krealloc (s.files k).data
        (TmpfsFile.growCap endPos 16 (s.files k).capacity)) = some (r, c') ∧
          alloc.isSome = (r != 0)) := by
  have hcap := (h.alike k).capacity
  by_cases hlt : (fs k).capacity < endPos
  · have hle := (TmpfsFile.le_growCap (hb k).capacity endPos 16).1
    have hreach := (hb k).reaches hu he
    have hbuf := h.buffer k hu
    have hvalid : s.client.Valid
        (.krealloc (s.files k).data (TmpfsFile.growCap endPos 16 (fs k).capacity)) :=
      .inr ⟨_, hbuf.held⟩
    obtain ⟨r, c', l', hcall, ho', hun, _, hfail, hcopy⟩ := krealloc_step h.owned hvalid
    have hlive := krealloc_live (by omega) hcall
    have hgrow : ∀ alloc, (fs k).grow endPos alloc = _ := fun alloc => if_pos hlt
    rw [hcap]
    have heq := grow_eq (hcap ▸ hlt) (hcap ▸ hcall)
    rw [hcap] at heq
    generalize TmpfsFile.growCap endPos 16 (fs k).capacity = newCap at *
    by_cases hr : r = 0
    · rw [if_pos hr] at hlive heq
      refine ⟨none, _, l', .inl ⟨hgrow none, heq, h.frame ho' fun j hj => ?_⟩,
        fun _ => ⟨r, c', hcall, by rw [hr]; rfl⟩⟩
      have hj := h.buffer j hj
      exact hj.keeps_of_untouched h.owned (hfail hr (by omega)) (h.owned.ptr_ne_zero hj.held)
        (hlive ▸ hj.held)
    · rw [if_neg hr] at hlive heq
      have hmem : (r, newCap) ∈ c'.live := hlive ▸ List.mem_cons_self
      have hout := zero_outside c'.heap.bytes r (fs k).capacity newCap
      have hown := owned_setBytes ho' hmem hout (by simp) (by simp only; omega)
      refine ⟨some fun _ => 0, _, l', .inr ⟨_, hgrow _, heq, h.replace hown ?_ ?_ ?_⟩,
        fun _ => ⟨r, c', hcall, (bne_iff_ne.mpr hr).symm⟩⟩
      · exact ⟨(h.alike k).inUse, (h.alike k).name, (h.alike k).size, rfl⟩
      · -- the bytes of the file move, and zeros follow
        refine fun _ => ⟨hmem, fun b hb => ?_⟩
        dsimp only at hb ⊢
        by_cases hold : b < (fs k).capacity
        · rw [if_pos hold, ← hbuf.bytes b hold]
          refine (hout _ (.inl (by omega))).trans (hcopy hr _ hbuf.held b ?_)
          omega
        · rw [if_neg hold, if_pos hb]
          exact zero_of_mem (Nat.not_lt.mp hold) hb
      · intro j hjk hj
        have hbj := h.buffer j hj
        have hne : (s.files j).data ≠ (s.files k).data := fun hc => hjk (h.apart j k hj hu hc)
        have hdrop := mem_drop.mpr ⟨hbj.held, hne⟩
        have hfresh := fresh_ne ho' hlive hdrop
        have hkeep := hbj.keeps_of_untouched h.owned hun hne (hlive ▸ List.mem_cons_of_mem _ hdrop)
        exact ⟨hkeep.trans ((hbj.keeps hkeep).keeps_of_outside ho' hmem hfresh hout (by simp)
          (by simp only; omega)), fun _ => hfresh⟩
  · refine ⟨none, s, l, .inr ⟨fs k, if_neg hlt, ?_, by rwa [Function.update_eq_self]⟩,
      fun hc => absurd hc hlt⟩
    rw [← hcap] at hlt
    exact if_neg hlt

/-- The stores and the new size. -/
theorem Backs.storeAt (h : Backs s fs l) (hu : (fs k).inUse = true) {offset : Nat}
    {src : List UInt8} (hr : offset + src.length ≤ (fs k).capacity) (endPos : Nat) :
    Backs (s.storeAt k offset endPos src) (Function.update fs k
      { fs k with
        data := TmpfsFile.storeBytes (fs k).data offset src
        size := if (fs k).size < endPos then endPos else (fs k).size }) l := by
  have hbuf := h.buffer k hu
  have hlt := payload_lt h.owned hbuf.held
  simp only at hlt
  have hout : Bytes.Outside s.client.heap.bytes
      (storeBytes s.client.heap.bytes (s.files k).data offset src) ((s.files k).data + offset)
      src.length := by
    intro i hi
    rw [storeBytes_apply _ (by omega), if_neg (by omega)]
  have hown := owned_setBytes h.owned hbuf.held hout (by simp) (by simp only; omega)
  refine h.replace hown ?_ (fun _ => ⟨hbuf.held, fun b hb => ?_⟩) fun j hjk hj => ?_
  · refine ⟨(h.alike k).inUse, (h.alike k).name, ?_, (h.alike k).capacity⟩
    dsimp only
    rw [(h.alike k).size]
  · dsimp only at hb ⊢
    show storeBytes s.client.heap.bytes (s.files k).data offset src ((s.files k).data + b) = _
    rw [storeBytes_apply _ (by omega), TmpfsFile.storeBytes_apply _ _ _ (by omega)]
    by_cases hin : offset ≤ b ∧ b < offset + src.length
    · rw [if_pos hin, if_pos (by omega)]
      congr 2
      omega
    · rw [if_neg hin, if_neg (by omega)]
      exact hbuf.bytes b hb
  · have hne : (s.files j).data ≠ (s.files k).data := fun hc => hjk (h.apart j k hj hu hc)
    exact ⟨(h.buffer j hj).keeps_of_outside h.owned hbuf.held hne hout (by simp)
      (by simp only; omega), fun _ => hne⟩

theorem tmpfsWrite_eq (hk : k < tmpfsMaxFiles) (hu : (s.files k).inUse = true) (offset : Nat)
    (src : List UInt8) :
    s.tmpfsWrite k offset src =
      if Tmpfs.writeCount offset src.length = 0 then some (s, 0)
      else (s.grow k (Tmpfs.writeEnd offset src.length)).bind fun g =>
        if g.2 then
          some (g.1.storeAt k offset (Tmpfs.writeEnd offset src.length)
            (src.take (Tmpfs.writeCount offset src.length)),
            toInt32 (Tmpfs.writeCount offset src.length % 4294967296))
        else some (g.1, -1) := by
  unfold HeapTmpfs.tmpfsWrite
  rw [if_neg (Nat.not_le.mpr hk), if_neg (by simp [hu])]
  rfl

theorem Backs.write (h : Backs s fs l) (hs : fs.Sound) {offset : Nat} {src : List UInt8}
    (hw : offset + src.length < 18446744073709551616) :
    ∃ alloc s' l', s.tmpfsWrite k offset src = some (s', (fs.tmpfsWrite k offset src alloc).2) ∧
      Backs s' (fs.tmpfsWrite k offset src alloc).1 l' ∧
        s.granted (.write k offset src) = fs.hasRoom alloc (.write k offset src) := by
  cases hu : (fs k).inUse with
  | false =>
    have heq : fs.tmpfsWrite k offset src none = (fs, -1) := by
      unfold Tmpfs.tmpfsWrite
      rw [if_pos hu]
      exact ite_self _
    refine ⟨none, s, l, ?_⟩
    rw [heq]
    unfold HeapTmpfs.tmpfsWrite
    rw [if_pos ((h.alike k).inUse.trans hu)]
    exact ⟨ite_self _, h, h.granted_of_not (by simp [Tmpfs.asks, hu]) none⟩
  | true =>
    have hk := hs.slots k hu
    rw [tmpfsWrite_eq hk ((h.alike k).inUse.trans hu)]
    have heq := fun alloc => Tmpfs.tmpfsWrite_eq hk hu offset src alloc
    by_cases h0 : Tmpfs.writeCount offset src.length = 0
    · refine ⟨none, s, l, ?_⟩
      rw [heq, if_pos h0, if_pos h0]
      exact ⟨rfl, h, h.granted_of_not (by simp [Tmpfs.asks, h0]) none⟩
    have hmax := (Tmpfs.writeEnd_eq h0).2
    obtain ⟨alloc, s', l', hcase, hreply⟩ := h.grow hs.bounded hu hmax
    have hgranted : s.granted (.write k offset src) = fs.hasRoom alloc (.write k offset src) := by
      by_cases hlt : (fs k).capacity < Tmpfs.writeEnd offset src.length
      · obtain ⟨r, c', hcall, hr⟩ := hreply hlt
        have hask : fs.asks (.write k offset src) = true := by simp [Tmpfs.asks, hk, hu, h0, hlt]
        rw [Tmpfs.hasRoom, hask, Bool.not_true, Bool.or_false, hr]
        refine granted_of_call (if_pos ?_) hcall
        simpa only [Tmpfs.asks, ← (h.alike _).inUse, ← (h.alike _).capacity] using hask
      · exact h.granted_of_not (by simp [Tmpfs.asks, hlt]) alloc
    rcases hcase with ⟨hg, hgrow, hb⟩ | ⟨g, hg, hgrow, hb⟩
    · refine ⟨alloc, s', l', ?_⟩
      rw [heq, if_neg h0, if_neg h0, hg, hgrow]
      exact ⟨rfl, hb, hgranted⟩
    · have hgrown : TmpfsFile.Grown (fs k) g (Tmpfs.writeEnd offset src.length) := by
        rcases TmpfsFile.grow_cases (hs.bounded k) hu hmax alloc with
          ⟨_, _, hnone⟩ | ⟨_, g', hg', hgrown⟩
        · rw [hnone] at hg
          cases hg
        · obtain rfl := Option.some.inj (hg.symm.trans hg')
          exact hgrown
      have hself : Function.update fs k g k = g := Function.update_self ..
      have hreach := hgrown.reaches
      rw [Tmpfs.writeEnd_of_lt hw h0] at hreach
      have hfits : offset + (src.take (Tmpfs.writeCount offset src.length)).length
          ≤ (Function.update fs k g k).capacity := by
        rw [hself, List.length_take]
        omega
      have hst := hb.storeAt (by rw [hself]; exact hgrown.inUse.trans hu) hfits
        (Tmpfs.writeEnd offset src.length)
      rw [hself, Function.update_idem] at hst
      refine ⟨alloc, s'.storeAt k offset (Tmpfs.writeEnd offset src.length)
        (src.take (Tmpfs.writeCount offset src.length)), l', ?_⟩
      rw [heq, if_neg h0, if_neg h0, hg, hgrow]
      exact ⟨rfl, hst, hgranted⟩

theorem Backs.read (h : Backs s fs l) (hs : fs.Sound) (k offset count : Nat) :
    s.tmpfsRead k offset count = fs.tmpfsRead k offset count := by
  unfold HeapTmpfs.tmpfsRead Tmpfs.tmpfsRead
  rw [(h.alike k).inUse]
  dsimp only
  rw [(h.alike k).size]
  by_cases hk : tmpfsMaxFiles ≤ k
  · rw [if_pos hk, if_pos hk]
  rw [if_neg hk, if_neg hk]
  cases hu : (fs k).inUse with
  | false => rfl
  | true =>
    simp only [Bool.true_eq_false, if_false]
    by_cases ho : (fs k).size ≤ offset
    · rw [if_pos ho, if_pos ho]
    rw [if_neg ho, if_neg ho]
    refine congrArg (Prod.mk _) (List.map_congr_left fun i hi => ?_)
    have hsize := (hs.bounded k).size
    have hlt : offset + i < (fs k).capacity := by
      have hi := List.mem_range.mp hi
      split at hi <;> omega
    exact congrArg UInt8.ofBitVec ((h.buffer k hu).bytes _ hlt)

theorem Backs.unlink (h : Backs s fs l) (name : List UInt8) :
    ∃ s' l', s.tmpfsUnlink name = some (s', (fs.tmpfsUnlink name).2) ∧
      Backs s' (fs.tmpfsUnlink name).1 l' := by
  unfold HeapTmpfs.tmpfsUnlink Tmpfs.tmpfsUnlink
  rw [h.tmpfsOpen_eq]
  cases hopen : fs.tmpfsOpen name with
  | none => exact ⟨s, l, rfl, h⟩
  | some i =>
    obtain ⟨_, hu, _⟩ := Tmpfs.tmpfsOpen_some hopen
    have hbuf := h.buffer i hu
    obtain ⟨r, c', l', hcall, ho', hun⟩ := kfree_step h.owned (.inr ⟨_, hbuf.held⟩)
    have hlive := kfree_live hcall
    dsimp only
    rw [if_pos (h.owned.ptr_ne_zero hbuf.held), hcall]
    refine ⟨_, l', rfl, h.replace ho' ⟨rfl, (h.alike i).name, rfl, rfl⟩ nofun fun j hji hj => ?_⟩
    have hne : (s.files j).data ≠ (s.files i).data := fun hc => hji (h.apart j i hj hu hc)
    refine ⟨(h.buffer j hj).keeps_of_untouched h.owned hun hne ?_, nofun⟩
    rw [hlive]
    exact mem_drop.mpr ⟨(h.buffer j hj).held, hne⟩

/-- Every call ends, and is one on the files for some bytes of the block that the heap returned, or
none if it refused. -/
theorem Backs.call (h : Backs s fs l) (hs : fs.Sound) {c : TmpfsCall} (hc : c.Plain) :
    ∃ alloc s' l', s.call c = some (s', (fs.call alloc c).2) ∧ Backs s' (fs.call alloc c).1 l' ∧
      s.granted c = fs.hasRoom alloc c := by
  cases c with
  | create name =>
    obtain ⟨alloc, s', l', heq, hb, hg⟩ := h.create name
    refine ⟨alloc, s', l', ?_, hb, hg⟩
    unfold HeapTmpfs.call
    dsimp only
    rw [heq]
    rfl
  | write k offset src =>
    obtain ⟨alloc, s', l', heq, hb, hg⟩ := h.write (k := k) hs hc
    refine ⟨alloc, s', l', ?_, hb, hg⟩
    unfold HeapTmpfs.call
    dsimp only
    rw [heq]
    rfl
  | read k offset count =>
    exact ⟨none, s, l, congrArg (fun r => some (s, r)) (h.read hs k offset count), h,
      h.granted_of_not rfl none⟩
  | unlink name =>
    obtain ⟨s', l', heq, hb⟩ := h.unlink name
    refine ⟨none, s', l', ?_, hb, h.granted_of_not rfl none⟩
    unfold HeapTmpfs.call
    dsimp only
    rw [heq]
    rfl

/-! ## Runs -/

/-- What the rest of the kernel asks of the heap is not about the buffers. -/
def Foreign (s : HeapTmpfs) : HeapOp → Prop
  | .kmalloc _ => True
  | .kfree ptr => ∀ k, (s.files k).inUse = true → (s.files k).data ≠ ptr
  | .krealloc ptr _ => ∀ k, (s.files k).inUse = true → (s.files k).data ≠ ptr
  | .write addr _ => ∀ k, (s.files k).inUse = true →
    addr < (s.files k).data ∨ (s.files k).data + (s.files k).capacity ≤ addr

/-- A call of `tmpfs`, with the heap's answer and its reply, or something that the rest of the
kernel does. -/
inductive Step : HeapTmpfs → Option (Bool × TmpfsCall × Int × List UInt8) → HeapTmpfs → Prop
  | tmpfs {s s' : HeapTmpfs} {c : TmpfsCall} {reply : Int × List UInt8} (hc : c.Plain)
    (h : s.call c = some (s', reply)) : Step s (some (s.granted c, c, reply)) s'
  | heap {s : HeapTmpfs} {op : HeapOp} {r : Nat} {client : HeapClient} (hv : s.client.Valid op)
    (hf : s.Foreign op) (h : s.client.call op = some (r, client)) : Step s none { s with client }
  | elsewhere {s : HeapTmpfs} (phys : Phys) :
    Step s none { s with client := { s.client with heap := { s.client.heap with phys } } }

/-- The rest of the kernel uses the heap. -/
theorem Backs.heap (h : Backs s fs l) {op : HeapOp} {r : Nat} (hv : s.client.Valid op)
    (hf : s.Foreign op) (hc : s.client.call op = some (r, c')) :
    ∃ l', Backs { s with client := c' } fs l' := by
  obtain ⟨r', c'', l', hcall, ho', hok⟩ := call_step h.owned hv
  obtain ⟨rfl, rfl⟩ := Prod.mk.inj (Option.some.inj (hc.symm.trans hcall))
  have hin : ∀ k, (fs k).inUse = true → (s.files k).inUse = true := fun k hk =>
    (h.alike k).inUse.trans hk
  refine ⟨l', h.frame ho' fun k hk => ?_⟩
  have hb := h.buffer k hk
  have hne := h.owned.ptr_ne_zero hb.held
  cases op with
  | kmalloc size =>
    refine hb.keeps_of_untouched h.owned hok.1 hne ?_
    rw [kmalloc_live hc]
    split
    · exact hb.held
    · exact List.mem_cons_of_mem _ hb.held
  | kfree ptr =>
    refine hb.keeps_of_untouched h.owned hok (hf k (hin k hk)) ?_
    rw [kfree_live hc]
    exact mem_drop.mpr ⟨hb.held, hf k (hin k hk)⟩
  | krealloc ptr size =>
    have hdrop := mem_drop.mpr ⟨hb.held, hf k (hin k hk)⟩
    refine hb.keeps_of_untouched h.owned hok.1 (hf k (hin k hk)) ?_
    by_cases h0 : size = 0
    · rw [call_krealloc, Option.map_eq_some_iff] at hc
      obtain ⟨g, _, hc⟩ := hc
      obtain ⟨_, rfl⟩ := Prod.mk.inj hc
      dsimp only
      rwa [if_pos h0]
    · rw [krealloc_live h0 hc]
      split
      · exact hb.held
      · exact List.mem_cons_of_mem _ hdrop
  | write addr v =>
    obtain ⟨_, rfl⟩ := Prod.mk.inj (Option.some.inj hc)
    refine ⟨hb.held, fun b hlt => Cells.set_of_ne ?_ _ _⟩
    have hout := hf k (hin k hk)
    rw [(h.alike k).capacity] at hout
    omega

/-- The memory holds the files of `A`. -/
structure Shows (s : HeapTmpfs) (A : ByteStore) : Prop where
  free : ∀ k, A.file k = none ↔ (s.files k).inUse = false
  name : ∀ k f, A.file k = some f → (s.files k).name = f.name
  size : ∀ k f, A.file k = some f → (s.files k).size = f.bytes.length
  bytes : ∀ k f, A.file k = some f → ∀ i < f.bytes.length,
    s.client.heap.bytes ((s.files k).data + i) = (f.bytes.getD i 0).toBitVec

theorem Backs.shows (h : Backs s fs l) (hs : fs.Sound) : Shows s hs.store := by
  refine ⟨fun k => ?_, fun k f hf => ?_, fun k f hf => ?_, fun k f hf i hi => ?_⟩
  · rw [(h.alike k).inUse]
    exact Tmpfs.fileAt_none hs.bounded
  · rw [(h.alike k).name]
    exact (Tmpfs.fileAt_some hs.bounded hf).2.1.symm
  · rw [(h.alike k).size, (Tmpfs.fileAt_some hs.bounded hf).2.2, TmpfsFile.length_content]
  · obtain ⟨hu, _, hb⟩ := Tmpfs.fileAt_some hs.bounded hf
    rw [hb, TmpfsFile.length_content] at hi
    rw [hb, TmpfsFile.getD_content, if_pos hi]
    exact (h.buffer k hu).bytes i (Nat.lt_of_lt_of_le hi (hs.bounded k).size)

/-- One step. -/
theorem Backs.step (h : Backs s fs l) (hs : fs.Sound)
    {e : Option (Bool × TmpfsCall × Int × List UInt8)} (hstep : Step s e s') :
    ∃ fs' l', ∃ hs' : fs'.Sound, Backs s' fs' l' ∧
      Machine.Run ByteStore.Step hs.store e.toList hs'.store := by
  cases hstep with
  | tmpfs hc hcall =>
    obtain ⟨alloc, s'', l', heq, hb, hg⟩ := h.call hs hc
    obtain ⟨rfl, rfl⟩ := Prod.mk.inj (Option.some.inj (hcall.symm.trans heq))
    obtain ⟨hs', hdoes⟩ := Tmpfs.call_refines hs alloc hc
    rw [hg]
    exact ⟨_, l', hs', hb, .single hdoes⟩
  | heap hv hf hcall =>
    obtain ⟨l', hb⟩ := h.heap hv hf hcall
    exact ⟨fs, l', hs, hb, .nil⟩
  | elsewhere phys =>
    have ht := h.owned.tiled
    refine ⟨fs, l, hs, ⟨⟨⟨ht.head, ht.seg, ht.fin, ht.lt, ht.good, ht.cons⟩, h.owned.holds⟩,
      h.alike, fun k hu => ⟨(h.buffer k hu).held, (h.buffer k hu).bytes⟩, h.apart⟩, .nil⟩

theorem init_backs (ho : Owned c l) : Backs (init c) Tmpfs.init l :=
  ⟨ho, fun _ => ⟨rfl, rfl, rfl, rfl⟩, fun _ => nofun, fun _ _ => nofun⟩

/-- The trace of a run is one of byte arrays. -/
theorem run_backs (ho : Owned c l) {es : List (Option (Bool × TmpfsCall × Int × List UInt8))}
    (hr : Machine.Run Step (init c) es s) : ∃ fs l', ∃ hs : fs.Sound, Backs s fs l' ∧
      Machine.Run ByteStore.Step ByteStore.empty es.reduceOption hs.store := by
  induction hr with
  | nil =>
    refine ⟨Tmpfs.init, l, Tmpfs.init_sound, init_backs ho, ?_⟩
    have hempty : Tmpfs.init_sound.store = ByteStore.empty := rfl
    rw [hempty]
    exact .nil
  | @snoc es s' s'' e _ hstep ih =>
    obtain ⟨fs, l', hs, hb, htrace⟩ := ih
    obtain ⟨fs', l'', hs', hb', hone⟩ := hb.step hs hstep
    refine ⟨fs', l'', hs', hb', ?_⟩
    rw [List.reduceOption_append]
    cases e with
    | none => exact htrace.append hone
    | some e => exact htrace.append hone

/-- `tmpfs` over a heap that is sound is a store of byte arrays: along every run, whatever the rest
of the kernel does to the heap meanwhile, the replies are those of a run of `ByteStore` under the
same answers of the heap, which ends in the files in memory, and the next call ends. -/
theorem tmpfs_refines {c : HeapClient} {l : List FirstFit.Block} (ho : Owned c l) {s : HeapTmpfs}
    {es : List (Option (Bool × TmpfsCall × Int × List UInt8))}
    (hr : Machine.Run Step (init c) es s) :
    (∃ A, Machine.Run ByteStore.Step ByteStore.empty es.reduceOption A ∧ Shows s A) ∧
      ∀ call, call.Plain → ∃ r, s.call call = some r := by
  obtain ⟨fs, l', hs, hb, htrace⟩ := run_backs ho hr
  refine ⟨⟨_, htrace, hb.shows hs⟩, fun call hc => ?_⟩
  obtain ⟨_, _, _, heq, _⟩ := hb.call hs hc
  exact ⟨_, heq⟩

/-- A heap of one free block, without frames to grow by. -/
def smallHeap : HeapClient :=
  ⟨oneBlock ⟨Pmm.boot (fun _ => 0) fun _ => 0, fun _ _ => 0, 0, fun _ => true, 0⟩ fun _ => 0, []⟩

/-- The events of a sequence of calls. -/
def events (s : HeapTmpfs) : List TmpfsCall → List (Bool × TmpfsCall × Int × List UInt8)
  | [] => []
  | c :: calls =>
    match s.call c with
    | none => []
    | some (s', reply) => (s.granted c, c, reply) :: s'.events calls

theorem run_events {calls : List TmpfsCall} (hc : ∀ c ∈ calls, c.Plain) (s : HeapTmpfs) :
    ∃ s', Machine.Run Step s ((s.events calls).map some) s' := by
  induction calls generalizing s with
  | nil => exact ⟨s, .nil⟩
  | cons c calls ih =>
    unfold events
    cases hcall : s.call c with
    | none => exact ⟨s, .nil⟩
    | some r =>
      obtain ⟨s', reply⟩ := r
      obtain ⟨s'', hr⟩ := ih (fun c h => hc c (List.mem_cons_of_mem _ h)) s'
      exact ⟨s'', (Machine.Run.single (.tmpfs (hc c List.mem_cons_self) hcall)).append hr⟩

/-- A file `a` is created there and written past its end, a growth that finds no room fails, and the
bytes are read back. -/
def smallCalls : List TmpfsCall :=
  [.create [97], .write 0 2 [1, 2, 3], .write 0 65000 [1], .read 0 0 10]

theorem tmpfs_refines_small :
    (init smallHeap).events smallCalls =
      [(true, .create [97], 0, []), (true, .write 0 2 [1, 2, 3], 3, []),
        (false, .write 0 65000 [1], -1, []), (true, .read 0 0 10, 5, [0, 0, 1, 2, 3])] ∧
    ∃ s, Machine.Run Step (init smallHeap) (((init smallHeap).events smallCalls).map some) s ∧
      (∃ A, Machine.Run ByteStore.Step ByteStore.empty
        (((init smallHeap).events smallCalls).map some).reduceOption A ∧ Shows s A) ∧
        ∀ call, call.Plain → ∃ r, s.call call = some r := by
  have hplain : ∀ c ∈ smallCalls, c.Plain := by
    intro c hc
    simp only [smallCalls, List.mem_cons, List.not_mem_nil, or_false] at hc
    rcases hc with rfl | rfl | rfl | rfl <;> simp [TmpfsCall.Plain]
  obtain ⟨s, hrun⟩ := run_events hplain (init smallHeap)
  exact ⟨by decide +kernel, s, hrun, tmpfs_refines (oneBlock_owned _ _) hrun⟩

end HeapTmpfs

end GenOS
