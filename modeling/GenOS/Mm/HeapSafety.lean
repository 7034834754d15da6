import GenOS.Mm.HeapInv
import GenOS.Mm.HeapStep

/-!
# Runs of the kernel heap

A client calls `kmalloc`, `kfree` and `krealloc` in any order, the last two on payloads it holds,
and writes to those payloads. `HeapClient.live` is what it holds: each payload with the size last
requested for it. `heap_safety` is the result: along every run, whatever frames and mappings fail,
the block list tiles the heap, the live payloads are sound (`HeapSafe`), and each call does what it
should (`CallOk`).
-/

namespace GenOS

open FirstFit Bytes HeapBlock

/-- A heap and the payloads its client holds. -/
structure HeapClient where
  heap : Heap
  live : List (Nat × Nat)

inductive HeapOp where
  | kmalloc (size : Nat)
  | kfree (ptr : Nat)
  | krealloc (ptr size : Nat)
  | write (addr : Nat) (v : BitVec 8)

/-- The size of the block behind a payload. -/
def Heap.capacity (h : Heap) (ptr : Nat) : Nat := size h.bytes (ptr - 32)

namespace HeapClient

/-- The client no longer holds `ptr`. -/
def drop (live : List (Nat × Nat)) (ptr : Nat) : List (Nat × Nat) := live.filter (·.1 ≠ ptr)

/-- What a client may do: release and resize what it holds (or `NULL`), and write into it. -/
def Valid (c : HeapClient) : HeapOp → Prop
  | .kmalloc _ => True
  | .kfree ptr => ptr = 0 ∨ ∃ n, (ptr, n) ∈ c.live
  | .krealloc ptr _ => ptr = 0 ∨ ∃ n, (ptr, n) ∈ c.live
  | .write addr _ => ∃ x ∈ c.live, x.1 ≤ addr ∧ addr < x.1 + x.2

/-- One step: the pointer returned, and the state after it. -/
def call (c : HeapClient) : HeapOp → Option (Nat × HeapClient)
  | .kmalloc size => (c.heap.kmalloc size).map fun (r, heap) =>
      (r, ⟨heap, if r = 0 then c.live else (r, size) :: c.live⟩)
  | .kfree ptr => (c.heap.kfree ptr).map fun heap => (0, ⟨heap, drop c.live ptr⟩)
  | .krealloc ptr size => (c.heap.krealloc ptr size).map fun (r, heap) =>
      (r, ⟨heap, if size = 0 then drop c.live ptr else if r = 0 then c.live
        else (r, size) :: drop c.live ptr⟩)
  | .write addr v =>
      some (0, ⟨{ c.heap with bytes := Cells.set c.heap.bytes addr v }, c.live⟩)

/-- The states of a run. Between two calls the rest of the kernel takes and returns frames and maps
pages of its own: all that is known of physical memory then is `ok`. -/
inductive Reaches (ok : Phys → Prop) (c : HeapClient) : HeapClient → Prop
  | start : Reaches ok c c
  | step {c' c'' : HeapClient} {op : HeapOp} {r : Nat} (h : Reaches ok c c') (hv : c'.Valid op)
      (hc : c'.call op = some (r, c'')) : Reaches ok c c''
  | elsewhere {c' : HeapClient} (h : Reaches ok c c') {phys : Phys} (hp : ok phys) :
      Reaches ok c { c' with heap := { c'.heap with phys } }

/-! ## The statement -/

/-- What holds in every state: the blocks tile the heap (`Tiled`), and the live payloads are
aligned, large enough and apart, headers included. -/
structure HeapSafe (c : HeapClient) : Prop where
  tiled : ∃ l, Tiled c.heap l
  aligned : ∀ x ∈ c.live, x.1 % 16 = 0
  large : ∀ x ∈ c.live, x.2 ≤ c.heap.capacity x.1
  inside : ∀ x ∈ c.live, heapStart + 32 ≤ x.1 ∧ x.1 + c.heap.capacity x.1 ≤ c.heap.fin
  apart : c.live.Pairwise fun x y =>
    x.1 + c.heap.capacity x.1 + 32 ≤ y.1 ∨ y.1 + c.heap.capacity y.1 + 32 ≤ x.1

/-- No byte of a live payload other than `ptr` is written. -/
def Untouched (c c' : HeapClient) (ptr : Nat) : Prop :=
  ∀ x ∈ c.live, x.1 ≠ ptr → ∀ i < c.heap.capacity x.1,
    c'.heap.bytes (x.1 + i) = c.heap.bytes (x.1 + i)

/-- `r` is the payload of the first free block of `l` with `want` bytes, and the heap has not
grown. -/
def FromFree (h : Heap) (l : List Block) (want r : Nat) (h' : Heap) : Prop :=
  h'.phys = h.phys ∧ h'.fin = h.fin ∧ ∃ l₁ b l₂, l = l₁ ++ b :: l₂ ∧ b.free = true ∧
    want ≤ b.size ∧ (∀ x ∈ l₁, x.free = true → x.size < want) ∧ r = heapStart + span 32 l₁ + 32

/-- What a step does, besides keeping `HeapSafe`. -/
def CallOk (c : HeapClient) : HeapOp → Nat → HeapClient → Prop
  | .kmalloc size, r, c' => Untouched c c' 0 ∧ (2 ^ 64 ≤ size + 15 → r = 0 ∧ c' = c) ∧
      (size = 0 → r = 0 ∧ c' = c) ∧
      ∀ l, Tiled c.heap l → 0 < size → (∃ b ∈ l, b.free = true ∧ Heap.roundUp size ≤ b.size) →
        FromFree c.heap l (Heap.roundUp size) r c'.heap
  | .kfree ptr, _, c' => Untouched c c' ptr
  | .krealloc ptr size, r, c' => Untouched c c' ptr ∧ (2 ^ 64 ≤ size + 15 → r = 0 ∧ c' = c) ∧
      (r = 0 → 0 < size → Untouched c c' 0) ∧
      (r ≠ 0 → ∀ n, (ptr, n) ∈ c.live → ∀ i < min n size,
        c'.heap.bytes (r + i) = c.heap.bytes (ptr + i))
  | .write addr v, _, c' => c'.heap.bytes = Cells.set c.heap.bytes addr v

/-! ## The invariant -/

/-- The payloads `live` are those of the blocks `U`. -/
structure Holds (live : List (Nat × Nat)) (U : Nat × Nat → Prop) : Prop where
  nodup : (live.map (·.1)).Nodup
  block : ∀ x ∈ live, 32 ≤ x.1 ∧ ∃ n, x.2 ≤ n ∧ U (x.1 - 32, n)
  owner : ∀ y, U y → ∃ n, (y.1 + 32, n) ∈ live

/-- The blocks tile the heap, and the live payloads are the blocks in use. -/
structure Owned (c : HeapClient) (l : List Block) : Prop where
  tiled : Tiled c.heap l
  holds : Holds c.live (· ∈ used 32 heapStart l)

variable {c c' : HeapClient} {l l' : List Block} {h : Heap}
variable {live : List (Nat × Nat)} {U V : Nat × Nat → Prop} {ptr r n size : Nat}

theorem mem_drop {x : Nat × Nat} : x ∈ drop live ptr ↔ x ∈ live ∧ x.1 ≠ ptr := by
  simp [drop]

namespace Holds

theorem congr (h : Holds live U) (hv : ∀ y, V y ↔ U y) : Holds live V :=
  ⟨h.nodup, fun x hx => (h.block x hx).imp_right fun ⟨n, hn, hu⟩ => ⟨n, hn, (hv _).mpr hu⟩,
    fun y hy => h.owner y ((hv y).mp hy)⟩

theorem drop (h : Holds live U) (hp : 32 ≤ ptr) :
    Holds (drop live ptr) fun y => U y ∧ y.1 ≠ ptr - 32 := by
  refine ⟨h.nodup.sublist (List.filter_sublist.map _), fun x hx => ?_, fun y ⟨hy, hne⟩ => ?_⟩
  · obtain ⟨hx, hne⟩ := mem_drop.mp hx
    obtain ⟨h1, n, hn, hu⟩ := h.block x hx
    exact ⟨h1, n, hn, hu, by simp only; omega⟩
  · obtain ⟨n, hn⟩ := h.owner y hy
    exact ⟨n, mem_drop.mpr ⟨hn, by simp only; omega⟩⟩

theorem add (h : Holds live U) (hr : 32 ≤ r) (hs : size ≤ n) (hf : ∀ y, U y → y.1 ≠ r - 32) :
    Holds ((r, size) :: live) fun y => y = (r - 32, n) ∨ U y := by
  refine ⟨List.nodup_cons.mpr ⟨fun hm => ?_, h.nodup⟩, fun x hx => ?_, fun y hy => ?_⟩
  · obtain ⟨x, hx, rfl⟩ := List.mem_map.mp hm
    obtain ⟨_, k, _, hu⟩ := h.block x hx
    exact hf _ hu rfl
  · rcases List.mem_cons.mp hx with rfl | hx
    · exact ⟨hr, n, hs, .inl rfl⟩
    · obtain ⟨h1, k, hk, hu⟩ := h.block x hx
      exact ⟨h1, k, hk, .inr hu⟩
  · rcases hy with rfl | hy
    · exact ⟨size, by simp only; rw [Nat.sub_add_cancel hr]; exact List.mem_cons_self⟩
    · obtain ⟨k, hk⟩ := h.owner y hy
      exact ⟨k, List.mem_cons_of_mem _ hk⟩

end Holds

namespace Owned

theorem ptr_ne_zero (ho : Owned c l) {x : Nat × Nat} (hx : x ∈ c.live) : x.1 ≠ 0 := by
  have := (ho.holds.block x hx).1
  omega

/-- The block behind a live payload, with its capacity. -/
theorem mem_used (ho : Owned c l) {x : Nat × Nat} (hx : x ∈ c.live) :
    (x.1 - 32, c.heap.capacity x.1) ∈ used 32 heapStart l ∧ x.2 ≤ c.heap.capacity x.1 := by
  obtain ⟨_, n, hn, hm⟩ := ho.holds.block x hx
  have hsz := ho.tiled.size_eq hm
  have hc : c.heap.capacity x.1 = n := hsz
  rw [hc]
  exact ⟨hm, hn⟩

theorem safe (ho : Owned c l) : HeapSafe c := by
  refine ⟨⟨l, ho.tiled⟩, fun x hx => ?_, fun x hx => (ho.mem_used hx).2, fun x hx => ?_, ?_⟩
  · have h1 := ho.tiled.aligned (ho.mem_used hx).1
    have h2 := (ho.holds.block x hx).1
    simp only at h1
    rwa [Nat.sub_add_cancel h2] at h1
  · have h1 := ho.tiled.used_lt (ho.mem_used hx).1
    have h2 := (ho.holds.block x hx).1
    simp only at h1
    omega
  · refine List.Pairwise.imp_of_mem (fun {x y} hx hy hne => ?_)
      (List.pairwise_map.mp ho.holds.nodup)
    have h1 := (ho.holds.block x hx).1
    have h2 := (ho.holds.block y hy).1
    rcases used_apart (ho.mem_used hx).1 (ho.mem_used hy).1 with h | h | h
    · exact absurd (by have := congrArg (·.1) h; simp only at this; omega) hne
    · exact .inl (by simp only at h; omega)
    · exact .inr (by simp only at h; omega)

/-- Kept payloads of blocks are untouched payloads of the client. -/
theorem untouched (ho : Owned c l) (hk : ∀ y ∈ used 32 heapStart l, y.1 + 32 ≠ ptr →
    ∀ i < y.2, c'.heap.bytes (y.1 + 32 + i) = c.heap.bytes (y.1 + 32 + i)) : Untouched c c' ptr :=
  fun x hx hne i hi => by
    have h1 := (ho.holds.block x hx).1
    have := hk _ (ho.mem_used hx).1 (by simp only; omega) i hi
    simp only at this
    rwa [show x.1 - 32 + 32 = x.1 by omega] at this

/-- The same blocks in use, another list. -/
theorem same (ho : Owned c l) (ht : Tiled h l')
    (hu : used 32 heapStart l' = used 32 heapStart l) : Owned ⟨h, c.live⟩ l' :=
  ⟨ht, ho.holds.congr fun y => by rw [hu]⟩

theorem drop_zero (ho : Owned c l) : drop c.live 0 = c.live :=
  List.filter_eq_self.mpr fun x hx => by simpa using ho.ptr_ne_zero hx

end Owned

/-! ## Steps -/

theorem call_kmalloc (c : HeapClient) (size : Nat) : c.call (.kmalloc size) =
    (c.heap.kmalloc size).map fun g =>
      (g.1, ⟨g.2, if g.1 = 0 then c.live else (g.1, size) :: c.live⟩) := rfl

theorem call_kfree (c : HeapClient) (ptr : Nat) : c.call (.kfree ptr) =
    (c.heap.kfree ptr).map fun heap => (0, ⟨heap, drop c.live ptr⟩) := rfl

theorem call_krealloc (c : HeapClient) (ptr size : Nat) : c.call (.krealloc ptr size) =
    (c.heap.krealloc ptr size).map fun g =>
      (g.1, ⟨g.2, if size = 0 then drop c.live ptr else if g.1 = 0 then c.live
        else (g.1, size) :: drop c.live ptr⟩) := rfl

theorem kmalloc_refused {size : Nat} (h0 : size = 0 ∨ 2 ^ 64 ≤ size + 15) :
    h.kmalloc size = some (0, h) := by
  unfold Heap.kmalloc
  exact if_pos (by omega)

/-- `kmalloc`, for the client. -/
theorem kmalloc_step (ho : Owned c l) (size : Nat) : ∃ r c' l',
    c.call (.kmalloc size) = some (r, c') ∧
    Owned c' l' ∧ CallOk c (.kmalloc size) r c' := by
  have hcall := call_kmalloc c size
  have hrefused : size = 0 ∨ 2 ^ 64 ≤ size + 15 → ∀ {r c'}, c.call (.kmalloc size) = some (r, c') →
      r = 0 ∧ c' = c := fun h0 r c' he => by
    rw [hcall, kmalloc_refused h0] at he
    cases he
    exact ⟨rfl, rfl⟩
  have hfit : ∀ {r c'}, c.call (.kmalloc size) = some (r, c') → ∀ k, Tiled c.heap k → 0 < size →
      (∃ b ∈ k, b.free = true ∧ Heap.roundUp size ≤ b.size) →
      FromFree c.heap k (Heap.roundUp size) r c'.heap := fun he k hk h0 ⟨b, hb, hbf, hbs⟩ => by
    obtain ⟨bytes, k₁, b', k₂, rfl, hf, hn, hm⟩ :=
      kmalloc_fit hk h0 ⟨b, hb, by simp [fits, hbf, hbs]⟩
    rw [hcall, hm] at he
    cases he
    simp only [fits, Bool.and_eq_true, decide_eq_true_eq] at hf
    refine ⟨rfl, rfl, k₁, b', k₂, rfl, hf.1, hf.2, fun x hx hxf => ?_, rfl⟩
    have := hn x hx
    simp only [fits, hxf, Bool.true_and, decide_eq_false_iff_not] at this
    omega
  have hok : ∀ {r c'}, c.call (.kmalloc size) = some (r, c') → Untouched c c' 0 →
      CallOk c (.kmalloc size) r c' := fun he hu =>
    ⟨hu, fun h0 => hrefused (.inr h0) he, fun h0 => hrefused (.inl h0) he, hfit he⟩
  rcases kmalloc_cases ho.tiled size with ⟨_, he⟩ | ⟨_, hle, r, h', l', he, hs⟩
  · rw [he] at hcall
    exact ⟨0, _, l, hcall, ho, hok hcall fun _ _ _ _ _ => rfl⟩
  rw [he] at hcall
  have hkept : ∀ live, Untouched c ⟨h', live⟩ 0 := fun _ =>
    ho.untouched fun y hy _ i hi => hs.kept y hy i hi
  refine ⟨r, _, l', hcall, ?_, hok hcall (hkept _)⟩
  by_cases hr : r = 0
  · simp only [hr, if_true]
    exact ho.same hs.tiled (hs.refused hr)
  · obtain ⟨hr32, n, hn, hperm⟩ := hs.taken hr
    simp only [hr, if_false]
    refine ⟨hs.tiled, (ho.holds.add hr32 (Nat.le_trans hle hn) fun y hy hc => ?_).congr fun y => ?_⟩
    · have hnd := ((hperm.map (·.1)).nodup_iff).mp (used_nodup (by decide) heapStart l')
      rw [List.map_cons, List.nodup_cons] at hnd
      exact hnd.1 (List.mem_map.mpr ⟨y, hy, hc⟩)
    · rw [hperm.mem_iff, List.mem_cons]

/-- `kfree`, for the client. -/
theorem kfree_step (ho : Owned c l) (hv : c.Valid (.kfree ptr)) :
    ∃ r c' l', c.call (.kfree ptr) = some (r, c') ∧ Owned c' l' ∧ CallOk c (.kfree ptr) r c' := by
  have hcall := call_kfree c ptr
  rcases hv with rfl | ⟨n, hx⟩
  · have he : c.heap.kfree 0 = some c.heap := if_pos rfl
    rw [he, ho.drop_zero] at hcall
    exact ⟨0, _, l, hcall, ho, fun _ _ _ _ _ => rfl⟩
  · have h32 := (ho.holds.block _ hx).1
    obtain ⟨bytes, l', he, ht, hu, hk⟩ := kfree_used ho.tiled (ho.mem_used hx).1
    simp only at h32 he
    rw [Nat.sub_add_cancel h32] at he
    rw [he] at hcall
    refine ⟨0, _, l', hcall, ⟨ht, (ho.holds.drop h32).congr hu⟩,
      ho.untouched fun y hy hne => ?_⟩
    exact hk y ((hu y).mpr ⟨hy, by simp only; omega⟩)

theorem krealloc_null (ho : Owned c l) : c.call (.krealloc 0 size) = c.call (.kmalloc size) := by
  have hk : c.heap.krealloc 0 size = c.heap.kmalloc size := by
    unfold Heap.krealloc
    exact if_pos rfl
  rw [call_krealloc, call_kmalloc, hk, ho.drop_zero]
  by_cases h0 : size = 0
  · rw [kmalloc_refused (.inl h0)]
    simp [h0]
  · simp only [h0, if_false]

/-- `krealloc`, for the client. -/
theorem krealloc_step (ho : Owned c l) (hv : c.Valid (.krealloc ptr size)) :
    ∃ r c' l', c.call (.krealloc ptr size) = some (r, c') ∧ Owned c' l' ∧
      CallOk c (.krealloc ptr size) r c' := by
  rcases hv with rfl | ⟨n, hx⟩
  · obtain ⟨r, c', l', he, ho', hu, hb, _⟩ := kmalloc_step ho size
    rw [krealloc_null ho]
    exact ⟨r, c', l', he, ho', hu, hb, fun _ _ => hu, fun _ n hn => absurd rfl (ho.ptr_ne_zero hn)⟩
  have h32 := (ho.holds.block _ hx).1
  obtain ⟨hm, hle⟩ := ho.mem_used hx
  simp only at h32 hm hle
  by_cases h0 : size = 0
  · obtain ⟨r, c', l', he, ho', hu⟩ := kfree_step ho (.inr ⟨n, hx⟩)
    have hk : c.heap.krealloc ptr 0 = (c.heap.kfree ptr).map ((0, ·)) := by
      unfold Heap.krealloc
      rw [if_neg (by omega), if_pos rfl]
    have hcall : c.call (.krealloc ptr size) = c.call (.kfree ptr) := by
      rw [h0, call_krealloc, call_kfree, hk, Option.map_map]
      rfl
    have hr : r = 0 := by
      rw [call_kfree, Option.map_eq_some_iff] at he
      obtain ⟨_, _, he⟩ := he
      exact (congrArg Prod.fst he).symm
    rw [hcall]
    exact ⟨r, c', l', he, ho', hu, fun hb => by omega, fun _ hp => by omega,
      fun hne => absurd hr hne⟩
  obtain ⟨r, h', l', he, ht, hcase⟩ := krealloc_spec ho.tiled hm (Nat.pos_of_ne_zero h0)
  rw [Nat.sub_add_cancel h32] at he hcase
  have hcall : c.call (.krealloc ptr size) =
      some (r, ⟨h', if r = 0 then c.live else (r, size) :: drop c.live ptr⟩) := by
    rw [call_krealloc, he]
    simp only [h0, if_false]
    rfl
  rcases hcase with ⟨rfl, _, hu, hk, hm0⟩ | ⟨hrp, hsz, rfl, rfl⟩ |
    ⟨hr32, hlt, k, hk, hf, hu, hkept, hcopy⟩
  · -- nothing was found
    have hun : ∀ p,
      Untouched c ⟨h', c.live⟩ p := fun p => ho.untouched fun y hy _ i hi => hk y hy i hi
    refine ⟨0, _, l', hcall, ho.same ht hu, hun ptr, fun hb => ⟨rfl, ?_⟩, fun _ _ => hun 0,
      fun hne => absurd rfl hne⟩
    rw [kmalloc_refused (.inr hb)] at hm0
    cases hm0
    rfl
  · -- the block is large enough
    subst hrp
    have hne : r ≠ 0 := by omega
    rw [if_neg hne] at hcall
    refine ⟨r, _, _, hcall,
      ⟨ht, ((ho.holds.drop h32).add h32 hsz fun y hy => hy.2).congr fun y => ?_⟩,
      fun _ _ _ _ _ => rfl, fun hb => ?_, fun h => absurd h hne, fun _ _ _ _ _ => rfl⟩
    · constructor
      · intro hy
        by_cases hc : y.1 = r - 32
        · rcases used_apart hy hm with h | h | h
          · exact .inl h
          · simp only at h
            omega
          · simp only at h
            omega
        · exact .inr ⟨hy, hc⟩
      · rintro (rfl | ⟨hy, _⟩)
        · exact hm
        · exact hy
    · have h1 := ho.tiled.used_lt hm
      have h2 := ho.tiled.lt
      simp only [heapStart] at h1
      omega
  · -- the contents move
    have hne : r ≠ 0 := by omega
    rw [if_neg hne] at hcall
    refine ⟨r, _, l', hcall, ⟨ht, ((ho.holds.drop h32).add hr32 hk fun y hy => hf y hy.1).congr hu⟩,
      ho.untouched fun y hy hp => hkept y hy (by omega), fun hb => ?_, fun h => absurd h hne,
      fun _ q hq i hi => hcopy i ?_⟩
    · have hbig := ht.used_lt ((hu _).mpr (.inl rfl))
      have hlt' := ht.lt
      simp only [heapStart] at hbig
      omega
    · have hq' := (ho.mem_used hq).2
      simp only at hq'
      omega

/-- A write of the client's own. -/
theorem write_step (ho : Owned c l) {addr : Nat} {v : BitVec 8} (hv : c.Valid (.write addr v)) :
    ∃ r c' l', c.call (.write addr v) = some (r, c') ∧ Owned c' l' ∧
    CallOk c (.write addr v) r c' := by
  obtain ⟨x, hx, h1, h2⟩ := hv
  obtain ⟨hm, hn⟩ := ho.mem_used hx
  have h32 := (ho.holds.block x hx).1
  have hout : Outside c.heap.bytes (Cells.set c.heap.bytes addr v) addr 1 := fun y hy =>
    Cells.set_of_ne (by omega) _ _
  exact ⟨0, _, l, rfl, ho.same (ho.tiled.write hm hout (by omega) (by omega)) rfl, rfl⟩

theorem call_step (ho : Owned c l) {op : HeapOp} (hv : c.Valid op) :
    ∃ r c' l', c.call op = some (r, c') ∧ Owned c' l' ∧ CallOk c op r c' := by
  cases op with
  | kmalloc size => exact kmalloc_step ho size
  | kfree ptr => exact kfree_step ho hv
  | krealloc ptr size => exact krealloc_step ho hv
  | write addr v => exact write_step ho hv

/-! ## Runs -/

/-- The heap that `heap_init` makes of mapped memory: one free block. -/
def oneBlock (phys : Phys) (bytes : Bytes.Mem) : Heap where
  phys := phys
  bytes := setNext (setFree (setSize bytes heapStart (65536 - 32)) heapStart 1) heapStart 0
  head := heapStart
  fin := heapStart + 65536

theorem oneBlock_owned (phys : Phys) (bytes : Bytes.Mem) :
    Owned ⟨oneBlock phys bytes, []⟩ [⟨65504, true⟩] := by
  refine ⟨⟨rfl, ⟨⟨?_, ?_, ?_⟩, trivial⟩, rfl, ?_, ⟨by decide, .singleton _⟩, by decide⟩,
    ⟨List.nodup_nil, nofun, nofun⟩⟩
  · unfold oneBlock
    rw [size_setNext, size_setFree, size_setSize (by decide)]
  · unfold oneBlock
    rw [free_setNext, free_setFree_one]
  · exact next_setNext (by decide)
  · show heapStart + 65536 < 2 ^ 64
    decide

theorem heapInit_owned {phys : Phys} {bytes : Bytes.Mem} (h₀ : Heap.heapInit phys bytes = some h) :
    Owned ⟨h, []⟩ [⟨65504, true⟩] := by
  unfold Heap.heapInit at h₀
  split at h₀
  · cases h₀
  · cases h₀
    exact oneBlock_owned _ bytes

/-- When all its pages can be mapped, `heap_init` makes one block of them. -/
theorem heapInit_eq {phys s : Phys} {bytes : Bytes.Mem}
    (he : Heap.growLoop heapStart 16 0 phys = (none, s)) :
    Heap.heapInit phys bytes = some (oneBlock s bytes) := by
  unfold Heap.heapInit
  rw [he]
  rfl

theorem Reaches.owned {ok : Phys → Prop} (hr : Reaches ok c c') (ho : Owned c l) :
    ∃ l', Owned c' l' := by
  induction hr with
  | start => exact ⟨l, ho⟩
  | step _ hv hc ih =>
    obtain ⟨l₁, ho₁⟩ := ih
    obtain ⟨r, c'', l', he, ho', -⟩ := call_step ho₁ hv
    rw [hc] at he
    cases he
    exact ⟨l', ho'⟩
  | elsewhere _ _ ih =>
    obtain ⟨l₁, ho₁⟩ := ih
    exact ⟨l₁, ⟨ho₁.tiled.head, ho₁.tiled.seg, ho₁.tiled.fin, ho₁.tiled.lt, ho₁.tiled.good,
      ho₁.tiled.cons⟩, ho₁.holds⟩

/-- **The heap is safe along every run** from `heap_init`: the blocks tile it, the live payloads are
sound, and every call ends and does what it should. -/
theorem heap_safety {phys : Phys} {bytes : Bytes.Mem} (h₀ : Heap.heapInit phys bytes = some h)
    {ok : Phys → Prop} (hr : Reaches ok ⟨h, []⟩ c) :
    HeapSafe c ∧ ∀ op, c.Valid op → ∃ r c', c.call op = some (r, c') ∧ CallOk c op r c' := by
  obtain ⟨l, ho⟩ := hr.owned (heapInit_owned h₀)
  refine ⟨ho.safe, fun op hv => ?_⟩
  obtain ⟨r, c', -, he, -, hok⟩ := call_step ho hv
  exact ⟨r, c', he, hok⟩

theorem heap_safety_tiny : ∃ s, HeapSafe ⟨oneBlock s fun _ => 0#8, []⟩ ∧
    ∃ r c', call ⟨oneBlock s fun _ => 0#8, []⟩ (.kmalloc 100) = some (r, c') ∧
      CallOk ⟨oneBlock s fun _ => 0#8, []⟩ (.kmalloc 100) r c' := by
  obtain ⟨s, he, -⟩ := Phys.tinyPhys_grows
  have hr : Reaches (fun _ => True) ⟨oneBlock s fun _ => 0#8, []⟩ ⟨oneBlock s fun _ => 0#8, []⟩ :=
    .start
  obtain ⟨hsafe, hcall⟩ := heap_safety (heapInit_eq he) hr
  exact ⟨s, hsafe, hcall (.kmalloc 100) trivial⟩

end HeapClient

end GenOS
