import GenOS.Mm.HeapList

/-!
# The heap invariant, operation by operation

`Tiled h l`: the blocks `l` tile the heap. What an operation may not touch is said by `Kept`: the
payloads of a list of blocks, given by address and size, hold what they held. One lemma for each
function of `heap.c` says which list it turns `l` into and whose payloads it keeps.
-/

namespace GenOS

open FirstFit Bytes HeapBlock

/-- The blocks `l` tile the heap, in address order; see `FirstFit.Good` for sizes and neighbours. -/
structure Tiled (h : Heap) (l : List Block) : Prop where
  head : h.head = heapStart
  seg : Seg h.bytes heapStart l 0
  fin : heapStart + span 32 l = h.fin
  lt : h.fin < 2 ^ 64
  good : Good 16 l
  cons : l ≠ []

/-- The payloads of the blocks `u` are as before. -/
def Kept (m m' : Bytes.Mem) (u : List (Nat × Nat)) : Prop :=
  ∀ x ∈ u, ∀ i < x.2, m' (x.1 + 32 + i) = m (x.1 + 32 + i)

variable {m m' m'' : Bytes.Mem} {u : List (Nat × Nat)} {a d n want new : Nat}
variable {l l₁ l₂ : List Block} {b : Block} {h : Heap}

namespace Kept

theorem refl : Kept m m u := fun _ _ _ _ => rfl

theorem trans (h : Kept m m' u) (h' : Kept m' m'' u) : Kept m m'' u :=
  fun x hx i hi => (h' x hx i hi).trans (h x hx i hi)

theorem of_outside (ho : Outside m m' d n)
    (hu : ∀ x ∈ u, x.1 + 32 + x.2 ≤ d ∨ d + n ≤ x.1 + 32) : Kept m m' u :=
  fun x hx i hi => ho _ (by have := hu x hx; omega)

/-- Writing behind the last block. -/
theorem of_after (ho : Outside m m' d n) (hd : a + span 32 l ≤ d) : Kept m m' (used 32 a l) :=
  of_outside ho fun _ hx => .inl (Nat.le_trans (used_bounds hx).2 hd)

/-- Writing the header of a block. -/
theorem of_header (ho : Outside m m' (a + span 32 l₁) 32) : Kept m m' (used 32 a (l₁ ++ b :: l₂)) :=
  of_outside ho fun x hx => by
    rw [used_append] at hx
    rcases List.mem_append.mp hx with hx | hx
    · exact .inl (used_bounds hx).2
    · exact .inr (Nat.add_le_add_right (used_bounds hx).1 32)

/-- Writing inside a free block. -/
theorem of_free (hb : b.free = true) (ho : Outside m m' (a + span 32 l₁) (32 + b.size)) :
    Kept m m' (used 32 a (l₁ ++ b :: l₂)) :=
  of_outside ho fun x hx => by
    rw [used_append, used_cons_free hb] at hx
    rcases List.mem_append.mp hx with hx | hx
    · exact .inl (used_bounds hx).2
    · have := (used_bounds hx).1
      omega

end Kept

namespace Tiled

theorem ne_zero : 0 < heapStart := by decide

theorem length_lt (ht : Tiled h l) : l.length < h.fuel := by
  have h1 := length_le_span l
  have h2 := ht.fin
  unfold Heap.fuel
  omega

theorem first_eq (ht : Tiled h l) (z : Nat) : first heapStart z l = h.head := by
  rw [ht.head]
  cases l with
  | nil => exact absurd rfl ht.cons
  | cons _ _ => rfl

theorem used_lt (ht : Tiled h l) {x : Nat × Nat} (hx : x ∈ used 32 heapStart l) :
    heapStart ≤ x.1 ∧ x.1 + 32 + x.2 ≤ h.fin := by
  have h1 := used_bounds hx
  rw [ht.fin] at h1
  exact h1

/-- The addresses of all blocks are aligned. -/
theorem aligned (ht : Tiled h l) {x : Nat × Nat} (hx : x ∈ used 32 heapStart l) :
    (x.1 + 32) % 16 = 0 := by
  obtain ⟨l₁, l₂, rfl, he⟩ := mem_used.mp hx
  have hs : ∀ k : List Block, (∀ b ∈ k, 16 ∣ b.size) → 16 ∣ span 32 k := fun k hk => by
    induction k with
    | nil => exact Nat.dvd_zero _
    | cons b k ih =>
      have h1 := hk b List.mem_cons_self
      have h2 := ih fun c hc => hk c (List.mem_cons_of_mem b hc)
      simp only [span]
      omega
  have := hs l₁ fun b hb => (ht.good.size b (List.mem_append_left _ hb)).2
  rw [he]
  unfold heapStart
  omega

/-- The size in the header of a block in use. -/
theorem size_eq (ht : Tiled h l) {x : Nat × Nat} (hx : x ∈ used 32 heapStart l) :
    size h.bytes x.1 = x.2 := by
  obtain ⟨l₁, l₂, rfl, he⟩ := mem_used.mp hx
  rw [he]
  exact ht.seg.header.size

end Tiled

/-! ## Allocation -/

theorem takeBlock_spec (want : Nat) (hs : Seg m a (l₁ ++ b :: l₂) 0)
    (hlt : a + span 32 l₁ + 32 + b.size < 2 ^ 64) :
    Seg (takeBlock m (a + span 32 l₁) want) a (l₁ ++ carve 32 want b ++ l₂) 0 ∧
      Outside m (takeBlock m (a + span 32 l₁) want) (a + span 32 l₁) (32 + b.size) := by
  have hb := hs.header
  rw [List.append_cons] at hs
  have hsz : size m (a + span 32 l₁) = b.size := hb.size
  suffices hmain : Outside m (takeBlock m (a + span 32 l₁) want) (a + span 32 l₁) (32 + b.size) ∧
      ∀ z, Seg m (a + span 32 l₁) [b] z →
        Seg (takeBlock m (a + span 32 l₁) want) (a + span 32 l₁) (carve 32 want b) z by
    refine ⟨Seg.replace [b] _ hs hmain.1 span_carve (by simp) ?_ hmain.2, hmain.1⟩
    unfold carve
    split
    · simp
    · simp
  unfold takeBlock carve
  generalize a + span 32 l₁ = curr at hsz hlt ⊢
  rw [hsz]
  split
  · rename_i hgt
    -- the three writes to the new header, then those to the old one
    let m₃ := setNext (setSize (setFree m (curr + 32 + want) 1) (curr + 32 + want)
      (size (setFree m (curr + 32 + want) 1) curr - want - 32)) (curr + 32 + want)
      (next (setSize (setFree m (curr + 32 + want) 1) (curr + 32 + want)
        (size (setFree m (curr + 32 + want) 1) curr - want - 32)) curr)
    have hold : size (setFree m (curr + 32 + want) 1) curr = b.size :=
      ((setFree_outside m _ 1).load_eq (by omega)).trans hsz
    have ho₃ : Outside m m₃ (curr + 32 + want) 32 :=
      ((setFree_outside m _ 1).trans (setSize_outside _ _ _)).trans (setNext_outside _ _ _)
    have ho₆ : Outside m₃ (setFree (setNext (setSize m₃ curr want) curr (curr + 32 + want)) curr 0)
        curr 32 :=
      ((setSize_outside m₃ _ _).trans (setNext_outside _ _ _)).trans (setFree_outside _ _ _)
    refine ⟨(ho₃.mono (by omega) (by omega)).trans (ho₆.mono (by omega) (by omega)), fun z hz => ?_⟩
    have hnew : Header m₃ (curr + 32 + want) ⟨b.size - want - 32, true⟩ z := by
      refine ⟨?_, ?_, ?_⟩
      · simp only [m₃, size_setNext]
        rw [hold, size_setSize (by omega)]
      · simp only [m₃, free_setNext, free_setSize, free_setFree_one]
      · simp only [m₃]
        rw [next_setNext (next_lt _ _)]
        exact (((setFree_outside m _ 1).trans (setSize_outside _ _ _)).load_eq (by omega)).trans
          hz.1.next
    refine ⟨⟨?_, ?_, ?_⟩, ?_, trivial⟩
    · rw [size_setFree, size_setNext, size_setSize (by omega)]
    · exact free_setFree_zero
    · rw [next_setFree, next_setNext (by omega)]
      rfl
    · exact hnew.congr ho₆ (.inr (by omega))
  · refine ⟨(setFree_outside m curr 0).mono (Nat.le_refl _) (by omega), fun z hz => ⟨⟨?_, ?_, ?_⟩,
      trivial⟩⟩
    · exact size_setFree.trans hsz
    · exact free_setFree_zero
    · exact next_setFree.trans hz.1.next

/-! ## Growth -/

theorem appendBlock_spec (hs : Seg m a (l ++ [b]) 0) (hn : new = a + span 32 (l ++ [b]))
    (hlt : new + 65536 < 2 ^ 64) :
    Seg (appendBlock m (a + span 32 l) new) a (grow 32 65504 (l ++ [b])) 0 ∧
      Kept m (appendBlock m (a + span 32 l) new) (used 32 a (l ++ [b])) := by
  let m₁ := setNext (setFree (setSize m new (65536 - 32)) new 1) new 0
  let m₂ := setNext m₁ (a + span 32 l) new
  have hspan : span 32 (l ++ [b]) = span 32 l + 32 + b.size := by
    rw [span_append]
    simp only [span]
    omega
  have ho₁ : Outside m m₁ new 32 :=
    ((setSize_outside m new _).trans (setFree_outside _ _ _)).trans (setNext_outside _ _ _)
  have hk₁ : Kept m m₁ (used 32 a (l ++ [b])) := .of_after ho₁ (by omega)
  have hk₂ : Kept m m₂ (used 32 a (l ++ [b])) :=
    hk₁.trans (.of_header (setNext_outside m₁ _ new))
  have hnew₁ : Header m₁ new ⟨65504, true⟩ 0 := by
    refine ⟨?_, ?_, ?_⟩
    · simp only [m₁, size_setNext, size_setFree]
      exact size_setSize (by decide)
    · simp only [m₁, free_setNext, free_setFree_one]
    · exact next_setNext (by decide)
  have hnew₂ : Header m₂ new ⟨65504, true⟩ 0 := hnew₁.congr (setNext_outside m₁ _ new)
    (.inr (by omega))
  have hl₂ : Seg m₂ a (l ++ [b]) new := (hs.congr ho₁ (.inl (by omega))).relink (by omega)
  have hseg : Seg m₂ a (l ++ [b] ++ [⟨65504, true⟩]) 0 := by
    refine Seg.append.mpr ⟨?_, ?_⟩
    · rw [← hn]
      exact hl₂
    · rw [← hn]
      exact ⟨hnew₂, trivial⟩
  have hbf : free m₂ (a + span 32 l) = b.free := hl₂.header.free
  have happ : appendBlock m (a + span 32 l) new =
      if b.free then absorb m₂ (a + span 32 l) new else m₂ := by
    have hnx :
        next (setSize m₂ (a + span 32 l) (size m₂ (a + span 32 l) + 32 + size m₂ new)) new = 0 :=
      ((setSize_outside m₂ _ _).load_eq (.inr (by omega))).trans hnew₂.next
    rw [← hbf]
    simp only [absorb, hnx]
    rfl
  rw [happ]
  rcases grow_cases 32 65504 (l ++ [b]) with ⟨hu, he⟩ | ⟨k, p, hk, hp, he⟩
  · rw [he, if_neg (by simpa using hu b (by simp))]
    exact ⟨hseg, hk₂⟩
  · obtain ⟨rfl, rfl⟩ : l = k ∧ b = p := by
      have := List.append_inj' hk rfl
      exact ⟨this.1, by simpa using this.2⟩
    rw [he, if_pos hp]
    rw [List.append_assoc] at hseg
    have hab := hseg.absorb (by simp only; omega)
    rw [show a + span 32 l + 32 + b.size = new by omega, hp] at hab
    exact ⟨hab, hk₂.trans (.of_header (absorb_outside m₂ _ new))⟩

theorem heapGrow_eq (hfin : h.fin ≤ 2 ^ 64 - 1 - 65536) {last : Nat}
    (hl : findLast h.bytes h.fuel h.head = some last) : h.heapGrow =
      match Heap.growLoop h.fin 16 0 h.phys with
      | (some i, s) => some (false, { h with phys := Heap.growRollback h.fin i s })
      | (none, s) => some (true,
          { h with phys := s, bytes := appendBlock h.bytes last h.fin, fin := h.fin + 65536 }) := by
  unfold Heap.heapGrow
  rw [if_neg (by omega), hl]
  rfl

/-- **`heap_grow`**, case by case: no address space, a page that failed, or a grown list. -/
theorem heapGrow_cases (ht : Tiled h l) :
    (2 ^ 64 - 1 - 65536 < h.fin ∧ h.heapGrow = some (false, h)) ∨
    (∃ i s, h.fin ≤ 2 ^ 64 - 1 - 65536 ∧ Heap.growLoop h.fin 16 0 h.phys = (some i, s) ∧
      h.heapGrow = some (false, { h with phys := Heap.growRollback h.fin i s })) ∨
    ∃ s bytes, h.fin ≤ 2 ^ 64 - 1 - 65536 ∧ Heap.growLoop h.fin 16 0 h.phys = (none, s) ∧
      h.heapGrow = some (true, { h with phys := s, bytes, fin := h.fin + 65536 }) ∧
      Tiled { h with phys := s, bytes, fin := h.fin + 65536 } (grow 32 65504 l) ∧
      Kept h.bytes bytes (used 32 heapStart l) := by
  by_cases hfin : h.fin > 2 ^ 64 - 1 - 65536
  · refine .inl ⟨hfin, ?_⟩
    unfold Heap.heapGrow
    exact if_pos hfin
  obtain ⟨k, b, rfl⟩ : ∃ k b, l = k ++ [b] := by
    rcases List.eq_nil_or_concat l with rfl | ⟨k, b, rfl⟩
    · exact absurd rfl ht.cons
    · exact ⟨k, b, List.concat_eq_append⟩
  have hlast : findLast h.bytes h.fuel h.head = some (heapStart + span 32 k) := by
    rw [ht.head]
    refine findLast_eq ht.seg Tiled.ne_zero ?_
    have := ht.length_lt
    simp only [List.length_append, List.length_singleton] at this
    omega
  have heq := heapGrow_eq (by omega) hlast
  right
  cases hg : Heap.growLoop h.fin 16 0 h.phys with
  | mk r s =>
    rw [hg] at heq
    cases r with
    | some i => exact .inl ⟨i, s, by omega, rfl, heq⟩
    | none =>
      obtain ⟨hseg, hk⟩ := appendBlock_spec ht.seg ht.fin.symm (by omega)
      simp only at heq
      generalize appendBlock h.bytes (heapStart + span 32 k) h.fin = bytes at hseg hk heq
      refine .inr ⟨s, bytes, by omega, rfl, heq,
        ⟨ht.head, hseg, ?_, ?_, ht.good.grow (by decide) (by decide), ?_⟩, hk⟩
      · rw [span_grow]
        have := ht.fin
        simp only
        omega
      · simp only
        omega
      · rcases grow_cases 32 65504 (k ++ [b]) with ⟨_, he⟩ | ⟨m, p, _, _, he⟩
        · rw [he]
          simp
        · rw [he]
          simp

/-! ## `kmalloc` -/

/-- How a request for `want` bytes may end: without a block, or with a new one. The payloads in use
are kept either way. -/
structure Served (h : Heap) (l : List Block) (want r : Nat) (h' : Heap)
    (l' : List Block) : Prop where
  tiled : Tiled h' l'
  kept : Kept h.bytes h'.bytes (used 32 heapStart l)
  fin : h.fin ≤ h'.fin
  refused : r = 0 → used 32 heapStart l' = used 32 heapStart l
  taken : r ≠ 0 → 32 ≤ r ∧ ∃ n, want ≤ n ∧
    (used 32 heapStart l').Perm ((r - 32, n) :: used 32 heapStart l)

/-- A free block that fits is taken, the first one, and the heap does not grow. -/
theorem kmallocLoop_fit (ht : Tiled h (l₁ ++ b :: l₂)) (hf : fits want b = true)
    (hn : ∀ x ∈ l₁, fits want x = false) (h0 : 0 < want) (hw : 16 ∣ want) (n : Nat) :
    ∃ bytes, Heap.kmallocLoop want (n + 1) h =
        some (heapStart + span 32 l₁ + 32, { h with bytes }) ∧
      Served h (l₁ ++ b :: l₂) want (heapStart + span 32 l₁ + 32) { h with bytes }
        (l₁ ++ carve 32 want b ++ l₂) := by
  have hb : b.free = true := by
    simp only [fits, Bool.and_eq_true] at hf
    exact hf.1
  have hfin := ht.fin
  have hlt := ht.lt
  rw [span_append] at hfin
  simp only [span] at hfin
  have hfind : findFit h.bytes want h.fuel h.head = some (heapStart + span 32 l₁) := by
    rw [← ht.first_eq 0, findFit_eq ht.seg Tiled.ne_zero ht.length_lt, alloc_skip hn hf]
    rfl
  obtain ⟨hseg, ho⟩ := takeBlock_spec want ht.seg (by omega)
  have hloop : Heap.kmallocLoop want (n + 1) h = some (heapStart + span 32 l₁ + 32,
      { h with bytes := takeBlock h.bytes (heapStart + span 32 l₁) want }) := by
    rw [Heap.kmallocLoop, hfind]
    simp only [Option.bind_eq_bind, Option.bind_some]
    rw [if_pos (by unfold heapStart; omega)]
  generalize takeBlock h.bytes (heapStart + span 32 l₁) want = bytes at hseg ho hloop
  refine ⟨bytes, hloop, ⟨ht.head, hseg, ?_, ht.lt,
    ht.good.carve hf (by decide) hw h0, ?_⟩, ?_, Nat.le_refl _, fun hr => ?_,
    fun _ => ⟨by omega, _, le_taken 32 hf, ?_⟩⟩
  · rw [span_append, span_append, span_carve, ← ht.fin, span_append]
    simp only [span]
    omega
  · unfold carve
    split
    · simp
    · simp
  · exact .of_free hb ho
  · omega
  · rw [Nat.add_sub_cancel]
    exact used_alloc hf heapStart l₁ l₂

/-- Where no block fits, the heap grows. -/
theorem kmallocLoop_grow (ht : Tiled h l) (hal : alloc 32 want heapStart l = none) (n : Nat) :
    Heap.kmallocLoop want (n + 1) h = h.heapGrow.bind fun g =>
      if g.1 then Heap.kmallocLoop want n g.2 else some (0, g.2) := by
  have hfind : findFit h.bytes want h.fuel h.head = some 0 := by
    rw [← ht.first_eq 0, findFit_eq ht.seg Tiled.ne_zero ht.length_lt, hal]
    rfl
  rw [Heap.kmallocLoop, hfind]
  rfl

/-- **The `retry` loop** ends: with a block, or without one and with the same blocks in use. -/
theorem kmallocLoop_spec (h0 : 0 < want) (hw : 16 ∣ want) :
    ∀ {n : Nat} {h : Heap} {l : List Block}, Tiled h l → (2 ^ 64 - 1 - h.fin) / 65536 < n →
      ∃ r h' l', Heap.kmallocLoop want n h = some (r, h') ∧ Served h l want r h' l'
  | 0, _, _, _, hn => absurd hn (Nat.not_lt_zero _)
  | n + 1, h, l, ht, hn => by
    rcases alloc_cases 32 want l with ⟨-, hal⟩ | ⟨l₁, b, l₂, rfl, hl, hf⟩
    · have hsame : ∀ s : Phys, Served h l want 0 { h with phys := s } l := fun s =>
        ⟨⟨ht.head, ht.seg, ht.fin, ht.lt, ht.good, ht.cons⟩, .refl, Nat.le_refl _, fun _ => rfl,
          fun hr => absurd rfl hr⟩
      rw [kmallocLoop_grow ht (hal _)]
      rcases heapGrow_cases ht with ⟨_, hg⟩ | ⟨i, s, _, _, hg⟩ | ⟨s, bytes, hfin, _, hg, ht', hk⟩
      · rw [hg]
        exact ⟨0, h, l, rfl, hsame h.phys⟩
      · rw [hg]
        exact ⟨0, _, l, rfl, hsame _⟩
      · rw [hg]
        obtain ⟨r, h', l', he, hs⟩ := kmallocLoop_spec h0 hw (n := n) ht' (by simp only; omega)
        have hfin' := hs.fin
        have hkept := hs.kept
        have hrefused := hs.refused
        have htaken := hs.taken
        rw [used_grow] at hkept hrefused htaken
        exact ⟨r, h', l', he, hs.tiled, hk.trans hkept, by simp only at hfin'; omega,
          hrefused, htaken⟩
    · obtain ⟨bytes, he, hs⟩ := kmallocLoop_fit ht hf hl h0 hw n
      exact ⟨_, _, _, he, hs⟩

/-- `kmalloc` refuses a size, or serves it. -/
theorem kmalloc_cases (ht : Tiled h l) (size : Nat) :
    ((size = 0 ∨ size > 2 ^ 64 - 1 - 15 - 32) ∧ h.kmalloc size = some (0, h)) ∨
    (0 < size ∧ size ≤ Heap.roundUp size ∧ ∃ r h' l', h.kmalloc size = some (r, h') ∧
      Served h l (Heap.roundUp size) r h' l') := by
  unfold Heap.kmalloc
  split
  · rename_i hs
    exact .inl ⟨hs, rfl⟩
  · rename_i hs
    have hle : size ≤ Heap.roundUp size := by
      unfold Heap.roundUp
      omega
    exact .inr
      ⟨by omega, hle, kmallocLoop_spec (by omega) (Nat.dvd_mul_left _ _) ht (Nat.lt_succ_self _)⟩

/-- A request that a free block can serve takes the first such block, and the heap does not grow. -/
theorem kmalloc_fit (ht : Tiled h l) {size : Nat} (h0 : 0 < size)
    (hf : ∃ b ∈ l, fits (Heap.roundUp size) b = true) :
    ∃ bytes l₁ b l₂, l = l₁ ++ b :: l₂ ∧ fits (Heap.roundUp size) b = true ∧
      (∀ x ∈ l₁, fits (Heap.roundUp size) x = false) ∧
      h.kmalloc size = some (heapStart + span 32 l₁ + 32, { h with bytes }) := by
  rcases alloc_cases 32 (Heap.roundUp size) l with ⟨hno, -⟩ | ⟨l₁, b, l₂, rfl, hl, hb⟩
  · obtain ⟨b, hm, hb⟩ := hf
    rw [hno b hm] at hb
    cases hb
  · have hle : size ≤ Heap.roundUp size ∧ 16 ∣ Heap.roundUp size := by
      unfold Heap.roundUp
      omega
    have hsize : size ≤ 2 ^ 64 - 1 - 15 - 32 := by
      -- a larger block would not fit the address space
      have h1 := ht.fin
      have h2 := ht.lt
      simp only [fits, Bool.and_eq_true, decide_eq_true_eq] at hb
      rw [span_append] at h1
      simp only [span] at h1
      unfold heapStart at h1
      omega
    obtain ⟨bytes, he, -⟩ := kmallocLoop_fit ht hb hl (by omega) hle.2
      ((2 ^ 64 - 1 - h.fin) / 65536)
    refine ⟨bytes, l₁, b, l₂, rfl, hb, hl, ?_⟩
    unfold Heap.kmalloc
    rw [if_neg (by omega)]
    exact he

/-! ## `kfree` -/

theorem coalesceNext_spec (hs : Seg m a (l₁ ++ b :: l₂) 0) (h0 : 0 < a)
    (hlt : a + span 32 (l₁ ++ b :: l₂) < 2 ^ 64) :
    Seg (coalesceNext m (a + span 32 l₁)) a (l₁ ++ merge 32 b l₂) 0 ∧
      Outside m (coalesceNext m (a + span 32 l₁)) (a + span 32 l₁) 32 := by
  have hnext := hs.header.next
  unfold coalesceNext
  cases l₂ with
  | nil =>
    rw [first] at hnext
    rw [if_neg (by simp [hnext])]
    exact ⟨hs, .refl⟩
  | cons c l =>
    rw [first] at hnext
    have hc : free m (a + span 32 l₁ + 32 + b.size) = c.free := (Seg.append.mp hs).2.2.1.free
    have hne : decide (a + span 32 l₁ + 32 + b.size ≠ 0) = true := by simp
    rw [hnext, hc, hne, Bool.true_and, merge]
    split
    · refine ⟨hs.absorb ?_, absorb_outside m _ _⟩
      rw [span_append] at hlt
      simp only [span] at hlt
      omega
    · exact ⟨hs, .refl⟩

/-- What `kfree` does with a block that it has marked, once it knows the block before. -/
def coalesce (m : Bytes.Mem) (block prev : Nat) : Bytes.Mem :=
  let p := if prev ≠ 0 && free m prev then (prev, absorb m prev block) else (block, m)
  coalesceNext p.2 p.1

theorem kfree_eq {ptr block : Nat} (hp : ptr = block + 32) : h.kfree ptr =
    (findPrev (setFree h.bytes block 1) block h.fuel 0 h.head).bind fun prev =>
      some { h with bytes := coalesce (setFree h.bytes block 1) block prev } := by
  have hblock : ptr - 32 = block := by omega
  unfold Heap.kfree
  rw [if_neg (by omega), hblock]
  rfl

/-- The list after a block was marked in the memory `m`. -/
structure Coalesced (m : Bytes.Mem) (fuel : Nat) (l₁ : List Block) (n : Nat) (l₂ : List Block)
    (bytes : Bytes.Mem) : Prop where
  found : (findPrev m (heapStart + span 32 l₁) fuel 0 heapStart).bind (fun prev =>
    some (coalesce m (heapStart + span 32 l₁) prev)) = some bytes
  seg : Seg bytes heapStart (release 32 l₁ n l₂) 0
  kept : Kept m bytes (used 32 heapStart (l₁ ++ ⟨n, true⟩ :: l₂))

/-- The block before is in use, or there is none. -/
theorem coalesced_alone {m : Bytes.Mem} {fuel : Nat}
    (hs : Seg m heapStart (l₁ ++ ⟨n, true⟩ :: l₂) 0)
    (hlt : heapStart + span 32 (l₁ ++ ⟨n, true⟩ :: l₂) < 2 ^ 64) (hfuel : l₁.length < fuel)
    (hl : ∀ p ∈ l₁.getLast?, p.free = false)
    (he : release 32 l₁ n l₂ = l₁ ++ merge 32 ⟨n, true⟩ l₂) :
    ∃ bytes, Coalesced m fuel l₁ n l₂ bytes := by
  obtain ⟨hseg, ho⟩ := coalesceNext_spec hs Tiled.ne_zero hlt
  have hprev : ∃ prev, findPrev m (heapStart + span 32 l₁) fuel 0 heapStart = some prev ∧
      (prev ≠ 0 && free m prev) = false := by
    rcases List.eq_nil_or_concat l₁ with rfl | ⟨k, p, rfl⟩
    · obtain ⟨fuel, rfl⟩ := Nat.exists_eq_succ_of_ne_zero (Nat.ne_of_gt hfuel)
      refine ⟨0, ?_, rfl⟩
      rw [findPrev]
      exact if_pos (.inr rfl)
    · rw [List.concat_eq_append] at *
      refine ⟨heapStart + span 32 k, findPrev_eq (Seg.append.mp hs).1 rfl Tiled.ne_zero ?_, ?_⟩
      · simp only [List.length_append, List.length_singleton] at hfuel
        omega
      · have hf : free m (heapStart + span 32 k) = p.free := by
          rw [List.append_assoc] at hs
          exact hs.header.free
        rw [hf, hl p (by simp), Bool.and_false]
  obtain ⟨prev, hfind, hno⟩ := hprev
  refine ⟨coalesceNext m (heapStart + span 32 l₁), ?_, he ▸ hseg, .of_header ho⟩
  rw [hfind, Option.bind_some, coalesce, hno]
  rfl

/-- The block before is free and swallows the one freed. -/
theorem coalesced_prev {m : Bytes.Mem} {fuel : Nat} {k : List Block} {p : Block}
    (hs : Seg m heapStart (k ++ [p] ++ ⟨n, true⟩ :: l₂) 0)
    (hlt : heapStart + span 32 (k ++ [p] ++ ⟨n, true⟩ :: l₂) < 2 ^ 64)
    (hfuel : (k ++ [p]).length < fuel) (hpf : p.free = true)
    (he : release 32 (k ++ [p]) n l₂ = k ++ merge 32 ⟨p.size + 32 + n, true⟩ l₂) :
    ∃ bytes, Coalesced m fuel (k ++ [p]) n l₂ bytes := by
  have hs₁ := hs
  rw [List.append_assoc] at hs₁
  have hfree : free m (heapStart + span 32 k) = true := hs₁.header.free.trans hpf
  have hspan : heapStart + span 32 (k ++ [p]) = heapStart + span 32 k + 32 + p.size := by
    rw [span_append]
    simp only [span]
    omega
  have hs₂ := hs₁.absorb (by
    rw [span_append] at hlt
    simp only [span] at hlt ⊢
    omega)
  rw [← hspan, hpf] at hs₂
  obtain ⟨hseg, ho⟩ := coalesceNext_spec hs₂ Tiled.ne_zero (by
    rw [span_append, span_append] at hlt
    rw [span_append]
    simp only [span] at hlt ⊢
    omega)
  have hfind : findPrev m (heapStart + span 32 (k ++ [p])) fuel 0 heapStart =
      some (heapStart + span 32 k) := by
    refine findPrev_eq (Seg.append.mp hs).1 rfl Tiled.ne_zero ?_
    simp only [List.length_append, List.length_singleton] at hfuel
    omega
  have hyes : (decide (heapStart + span 32 k ≠ 0) && free m (heapStart + span 32 k)) = true := by
    simp [hfree]
  refine ⟨_, ?_, he ▸ hseg, ?_⟩
  · rw [hfind, Option.bind_some, coalesce, hyes]
    rfl
  · have hk : Kept m (absorb m (heapStart + span 32 k) (heapStart + span 32 (k ++ [p])))
        (used 32 heapStart (k ++ [p] ++ ⟨n, true⟩ :: l₂)) := by
      rw [List.append_assoc]
      exact .of_header (absorb_outside m _ _)
    refine hk.trans ?_
    have hu : used 32 heapStart (k ++ [p] ++ ⟨n, true⟩ :: l₂) =
        used 32 heapStart (k ++ ⟨p.size + 32 + n, true⟩ :: l₂) := by
      rw [List.append_assoc, List.singleton_append, used_append, used_append, used_cons_free hpf,
        used_cons_free rfl, used_cons_free rfl]
      simp only [Nat.add_assoc]
    rw [hu]
    exact .of_header ho

/-- **`kfree`** of a block in use releases it and keeps every other payload. -/
theorem kfree_spec {ptr : Nat} (ht : Tiled h (l₁ ++ ⟨n, false⟩ :: l₂))
    (hp : ptr = heapStart + span 32 l₁ + 32) :
    ∃ bytes, h.kfree ptr = some { h with bytes } ∧
      Tiled { h with bytes } (release 32 l₁ n l₂) ∧
      Kept h.bytes bytes
        (used 32 heapStart l₁ ++ used 32 (heapStart + span 32 l₁ + 32 + n) l₂) := by
  obtain ⟨m₁, hm₁⟩ : ∃ m₁, m₁ = setFree h.bytes (heapStart + span 32 l₁) 1 := ⟨_, rfl⟩
  have hlt : heapStart + span 32 (l₁ ++ ⟨n, true⟩ :: l₂) < 2 ^ 64 := by
    have hfin := ht.fin
    rw [span_append] at hfin ⊢
    exact hfin.symm ▸ ht.lt
  have hs₁ : Seg m₁ heapStart (l₁ ++ ⟨n, true⟩ :: l₂) 0 := hm₁ ▸ ht.seg.setFree_one
  have hu : used 32 heapStart (l₁ ++ ⟨n, true⟩ :: l₂) =
      used 32 heapStart l₁ ++ used 32 (heapStart + span 32 l₁ + 32 + n) l₂ := by
    rw [used_append, used_cons_free rfl]
  have hk₁ : Kept h.bytes m₁ (used 32 heapStart (l₁ ++ ⟨n, true⟩ :: l₂)) :=
    hm₁ ▸ .of_header (setFree_outside _ _ _)
  have hfuel : l₁.length < h.fuel := by
    have hlen := ht.length_lt
    rw [List.length_append] at hlen
    omega
  have hgood : Good 16 (release 32 l₁ n l₂) := ht.good.release (by decide)
  obtain ⟨bytes, hfound, hseg, hkept⟩ : ∃ bytes, Coalesced m₁ h.fuel l₁ n l₂ bytes := by
    rcases release_cases 32 l₁ n l₂ with ⟨hl, he⟩ | ⟨k, p, rfl, hpf, he⟩
    · exact coalesced_alone hs₁ hlt hfuel hl he
    · exact coalesced_prev hs₁ hlt hfuel hpf he
  refine ⟨bytes, ?_, ⟨ht.head, hseg, ?_, ht.lt, hgood, release_ne_nil 32 l₁ n l₂⟩, ?_⟩
  · obtain ⟨prev, hprev, hb⟩ := Option.bind_eq_some_iff.mp hfound
    rw [kfree_eq hp, ht.head, ← hm₁, hprev, Option.bind_some, Option.some.inj hb]
  · rw [span_release]
    exact ht.fin
  · rw [← hu]
    exact hk₁.trans hkept

/-- `kfree` by address. -/
theorem kfree_used (ht : Tiled h l) (hx : (a, n) ∈ used 32 heapStart l) :
    ∃ bytes l', h.kfree (a + 32) = some { h with bytes } ∧ Tiled { h with bytes } l' ∧
      (∀ y, y ∈ used 32 heapStart l' ↔ y ∈ used 32 heapStart l ∧ y.1 ≠ a) ∧
      Kept h.bytes bytes (used 32 heapStart l') := by
  obtain ⟨l₁, l₂, rfl, rfl⟩ := mem_used.mp hx
  obtain ⟨bytes, he, ht', hk⟩ := kfree_spec ht rfl
  refine ⟨bytes, _, he, ht', fun y => ?_, ?_⟩
  · rw [used_release, mem_used_except (by decide)]
  · rw [used_release]
    exact hk

/-! ## `krealloc` -/

/-- Writing into a payload leaves the list alone. -/
theorem Tiled.write (ht : Tiled h l) (hx : (a, n) ∈ used 32 heapStart l) {k : Nat}
    (ho : Outside h.bytes m d k) (h1 : a + 32 ≤ d) (h2 : d + k ≤ a + 32 + n) :
    Tiled { h with bytes := m } l := by
  obtain ⟨l₁, l₂, rfl, rfl⟩ := mem_used.mp hx
  refine ⟨ht.head, ?_, ht.fin, ht.lt, ht.good, ht.cons⟩
  have hs := ht.seg
  rw [List.append_cons] at hs ⊢
  refine Seg.replace [_] [_] hs (ho.mono (by omega) ?_) rfl (by simp) (by simp) fun z hz => ?_
  · simp only [span] at h2 ⊢
    omega
  · exact ⟨hz.1.congr ho (.inl h1), trivial⟩

theorem krealloc_eq {size : Nat} (h0 : 0 < size) (hn : HeapBlock.size h.bytes a = n) :
    h.krealloc (a + 32) size =
      if size ≤ n then some (a + 32, h)
      else (h.kmalloc size).bind fun g =>
        if g.1 = 0 then some (0, g.2)
        else ({ g.2 with bytes := Bytes.copy g.2.bytes g.1 (a + 32) n }.kfree (a + 32)).bind
          fun h => some (g.1, h) := by
  unfold Heap.krealloc
  rw [if_neg (by omega), if_neg (by omega), Nat.add_sub_cancel, hn]
  rfl

/-- **`krealloc`** of a block in use: nothing changes but for free space, or the block is large
enough, or its contents move to a new block. -/
theorem krealloc_spec (ht : Tiled h l) (hx : (a, n) ∈ used 32 heapStart l) {size : Nat}
    (h0 : 0 < size) :
    ∃ r h' l', h.krealloc (a + 32) size = some (r, h') ∧ Tiled h' l' ∧
      ((r = 0 ∧ n < size ∧ used 32 heapStart l' = used 32 heapStart l ∧
          Kept h.bytes h'.bytes (used 32 heapStart l) ∧ h.kmalloc size = some (0, h')) ∨
        (r = a + 32 ∧ size ≤ n ∧ h' = h ∧ l' = l) ∨
        (32 ≤ r ∧ n < size ∧ ∃ k, size ≤ k ∧ (∀ y ∈ used 32 heapStart l, y.1 ≠ r - 32) ∧
          (∀ y, y ∈ used 32 heapStart l' ↔ y = (r - 32, k) ∨ y ∈ used 32 heapStart l ∧ y.1 ≠ a) ∧
          (∀ y ∈ used 32 heapStart l, y.1 ≠ a →
            ∀ i < y.2, h'.bytes (y.1 + 32 + i) = h.bytes (y.1 + 32 + i)) ∧
          ∀ i < n, h'.bytes (r + i) = h.bytes (a + 32 + i))) := by
  rw [krealloc_eq h0 (ht.size_eq hx)]
  split
  · rename_i hle
    exact ⟨_, _, l, rfl, ht, .inr (.inl ⟨rfl, hle, rfl, rfl⟩)⟩
  rename_i hgt
  rcases kmalloc_cases ht size with ⟨_, he⟩ | ⟨_, hle, r, h₁, l₁, he, hs⟩
  · rw [he]
    exact ⟨0, h, l, rfl, ht, .inl ⟨rfl, by omega, rfl, .refl, rfl⟩⟩
  rw [he]
  by_cases hr : r = 0
  · subst hr
    exact ⟨0, h₁, l₁, rfl, hs.tiled, .inl ⟨rfl, by omega, hs.refused rfl, hs.kept, rfl⟩⟩
  obtain ⟨hr32, k, hk, hperm⟩ := hs.taken hr
  -- the new block lies apart from every block that was in use
  have hmem : ∀ {y}, y ∈ used 32 heapStart l₁ ↔ y = (r - 32, k) ∨
      y ∈ used 32 heapStart l := fun {y} => by
    rw [hperm.mem_iff, List.mem_cons]
  have hnew : (r - 32, k) ∈ used 32 heapStart l₁ := hmem.mpr (.inl rfl)
  have hfresh : ∀ y ∈ used 32 heapStart l, y.1 ≠ r - 32 := fun y hy hc => by
    have hnd := ((hperm.map (·.1)).nodup_iff).mp (used_nodup (by decide) heapStart l₁)
    rw [List.map_cons, List.nodup_cons] at hnd
    exact hnd.1 (List.mem_map.mpr ⟨y, hy, hc⟩)
  have hapart : ∀ y ∈ used 32 heapStart l, r + k ≤ y.1 ∨ y.1 + 32 + y.2 ≤ r - 32 := fun y hy => by
    rcases used_apart hnew (hmem.mpr (.inr hy)) with h | h | h
    · exact absurd (congrArg (·.1) h).symm (hfresh y hy)
    · exact .inl (by simp only at h; omega)
    · exact .inr h
  have hcopy := Bytes.copy_outside h₁.bytes r (a + 32) n
  have ht₂ := hs.tiled.write hnew hcopy (by omega) (by omega)
  obtain ⟨bytes, l', hf, ht', hused, hkept⟩ := kfree_used ht₂ (hmem.mpr (.inr hx))
  refine ⟨r, _, l', ?_, ht', .inr (.inr ⟨hr32, by omega, k, by omega, hfresh, fun y => ?_,
    fun y hy hne i hi => ?_, fun i hi => ?_⟩)⟩
  · rw [Option.bind_some, if_neg hr, hf]
    rfl
  · rw [hused, hmem]
    constructor
    · rintro ⟨rfl | hy, hne⟩
      · exact .inl rfl
      · exact .inr ⟨hy, hne⟩
    · rintro (rfl | ⟨hy, hne⟩)
      · exact ⟨.inl rfl, fun hc => hfresh _ hx hc.symm⟩
      · exact ⟨.inr hy, hne⟩
  · refine (hkept y ((hused y).mpr ⟨hmem.mpr (.inr hy), hne⟩) i hi).trans ?_
    refine (hcopy _ ?_).trans (hs.kept y hy i hi)
    have := hapart y hy
    omega
  · have h1 := hkept (r - 32, k) ((hused _).mpr ⟨hnew, fun hc => hfresh _ hx hc.symm⟩) i (by
      simp only
      omega)
    simp only at h1
    rw [show r - 32 + 32 + i = r + i by omega] at h1
    refine h1.trans ((Bytes.copy_apply ?_ hi).trans (hs.kept _ hx i hi))
    have := hapart _ hx
    simp only at this
    omega

end GenOS
