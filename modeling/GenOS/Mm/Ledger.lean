import GenOS.Mm.PmmInv
import Mathlib.Data.List.Count
import Mathlib.Data.List.Perm.Basic

/-!
# The ledger of the frames

The rest of the memory manager names a frame by its physical address and holds references to
frames in its own structures. `Moves s s' gone new` says that between two allocator states the
references in `gone` were given back and those in `new` taken, and nothing else changed. It is the
one fact the upper layers use about the allocator: the three calls are moves, moves compose, and
what a subsystem owns follows by counting.
-/

namespace GenOS.Pmm

/-- An address whose frame the allocator counts. -/
structure Tracked (s : Pmm) (a : Nat) : Prop where
  aligned : a % 4096 = 0
  lt : a / 4096 < s.totalPages
  unreserved : ¬ s.Reserved (a / 4096)

/-- The address of a free frame. -/
def FreeAt (s : Pmm) (a : Nat) : Prop := s.Tracked a ∧ s.refcounts (a / 4096) = 0

/-- From `s` to `s'` the references `gone` were given back and `new` were taken. -/
structure Moves (s s' : Pmm) (gone new : List Nat) : Prop where
  inv : s'.Inv
  total : s'.totalPages = s.totalPages
  reserved : ∀ i, s'.Reserved i ↔ s.Reserved i
  refs : ∀ a, s.Tracked a →
    s'.refcounts (a / 4096) + gone.count a = s.refcounts (a / 4096) + new.count a

variable {s s' s'' : Pmm} {A B C D : List Nat} {a : Nat}

theorem FreeAt.free (h : s.Inv) (hf : s.FreeAt a) : s.Free (a / 4096) :=
  (h.free_iff hf.1.lt).mpr hf.2

theorem freeAt_of_free (h : s.Inv) (ha : a % 4096 = 0) (hf : s.Free (a / 4096)) : s.FreeAt a :=
  ⟨⟨ha, hf.1, h.free_not_reserved hf⟩, (h.free_iff hf.1).mp hf⟩

theorem FreeAt.ne_zero (h : s.Inv) (hf : s.FreeAt a) : a ≠ 0 := by
  rintro rfl
  exact h.free_ne_zero (hf.free h) rfl

theorem Tracked.pos_of_not_freeAt (ht : s.Tracked a) (hf : ¬ s.FreeAt a) :
    0 < s.refcounts (a / 4096) :=
  Nat.pos_of_ne_zero fun h => hf ⟨ht, h⟩

theorem Tracked.held (h : s.Inv) (ht : s.Tracked a) (hp : 0 < s.refcounts (a / 4096)) :
    Held s a (a / 4096) := by
  have hset : s.bitmapTest (a / 4096) = true := by
    by_contra hc
    have := (h.clear_iff _ ht.lt).mp (by simpa using hc)
    omega
  have ha := ht.aligned
  refine ⟨by omega, fun h0 => ht.unreserved ?_, ht.lt, hset, hp, ht.unreserved⟩
  rw [h0]
  exact h.zero (by have := ht.lt; omega)

theorem Held.tracked {page : Nat} (h : Held s a page) : s.Tracked a := by
  have hi := h.index
  have ha := h.addr
  exact ⟨by omega, hi ▸ h.lt, hi ▸ h.unreserved⟩

namespace Moves

theorem refl (h : s.Inv) : Moves s s A A := ⟨h, rfl, fun _ => Iff.rfl, fun _ _ => rfl⟩

theorem tracked (h : Moves s s' A B) : s'.Tracked a ↔ s.Tracked a :=
  ⟨fun ⟨h1, h2, h3⟩ => ⟨h1, h.total ▸ h2, fun hr => h3 ((h.reserved _).mpr hr)⟩,
    fun ⟨h1, h2, h3⟩ => ⟨h1, h.total.symm ▸ h2, fun hr => h3 ((h.reserved _).mp hr)⟩⟩

theorem trans (h : Moves s s' A B) (h' : Moves s' s'' C D) : Moves s s'' (A ++ C) (B ++ D) := by
  refine ⟨h'.inv, h'.total.trans h.total, fun i => (h'.reserved i).trans (h.reserved i),
    fun a ht => ?_⟩
  have h1 := h.refs a ht
  have h2 := h'.refs a (h.tracked.mpr ht)
  rw [List.count_append, List.count_append]
  omega

/-- Only the counts matter. -/
theorem congr (h : Moves s s' A B)
    (he : ∀ a, s.Tracked a → A.count a + D.count a = B.count a + C.count a) : Moves s s' C D := by
  refine ⟨h.inv, h.total, h.reserved, fun a ht => ?_⟩
  have h1 := h.refs a ht
  have h2 := he a ht
  omega

/-- Chaining moves of one owner: what the first leaves is what the second starts from. -/
theorem comp (h : Moves s s' A B) (h' : Moves s' s'' B C) : Moves s s'' A C :=
  (h.trans h').congr fun a _ => by
    rw [List.count_append, List.count_append]
    omega

theorem perm (h : Moves s s' A B) (hA : A.Perm C) (hB : B.Perm D) : Moves s s' C D :=
  h.congr fun a _ => by
    rw [hA.count_eq, hB.count_eq]
    omega

theorem frame (h : Moves s s' A B) (C : List Nat) : Moves s s' (A ++ C) (B ++ C) :=
  h.congr fun a _ => by
    rw [List.count_append, List.count_append]
    omega

/-- A frame in use stays in use unless it was given back. -/
theorem not_freeAt (h : Moves s s' A B) (hf : ¬ s.FreeAt a) (hA : A.count a ≤ B.count a) :
    ¬ s'.FreeAt a := by
  intro hf'
  have ht := h.tracked.mp hf'.1
  have := h.refs a ht
  have := hf'.2
  have := ht.pos_of_not_freeAt hf
  omega

/-- A free frame stays free unless it was taken. -/
theorem freeAt (h : Moves s s' A B) (hf : s.FreeAt a) (hA : B.count a ≤ A.count a) :
    s'.FreeAt a := by
  have := h.refs a hf.1
  have := hf.2
  exact ⟨h.tracked.mpr hf.1, by omega⟩

end Moves

/-! ## The calls as moves -/

theorem count_singleton_addr {idx : Nat} (ha : a % 4096 = 0) :
    [idx * 4096].count a = if a / 4096 = idx then 1 else 0 := by
  rw [List.count_singleton]
  have : (idx * 4096 == a) = decide (a / 4096 = idx) := by
    rw [beq_eq_decide]
    exact decide_eq_decide.mpr (by omega)
  simp [this]

theorem AllocPage.moves {idx : Nat} (ha : AllocPage s s' idx) (h : s.Inv)
    (hr : ∀ i, s'.Reserved i ↔ s.Reserved i) : Moves s s' [] [idx * 4096] := by
  have h0 := (h.free_iff ha.free.1).mp ha.free
  refine ⟨ha.inv h, ha.allocRun.total, hr, fun a ht => ?_⟩
  rw [count_singleton_addr ht.aligned, ha.state]
  simp only [setRef_refcounts, bitmapSet_refcounts, Cells.set_apply, List.count_nil]
  split
  · rename_i hx
    rw [hx, h0]
  · rfl

/-- `pmm_alloc_page` fails, changing nothing, exactly when no frame is free. -/
theorem allocPage_moves (h : s.Inv) :
    (s.pmmAllocPage = (0, s) ∧ ∀ a, ¬ s.FreeAt a) ∨
    (s.FreeAt s.pmmAllocPage.1 ∧ Moves s s.pmmAllocPage.2 [] [s.pmmAllocPage.1]) := by
  have hres := step_reserved h .allocPage
  rcases allocPage_cases s with ⟨he, hn⟩ | ⟨idx, he, ha⟩
  · exact .inl ⟨he, fun a hf => hn _ (hf.free h)⟩
  · have hidx : idx * 4096 / 4096 = idx := by omega
    rw [he]
    exact .inr ⟨freeAt_of_free h (by omega) (by rw [hidx]; exact ha.free), ha.moves h hres⟩

/-- `pmm_free_page` gives one reference back on every frame in use. -/
theorem freePage_moves (h : s.Inv) (hf : ¬ s.FreeAt a) : Moves s (s.pmmFreePage a) [a] [] := by
  have hres := step_reserved h (.freePage a)
  have hinv := step_inv h (.freePage a)
  have htot := step_totalPages h (.freePage a)
  simp only [step] at hres hinv htot
  refine ⟨hinv, htot, hres, fun b ht => ?_⟩
  by_cases hb : b = a
  · subst hb
    have hp := ht.pos_of_not_freeAt hf
    rw [(freePage_of_held (ht.held h hp)).refs, Cells.set_self]
    simp only [List.count_singleton_self, List.count_nil]
    omega
  · rw [List.count_singleton, beq_eq_false_iff_ne.mpr (Ne.symm hb)]
    cases hal : s.allocatedFrame a with
    | false => rw [freePage_of_not hal]; rfl
    | true =>
      have hh := allocatedFrame_iff.mp hal
      have hne : b / 4096 ≠ a / 4096 := fun he => by
        have := ht.aligned
        have := hh.addr
        omega
      rw [(freePage_of_held hh).refs, Cells.set_of_ne hne]
      rfl

/-- `pmm_ref_page` takes one reference or changes nothing. -/
theorem refPage_moves (h : s.Inv) (a : Nat) :
    s.pmmRefPage a = (false, s) ∨
    ((s.pmmRefPage a).1 = true ∧ s.Tracked a ∧ ¬ s.FreeAt a ∧
      Moves s (s.pmmRefPage a).2 [] [a]) := by
  cases hal : s.allocatedFrame a with
  | false => exact .inl (refPage_of_not hal)
  | true =>
    have hh := allocatedFrame_iff.mp hal
    have hres := step_reserved h (.refPage a)
    have hinv := step_inv h (.refPage a)
    simp only [step] at hres hinv
    rw [refPage_of_held hh] at hres hinv ⊢
    split
    · exact .inl rfl
    · rename_i hm
      rw [if_neg hm] at hres hinv
      refine .inr ⟨rfl, hh.tracked, fun hf => ?_, hinv, rfl, hres, fun b ht => ?_⟩
      · have := hf.2
        have := hh.pos
        omega
      · have hb : a = a / 4096 * 4096 := hh.addr
        rw [hb, count_singleton_addr ht.aligned, setRef_refcounts, Cells.set_apply]
        have hidx : a / 4096 * 4096 / 4096 = a / 4096 := by omega
        rw [hidx, List.count_nil]
        split
        · rename_i hx
          rw [hx]
        · rfl

/-- Giving back a list of references, no more than there are. -/
theorem freeAll_moves (h : s.Inv) {l : List Nat}
    (hl : ∀ a, s.Tracked a → l.count a ≤ s.refcounts (a / 4096)) :
    Moves s (l.foldl pmmFreePage s) l [] := by
  induction l generalizing s with
  | nil => exact .refl h
  | cons b l ih =>
    have h1 := freePage_moves h fun hb => by
      have := hl b hb.1
      rw [List.count_cons_self, hb.2] at this
      omega
    have h2 := ih h1.inv fun a ha => by
      have := h1.refs a (h1.tracked.mp ha)
      have := hl a (h1.tracked.mp ha)
      rw [List.count_cons] at this
      rw [List.count_nil, List.count_singleton] at *
      omega
    simpa using h1.trans h2

/-- Giving back a list of distinct frames in use. -/
theorem freePages_moves (h : s.Inv) {l : List Nat} (hd : l.Nodup) (hf : ∀ a ∈ l, ¬ s.FreeAt a) :
    Moves s (l.foldl pmmFreePage s) l [] :=
  freeAll_moves h fun a ha => by
    by_cases hm : a ∈ l
    · rw [List.count_eq_one_of_mem hd hm]
      exact ha.pos_of_not_freeAt (hf a hm)
    · rw [List.count_eq_zero_of_not_mem hm]
      exact Nat.zero_le _

/-! ## The free-page counter -/

/-- Taking distinct free frames lowers the counter by their number. -/
theorem Moves.freePages (hm : Moves s s' [] A) (h : s.Inv) (hd : A.Nodup)
    (hf : ∀ a ∈ A, s.FreeAt a) :
    s'.freePages + A.length = s.freePages := by
  have hd' : (A.map (· / 4096)).Nodup := by
    refine (List.nodup_map_iff_inj_on hd).mpr fun a ha b hb hab => ?_
    have := (hf a ha).1.aligned
    have := (hf b hb).1.aligned
    omega
  have hsub : (A.map (· / 4096)).toFinset ⊆ s.clearBits := fun i hi => by
    obtain ⟨a, ha, rfl⟩ := List.mem_map.mp (List.mem_toFinset.mp hi)
    exact mem_clearBits.mpr ((hf a ha).free h)
  have hclear : s'.clearBits = s.clearBits \ (A.map (· / 4096)).toFinset := by
    ext i
    rw [Finset.mem_sdiff, mem_clearBits, mem_clearBits, List.mem_toFinset]
    by_cases hi : i < s.totalPages
    · rw [hm.inv.free_iff (hm.total ▸ hi), h.free_iff hi]
      have hidx : i * 4096 / 4096 = i := by omega
      by_cases hr : s.Reserved i
      · have hr' : s'.refcounts i = uint32Max := (hm.reserved i).mpr hr
        have hr : s.refcounts i = uint32Max := hr
        rw [hr, hr']
        simp
      · have := hm.refs (i * 4096) ⟨by omega, by rwa [hidx], by rwa [hidx]⟩
        rw [hidx, List.count_nil] at this
        have hmem : i ∈ A.map (· / 4096) ↔ 0 < A.count (i * 4096) := by
          rw [List.count_pos_iff, List.mem_map]
          constructor
          · rintro ⟨a, ha, rfl⟩
            have := (hf a ha).1.aligned
            rwa [show a / 4096 * 4096 = a by omega]
          · exact fun ha => ⟨_, ha, hidx⟩
        rw [hmem]
        omega
    · refine ⟨fun hc => ?_, fun hc => absurd hc.1.1 hi⟩
      have := hc.1
      rw [hm.total] at this
      exact absurd this hi
  have hle := Finset.card_le_card hsub
  rw [hm.inv.counter, h.counter, hclear, Finset.card_sdiff_of_subset hsub]
  rw [List.toFinset_card_of_nodup hd', List.length_map] at hle ⊢
  omega

/-- The counter says whether a frame is free. -/
theorem freePages_pos_iff (h : s.Inv) : 0 < s.freePages ↔ ∃ a, s.FreeAt a := by
  rw [h.counter, Finset.card_pos]
  constructor
  · rintro ⟨i, hi⟩
    have hidx : i * 4096 / 4096 = i := by omega
    exact ⟨i * 4096, freeAt_of_free h (by omega) (by rw [hidx]; exact mem_clearBits.mp hi)⟩
  · rintro ⟨a, ha⟩
    exact ⟨a / 4096, mem_clearBits.mpr (ha.free h)⟩

end GenOS.Pmm
