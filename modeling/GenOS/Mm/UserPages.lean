import GenOS.Mm.Memory
import GenOS.Mm.UserHeap

/-!
# The loops of the user heap

What the loops over frames and records do: `takePages` takes zeroed frames for consecutive pages,
`freeRecords` gives frames back, and `removePages` frees exactly the records of a range, whatever
their order.
-/

namespace GenOS.Phys

open Pmm

variable {s s' : Phys} {base stop i n : Nat} {records new : List PageRecord}

/-! ## Taking pages -/

/-- Zeroed frames for the pages from `base + i * 4096` on. -/
structure PagesTaken (s s' : Phys) (base i : Nat) (new : List PageRecord) : Prop where
  taken : Taken s s' (new.map PageRecord.phys)
  vaddr : ∀ j p, new[j]? = some p → p.vaddr = base + (i + j) * 4096
  zero : ∀ p ∈ new, s'.mem p.phys = fun _ => 0#64

theorem PagesTaken.nil (h : s.pmm.Inv) : PagesTaken s s base i [] :=
  ⟨.refl h, fun _ _ h => by simp at h, nofun⟩

/-- A zeroed frame. -/
theorem taken_zero {f : Nat} {p : Pmm} (hf : s.pmm.FreeAt f) (hm : Moves s.pmm p [] [f])
    (m : Nat) : Taken s (zeroFrame { s with pmm := p, asked := m } f) [f] :=
  ⟨hm, fun g hg => by rw [List.mem_singleton.mp hg]; exact hf, List.nodup_singleton f,
    fun g hg => Cells.set_of_ne (fun he => hg (List.mem_singleton.mpr he)) _ _, rfl⟩

theorem takePages_spec (base : Nat) : ∀ (n i : Nat) (s : Phys) (records : List PageRecord),
    s.pmm.Inv → ∃ ok new s', takePages base n i s records = (ok, s', records ++ new) ∧
      PagesTaken s s' base i new ∧ (ok = true → new.length = n)
  | 0, i, s, records, h => ⟨true, [], s, by rw [List.append_nil]; rfl, .nil h, fun _ => rfl⟩
  | n + 1, i, s, records, h => by
    rw [takePages]
    rcases allocFrame_cases h with ha | ⟨f, p, ha, h0, hf, hm⟩
    · rw [ha]
      dsimp only
      rw [if_pos rfl]
      exact ⟨false, [], { s with asked := s.asked + 1 }, by rw [List.append_nil],
        ⟨⟨.refl h, nofun, .nil, fun _ _ => rfl, rfl⟩, fun _ _ h => by simp at h, nofun⟩, nofun⟩
    rw [ha]
    dsimp only
    rw [if_neg h0]
    have ht := taken_zero hf hm (s.asked + 1)
    obtain ⟨ok, new, s', he, hn, hlen⟩ := takePages_spec base n (i + 1) _
      (records ++ [⟨f, base + i * 4096⟩]) ht.moves.inv
    refine ⟨ok, ⟨f, base + i * 4096⟩ :: new, s', ?_, ⟨?_, fun j q hq => ?_, fun q hq => ?_⟩,
      fun hok => ?_⟩
    · rw [he, List.append_assoc]
      rfl
    · exact ht.trans hn.taken
    · cases j with
      | zero =>
        cases hq
        rfl
      | succ j =>
        rw [hn.vaddr j q hq]
        omega
    · rcases List.mem_cons.mp hq with rfl | hq
      · -- the frame was in use already when the others were taken
        rw [hn.taken.mem_used (ht.used (List.mem_singleton_self f))]
        exact Cells.set_self ..
      · exact hn.zero q hq
    · rw [List.length_cons, hlen hok]

/-! ## Giving pages back -/

theorem freeRecords_eq (s : Phys) (records : List PageRecord) :
    s.freeRecords records = (records.reverse.map PageRecord.phys).foldl freeFrame s := by
  unfold freeRecords
  rw [List.foldl_map]

/-- The references of a list of frames go back. -/
theorem freeFrames_moves {l : List Nat} (h : s.pmm.Inv)
    (hl : ∀ a, s.pmm.Tracked a → l.count a ≤ s.pmm.refcounts (a / 4096)) :
    Moves s.pmm (l.foldl freeFrame s).pmm l [] := by
  rw [foldl_freeFrame_pmm]
  exact freeAll_moves h hl

@[simp] theorem freeRecords_mem : (s.freeRecords records).mem = s.mem := by
  rw [freeRecords_eq, foldl_freeFrame_mem]

@[simp] theorem freeRecords_kernel : (s.freeRecords records).kernelPml4 = s.kernelPml4 := by
  rw [freeRecords_eq, foldl_freeFrame_kernel]

theorem freeRecords_moves (h : s.pmm.Inv) (hl : ∀ a, s.pmm.Tracked a →
    (records.map PageRecord.phys).count a ≤ s.pmm.refcounts (a / 4096)) :
    Moves s.pmm (s.freeRecords records).pmm (records.map PageRecord.phys) [] := by
  have hperm : (records.reverse.map PageRecord.phys).Perm (records.map PageRecord.phys) :=
    (List.reverse_perm _).map _
  rw [freeRecords_eq]
  exact (freeFrames_moves h fun a ha => hperm.count_eq a ▸ hl a ha).perm hperm (.refl _)

/-! ## Swap removal -/

theorem swapRemove_perm (h : i < records.length) :
    (records[i] :: swapRemove records i h).Perm records := by
  obtain ⟨l, x, rfl⟩ : ∃ l x, records = l ++ [x] := by
    rcases List.eq_nil_or_concat records with rfl | ⟨l, x, rfl⟩
    · exact absurd h (Nat.not_lt_zero _)
    · exact ⟨l, x, List.concat_eq_append⟩
  unfold swapRemove
  rw [List.getLast_append_singleton]
  by_cases hi : i < l.length
  · rw [List.getElem_append_left hi, List.set_append_left _ _ hi, List.dropLast_concat,
      List.set_eq_take_append_cons_drop, if_pos hi]
    have hl : (l[i] :: (l.take i ++ l.drop (i + 1))).Perm l := by
      refine List.perm_middle.symm.trans ?_
      rw [List.getElem_cons_drop, List.take_append_drop]
    refine (List.Perm.cons _ List.perm_middle).trans ((List.Perm.swap ..).trans ?_)
    exact (List.Perm.cons x hl).trans (List.perm_append_singleton x l).symm
  · have hi : i = l.length := by
      rw [List.length_append, List.length_singleton] at h
      omega
    subst hi
    rw [List.getElem_concat_length rfl, List.set_append_right _ _ (Nat.le_refl _), Nat.sub_self,
      List.set_cons_zero, List.dropLast_concat]
    exact (List.perm_append_singleton x l).symm

/-- The records before the removed one stay in place. -/
theorem swapRemove_before (h : i < records.length) {j : Nat} (hj : j < i) :
    (swapRemove records i h)[j]? = records[j]? := by
  unfold swapRemove
  rw [List.getElem?_dropLast, List.length_set, if_pos (by omega), List.getElem?_set_ne (by omega)]

/-- The record is of a page outside the range. -/
def Outside (base stop : Nat) (p : PageRecord) : Prop := p.vaddr < base ∨ stop ≤ p.vaddr

/-- **The loop of `user_free`** removes the records of the range, each once. -/
theorem removePages_spec (base stop i : Nat) (s : Phys) (records : List PageRecord)
    (hb : ∀ j < i, ∀ p, records[j]? = some p → Outside base stop p) :
    ∃ gone kept, removePages base stop i s records =
        ((gone.map PageRecord.phys).foldl freeFrame s, kept) ∧
      (gone ++ kept).Perm records ∧ (∀ p ∈ gone, ¬ Outside base stop p) ∧
      ∀ p ∈ kept, Outside base stop p := by
  fun_induction removePages base stop i s records with
  | case1 i s records h hout ih =>
    refine ih fun j hj p hp => ?_
    by_cases hji : j = i
    · rw [hji, List.getElem?_eq_getElem h] at hp
      cases hp
      exact hout
    · exact hb j (by omega) p hp
  | case2 i s records h hout ih =>
    obtain ⟨gone, kept, he, hp, h1, h2⟩ := ih fun j hj p hp =>
      hb j hj p (by rwa [swapRemove_before h hj] at hp)
    refine ⟨records[i] :: gone, kept, he, ?_, fun p hp => ?_, h2⟩
    · exact (hp.cons _).trans (swapRemove_perm h)
    · rcases List.mem_cons.mp hp with rfl | hp
      · exact hout
      · exact h1 p hp
  | case3 i s records h =>
    refine ⟨[], records, rfl, .refl _, nofun, fun p hp => ?_⟩
    obtain ⟨j, hj, rfl⟩ := List.getElem_of_mem hp
    exact hb j (by omega) _ (List.getElem?_eq_getElem hj)

end GenOS.Phys
