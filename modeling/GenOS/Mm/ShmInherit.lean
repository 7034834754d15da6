import GenOS.Mm.World

/-!
# Inherited attachments

`shm_inherit_attachments` counts the parent's records once more. The check fails before a count can
overflow, and then no count has changed.
-/

namespace GenOS

open Phys

variable {p : Phys} {m m' : Shm} {o child : Owner} {us : List UserTask} {rest ps : List Nat}
variable {c : HeapClient} {pml4 i : Nat} {as : List ShmAttach} {added added' : Nat → UInt32}

/-- How many of the records are attachments of segment `i`. -/
def Shm.naming (m : Shm) (as : List ShmAttach) (i : Nat) : Nat :=
  as.countP fun a => decide (0 ≤ a.shmid) && m.findSegment a.shmid == some i

/-- The counts of the check loop do not overflow, with `left` records to go. -/
def Fits (m : Shm) (added : Nat → UInt32) (left : Nat) : Prop := ∀ i,
  (added i).toNat + left < 2 ^ 32 ∧ (m.segment i).refcount.toNat + (added i).toNat < 2 ^ 32

theorem toNat_succ {n : UInt32} (h : n.toNat + 1 < 2 ^ 32) : (n + 1).toNat = n.toNat + 1 := by
  rw [UInt32.toNat_add]
  exact Nat.mod_eq_of_lt h

/-- One more record of segment `i`. -/
theorem Fits.update {left : Nat} (h : Fits m added (left + 1))
    (hle : ¬ (m.segment i).refcount > 4294967295 - (added i + 1)) :
    Fits m (Cells.set added i (added i + 1)) left := fun j => by
  obtain ⟨h1, h2⟩ := h j
  by_cases hj : j = i
  · subst hj
    rw [Cells.set_self, toNat_succ (by omega)]
    refine ⟨by omega, ?_⟩
    have hsub : (4294967295 - (added j + 1)).toNat = 4294967295 - ((added j).toNat + 1) := by
      rw [UInt32.toNat_sub_of_le, toNat_succ (by omega)]
      · rfl
      · rw [UInt32.le_iff_toNat_le, toNat_succ (by omega)]
        show _ ≤ 4294967295
        omega
    rw [gt_iff_lt, UInt32.lt_iff_toNat_lt, hsub] at hle
    omega
  · rw [Cells.set_of_ne hj]
    exact ⟨by omega, h2⟩

/-- **What the check loop counts**: the attachments of each segment. -/
theorem inheritCheck_some : ∀ {as : List ShmAttach} {added : Nat → UInt32}, Fits m added as.length →
    inheritCheck p m pml4 as added = some added' →
    (∀ i, (added' i).toNat = (added i).toNat + m.naming as i) ∧ Fits m added' 0
  | [], added, h, he => by
    cases he
    exact ⟨fun _ => rfl, h⟩
  | a :: as, added, h, he => by
    have hnaming : ∀ i, m.naming (a :: as) i = m.naming as i +
        if 0 ≤ a.shmid ∧ m.findSegment a.shmid = some i then 1 else 0 := fun i => by
      unfold Shm.naming
      rw [List.countP_cons]
      simp only [Bool.and_eq_true, decide_eq_true_eq, beq_iff_eq]
    rw [List.length_cons] at h
    unfold inheritCheck at he
    split at he
    · next hneg =>
      obtain ⟨h1, h2⟩ := inheritCheck_some (fun i => ⟨by have := (h i).1; omega, (h i).2⟩) he
      refine ⟨fun i => ?_, h2⟩
      rw [h1, hnaming, if_neg fun hx => absurd hx.1 (Int.not_le.mpr hneg), Nat.add_zero]
    next hid =>
    split at he
    · cases he
    next j hj =>
    dsimp only at he
    split at he
    · cases he
    next hfit =>
    rw [not_or, Cells.set_self] at hfit
    split at he
    on_goal 2 => cases he
    obtain ⟨h1, h2⟩ := inheritCheck_some (h.update hfit.2) he
    refine ⟨fun i => ?_, h2⟩
    rw [h1, hnaming]
    by_cases hi : i = j
    · subst hi
      rw [Cells.set_self, toNat_succ (by have := (h i).1; omega), if_pos ⟨Int.not_lt.mp hid, hj⟩]
      omega
    · rw [Cells.set_of_ne hi,
        if_neg fun hx => hi (Option.some.inj (hx.2.symm.trans hj)), Nat.add_zero]

/-- A segment in use is named by the attachments with its id. -/
theorem Shm.Names.naming {id : Int} {s : ShmSegment} (hn : m.Names i id s) (hm : m.Ok)
    (as : List ShmAttach) :
    m.naming as i = as.countP fun a => a.shmid == id := by
  have hpos : 0 < id := hn.id ▸ (hm.used s hn.mem hn.used).pos
  refine List.countP_congr fun a _ => ?_
  rw [Bool.and_eq_true, decide_eq_true_eq, beq_iff_eq, beq_iff_eq]
  constructor
  · rintro ⟨-, hf⟩
    obtain ⟨s', hs'⟩ := findSegment_some hf
    rw [← hs'.id, ← hn.id, Option.some.inj (hs'.found.symm.trans hn.found)]
  · rintro rfl
    exact ⟨by omega, hn.find hm⟩

/-- An unused segment is named by none. -/
theorem Shm.naming_unused {s : ShmSegment} (hs : m.segments[i]? = some s) (hu : s.inUse = false)
    (as : List ShmAttach) : m.naming as i = 0 := by
  refine List.countP_eq_zero.mpr fun a _ hx => ?_
  rw [Bool.and_eq_true, beq_iff_eq] at hx
  obtain ⟨s', hs'⟩ := findSegment_some hx.2
  have := hs'.used
  rw [Option.some.inj (hs'.found.symm.trans hs), hu] at this
  cases this

/-- **`shm_inherit_attachments`** changes nothing, or gives the child the attachments of the parent
and counts each of them. -/
theorem shmInheritAttachments_spec (hm : m.Ok) (hlen : o.shmAttached.length = shmMaxAttach) :
    shmInheritAttachments p m o child = (false, m, child) ∨
    ∃ m',
      shmInheritAttachments p m o child = (true, m', { child with shmAttached := o.shmAttached }) ∧
      m.Recounted m' ∧ ∀ i id s', m'.Names i id s' → ∃ s, m.Names i id s ∧ s'.refcount.toNat =
        s.refcount.toNat + o.shmAttached.countP fun a => a.shmid == id := by
  unfold shmInheritAttachments
  cases he : inheritCheck p m child.pml4 o.shmAttached fun _ => 0 with
  | none => exact .inl rfl
  | some added =>
    have hstart : Fits m (fun _ => 0) o.shmAttached.length := fun i =>
      ⟨by rw [hlen]; exact (by decide : (0 : UInt32).toNat + 16 < 2 ^ 32),
        (m.segment i).refcount.toNat_lt⟩
    obtain ⟨hadd, hfit⟩ := inheritCheck_some hstart he
    have hget : ∀ i : Nat,
      (m.segments.mapIdx fun i s => { s with refcount := s.refcount + added i })[i]? =
        (m.segments[i]?).map fun s => { s with refcount := s.refcount + added i } := fun i =>
      List.getElem?_mapIdx
    have hcount : ∀ i s, m.segments[i]? = some s →
        (s.refcount + added i).toNat = s.refcount.toNat + m.naming o.shmAttached i :=
          fun i s hs => by
      have h2 := (hfit i).2
      have h1 : (added i).toNat = m.naming o.shmAttached i := (hadd i).trans (Nat.zero_add _)
      rw [Shm.segment_eq hs] at h2
      rw [UInt32.toNat_add, Nat.mod_eq_of_lt h2, h1]
    refine .inr ⟨_, rfl, ⟨?_, rfl, fun s hs hu => ?_⟩, fun i id s' hn => ?_⟩
    · refine List.ext_getElem? fun i => ?_
      rw [List.getElem?_map, List.getElem?_map, hget, Option.map_map]
      rfl
    · obtain ⟨i, hi⟩ := List.getElem?_of_mem hs
      rw [hget] at hi
      obtain ⟨x, hx, rfl⟩ := Option.map_eq_some_iff.mp hi
      have hu : x.inUse = false := hu
      have h0 := hcount i x hx
      rw [Shm.naming_unused hx hu, hm.unused x (List.mem_of_getElem? hx) hu] at h0
      rw [hm.unused x (List.mem_of_getElem? hx) hu]
      exact UInt32.toNat_inj.mp h0
    · have hi := hn.found
      rw [hget] at hi
      obtain ⟨x, hx, rfl⟩ := Option.map_eq_some_iff.mp hi
      have hnx : m.Names i id x := ⟨hx, hn.used, hn.id⟩
      exact ⟨x, hnx, (hcount i x hx).trans (by rw [hnx.naming hm])⟩

end GenOS
