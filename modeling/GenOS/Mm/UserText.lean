import GenOS.Mm.CloneSpace
import GenOS.Mm.ShmSafety
import GenOS.Mm.UserRealloc

/-!
# The pages a process runs

`Text s o va p flags`: the user of `o` may run the page at `va`, and no allocation or attachment of
`o` covers it, so it is a page of the image. Whatever is done to an address space keeps its text
(`KeepsText`): the frame, the flags and the bytes. Under `WxOk` text may not be written, and it is
not shared copy-on-write.
-/

namespace GenOS

open Phys Pmm

/-- A page that may be run, outside the records of its owner. -/
structure Text (s : Phys) (o : Owner) (va : Nat) (p flags : Word) : Prop where
  user : va < 0x800000000000
  leaf : s.translate o.pml4 va = some (p, flags)
  runs : flags.has pteNx = false
  outside : ∀ r ∈ recordsOf o, ¬ InRange r.1 r.2.toNat va

/-- The text of `o` is text of `o'`, with the same bytes. -/
def KeepsText (s s' : Phys) (o o' : Owner) : Prop := ∀ va p flags, Text s o va p flags →
  Text s' o' va p flags ∧ s'.mem p.toNat = s.mem p.toNat

variable {s s' s'' : Phys} {m m' : Shm} {o o' o'' : Owner} {t t' : UserTask} {va base size : Nat}
variable {p flags : Word} {new gone : List PageRecord} {a : UserAllocation}

namespace Text

/-- **Text is neither writable nor shared copy-on-write.** -/
theorem readOnly (h : Text s o va p flags) (hw : WxOk s o.pml4) :
    flags.has pteWrite = false ∧ flags.has pteCow = false := by
  have hnx : ¬ (flags.has pteWrite = true ∨ flags.has pteCow = true) := fun hwc => by
    have := hw va h.user p flags h.leaf hwc
    rw [h.runs] at this
    cases this
  exact ⟨Bool.eq_false_iff.mpr fun hx => hnx (.inl hx), Bool.eq_false_iff.mpr fun hx => hnx (.inr hx)⟩

/-- A free range has no text. -/
theorem not_free {span b : Nat} (h : Text s o va p flags) (hf : FreeRange s o span b) :
    ¬ (b ≤ va ∧ va < b + span) := fun ⟨hlo, hhi⟩ => by
  have := hf.unmapped va hlo hhi
  rw [h.leaf] at this
  cases this

/-- A record over a free range covers no text. -/
theorem outside_fresh (h : Text s o va p flags) (hr : FreshRecords s o o') :
    ∀ r ∈ recordsOf o', ¬ InRange r.1 r.2.toNat va := fun r hr' hin => by
  rcases hr r hr' with hold | hfree
  · exact h.outside r hold hin
  · exact h.not_free hfree ⟨hin.1, Nat.lt_of_lt_of_le hin.2 (by omega)⟩

end Text

namespace KeepsText

theorem refl : KeepsText s s o o := fun _ _ _ h => ⟨h, rfl⟩

theorem trans (h : KeepsText s s' o o') (h' : KeepsText s' s'' o' o'') : KeepsText s s'' o o'' :=
  fun va p flags ht => by
    obtain ⟨ht', hm⟩ := h va p flags ht
    obtain ⟨ht'', hm'⟩ := h' va p flags ht'
    exact ⟨ht'', hm'.trans hm⟩

/-- The leaves of the text are as before, and no record came over one of them. -/
theorem of_leaves (hr : FreshRecords s o o')
    (hm : ∀ va p flags, Text s o va p flags → s'.translate o'.pml4 va = some (p, flags) ∧
      s'.mem p.toNat = s.mem p.toNat) : KeepsText s s' o o' := fun va p flags h =>
  ⟨⟨h.user, (hm va p flags h).1, h.runs, h.outside_fresh hr⟩, (hm va p flags h).2⟩

/-- The same records. -/
theorem of_records (hr : recordsOf o' = recordsOf o)
    (hm : ∀ va p flags, Text s o va p flags → s'.translate o'.pml4 va = some (p, flags) ∧
      s'.mem p.toNat = s.mem p.toNat) : KeepsText s s' o o' :=
  .of_leaves (fun _ h => .inl (hr ▸ h)) hm

theorem unaffected (h : Unaffected s s' o) : KeepsText s s' o o := .of_records rfl fun va p _ ht =>
  ⟨(h.map va ht.user).trans ht.leaf, h.contents va ht.user p _ ht.leaf⟩

end KeepsText

/-! ## The user heap -/

theorem Reserved.keepsText (h : Reserved t t') (hu : Unaffected s s' t.toOwner) :
    KeepsText s s' t.toOwner t'.toOwner := by
  obtain ⟨block, capacity, rfl⟩ := h.owner
  exact (KeepsText.unaffected hu).trans (.of_records rfl fun va p flags ht => ⟨ht.leaf, rfl⟩)

/-- The pages of a new allocation were not mapped. -/
theorem Allocated.keepsText (h : Allocated s s' t t' size base new) (hl : Layout s' t') :
    KeepsText s s' t.toOwner t'.toOwner := by
  have hspan : (UInt32.ofNat new.length).toNat = new.length :=
    (hl.sized ⟨base, size, .ofNat new.length⟩
      (by rw [h.allocations]; exact List.mem_cons_self)).2.trans h.count.symm
  refine .of_leaves (fun _ hr => ?_) fun va p flags ht =>
    ⟨?_, h.contents va ht.user p flags ht.leaf⟩
  · rcases mem_recordsOf.mp hr with ⟨b, hb, rfl⟩ | ⟨b, hb, hid, rfl⟩
    · rw [h.allocations] at hb
      rcases List.mem_cons.mp hb with rfl | hb
      · refine .inr ?_
        simp only [hspan]
        exact h.room.2.2.2
      · exact .inl (mem_recordsOf.mpr (.inl ⟨b, hb, rfl⟩))
    · rw [h.attached] at hb
      exact .inl (mem_recordsOf.mpr (.inr ⟨b, hb, hid, rfl⟩))
  · rw [h.root, h.map va ht.user]
    refine (if_neg fun hin => ht.not_free h.room.2.2.2 ⟨hin.1, ?_⟩).trans ht.leaf
    rw [List.length_map] at hin
    exact Nat.lt_of_lt_of_le hin.2 (by omega)

/-- The pages of an allocation are not text. -/
theorem Freed.keepsText {k : Nat} (h : Freed s s' t t' k a gone) :
    KeepsText s s' t.toOwner t'.toOwner := by
  refine .of_leaves (fun r hr => .inl ?_) fun va p flags ht =>
    ⟨?_, h.contents va ht.user p flags ht.leaf⟩
  · rcases mem_recordsOf.mp hr with ⟨b, hb, rfl⟩ | ⟨b, hb, hid, rfl⟩
    · rw [h.allocations] at hb
      exact mem_recordsOf.mpr (.inl ⟨b, List.mem_of_mem_eraseIdx hb, rfl⟩)
    · rw [h.attached] at hb
      exact mem_recordsOf.mpr (.inr ⟨b, hb, hid, rfl⟩)
  · rw [h.root, h.map va ht.user]
    exact (if_neg (ht.outside _ (mem_recordsOf_allocation (List.mem_of_getElem? h.found)))).trans
      ht.leaf

theorem Moved.keepsText (h : Moved s s' t t' a size base) (hl : Layout s' t') :
    KeepsText s s' t.toOwner t'.toOwner := by
  obtain ⟨k, pages, hfound, hallocs⟩ := h.allocations
  have hnew : ⟨base, size, pages⟩ ∈ t'.allocations := by
    rw [hallocs]
    exact List.mem_cons_self
  have hspan : pages.toNat = (size + 4095) / 4096 := (hl.sized _ hnew).2
  refine .of_leaves h.records fun va p flags ht => ⟨?_, h.contents va ht.user p flags ht.leaf⟩
  rw [h.root, h.elsewhere va ht.user]
  · exact ht.leaf
  · rw [← hspan]
    exact ht.outside_fresh h.records _ (mem_recordsOf_allocation hnew)
  · exact ht.outside _ (mem_recordsOf_allocation (List.mem_of_getElem? hfound))

/-! ## Shared memory -/

theorem mem_recordsOf_attachment {x : ShmAttach} (h : x ∈ o.shmAttached) (hid : 0 ≤ x.shmid) :
    (x.vaddr, x.pageCount) ∈ recordsOf o := mem_recordsOf.mpr (.inr ⟨x, h, hid, rfl⟩)

/-- A segment is mapped where nothing was. -/
theorem AttachStep.keepsText {id : Int} (h : AttachStep s s' m m' t t' id base) (hm : m.Ok) :
    KeepsText s s' t.toOwner t'.toOwner := by
  obtain ⟨l, rfl⟩ := h.state
  obtain ⟨i, seg, hn, -, ⟨slot, hs⟩, hmap⟩ := h.segment
  have hok := hm.used seg hn.mem hn.used
  have hid : 0 ≤ id := hn.id ▸ Int.le_of_lt hok.pos
  refine .of_leaves h.records fun va p flags ht => ⟨?_, h.contents va ht.user p flags ht.leaf⟩
  have hout := ht.outside_fresh h.records _ (mem_recordsOf_attachment hs.new_mem hid)
  rw [hok.count.2.2] at hout
  show s'.translate t.pml4 va = _
  rw [hmap va ht.user]
  refine (if_neg fun hin => hout ?_).trans ht.leaf
  rwa [List.length_map] at hin

/-- The pages of an attachment are not text. -/
theorem DetachStep.keepsText {x : ShmAttach} {slot : Nat} (h : DetachStep s s' m m' t x)
    (hs : t.shmAttached[slot]? = some x) (hid : 0 ≤ x.shmid) :
    KeepsText s s' t.toOwner (t.unslot slot).toOwner := by
  have hre : Reslot t.toOwner (t.unslot slot).toOwner slot x .unused := ⟨hs, rfl, rfl, rfl, rfl⟩
  refine .of_leaves (fun r hr => .inl ?_) fun va p flags ht => ?_
  · rcases mem_recordsOf.mp hr with ⟨b, hb, rfl⟩ | ⟨b, hb, hbid, rfl⟩
    · exact mem_recordsOf.mpr (.inl ⟨b, hb, rfl⟩)
    · rcases hre.mem hb with rfl | hb
      · exact absurd hbid (by decide)
      · exact mem_recordsOf_attachment hb hbid
  · have hleaf : s'.translate t.pml4 va = some (p, flags) := by
      rw [h.map va ht.user]
      exact (if_neg (ht.outside _ (mem_recordsOf_attachment (List.mem_of_getElem? hs) hid))).trans
        ht.leaf
    exact ⟨hleaf, h.contents va ht.user p flags hleaf⟩

/-! ## Write faults and clones -/

/-- A fault is not handled on text. -/
theorem Phys.CowHandled.keepsText {p' flags' : Word} (h : CowHandled s s' o o' va p flags p' flags')
    (hw : WxOk s o.pml4) : KeepsText s s' o o' := by
  have hrec : recordsOf o' = recordsOf o := by
    rcases h.record with rfl | ⟨i, -, rfl⟩
    · rfl
    · rfl
  refine .of_records hrec fun b q fl ht => ?_
  have hne : b / 4096 ≠ va / 4096 := fun he => by
    have hb := ht.leaf
    rw [translate_page he, h.before] at hb
    cases hb
    obtain ⟨hwr, hc⟩ := ht.readOnly hw
    rcases h.cause with hx | hx
    · rw [hwr] at hx
      cases hx
    · rw [hc] at hx
      cases hx
  obtain ⟨hm, hc⟩ := h.elsewhere b ht.user hne
  rw [h.root]
  exact ⟨hm.trans ht.leaf, hc q fl ht.leaf⟩

theorem Phys.Idle.keepsText (h : Idle s s' o o') : KeepsText s s' o o' := by
  obtain rfl := h.owner
  obtain ⟨n, rfl⟩ := h.state
  exact .unaffected ⟨fun _ _ => rfl, fun _ _ _ _ _ => rfl⟩

/-- Flags that are neither writable nor shared stay when they are shared. -/
theorem cowShare_readOnly (hw : flags.has pteWrite = false) (hc : flags.has pteCow = false) :
    cowShare flags = flags := by
  rw [Word.has_write] at hw
  rw [Word.has_cow] at hc
  refine BitVec.eq_of_getLsbD_eq fun k hk => ?_
  rw [getLsbD_cowShare flags hk, hw, hc, Bool.or_false]
  split
  · next h1 => rw [h1, hw]
  split
  · next h9 => rw [h9, hc]
  · rfl

theorem Text.view (h : Text s o va p flags) (hw : WxOk s o.pml4) :
    cloneView o va p flags = (p, flags) := by
  obtain ⟨hwr, hc⟩ := h.readOnly hw
  unfold cloneView
  rw [cowShare_readOnly hwr hc, ite_self]

/-- **The text of a process that forks** is its own and the child's. -/
theorem Cloned.keepsText (h : Cloned s s' m m' t t') (hw : WxOk s t.pml4) :
    KeepsText s s' t.toOwner t.toOwner ∧ KeepsText s s' t.toOwner t'.toOwner := by
  have hview : ∀ {va p flags}, Text s t.toOwner va p flags →
      (s.translate t.pml4 va).map (fun q => cloneView t.toOwner va q.1 q.2) =
        some (p, flags) := fun ht => by
    rw [show s.translate t.pml4 _ = _ from ht.leaf]
    exact congrArg some (ht.view hw)
  have hrec : recordsOf t'.toOwner = recordsOf t.toOwner := by
    unfold recordsOf
    rw [h.inherits.allocations, h.inherits.attached]
  exact ⟨.of_records rfl fun va p flags ht =>
      ⟨(h.parent va ht.user).trans (hview ht), h.contents va ht.user p flags ht.leaf⟩,
    .of_records hrec fun va p flags ht =>
      ⟨(h.child va ht.user).trans (hview ht), h.contents va ht.user p flags ht.leaf⟩⟩

/-! ## The calls -/

section Calls

variable {c c' : HeapClient} {us₁ us₂ : List UserTask} {rest ps : List Nat}

theorem userAlloc_keepsText {r : Nat} (h : World c m (us₁ ++ t :: us₂) rest ps) (ho : t.owns = true)
    (he : userAlloc c t size = some (r, c', t')) :
    SameSpace t t' ∧ KeepsText c.phys c'.phys t.toOwner t'.toOwner := by
  obtain ⟨r, c', t', he', hk, hw, hout, -⟩ := userAlloc_world h ho size
  cases he.symm.trans he'
  refine ⟨hk, ?_⟩
  cases hout with
  | failed hst hr =>
    exact hr.keepsText (hst.unaffected _ (List.mem_append_right _ List.mem_cons_self))
  | done _ hA =>
    exact hA.keepsText
      (hw.owner t' (List.mem_append_right _ List.mem_cons_self) (hk.owns.trans ho)).layout

theorem userFree_keepsText {r : Int} (h : World c m (us₁ ++ t :: us₂) rest ps) (ho : t.owns = true)
    (he : userFree c t base = some (r, c', t')) :
    SameSpace t t' ∧ KeepsText c.phys c'.phys t.toOwner t'.toOwner := by
  by_cases hb : base = 0
  · unfold userFree at he
    rw [if_pos hb] at he
    cases he
    exact ⟨⟨rfl, rfl⟩, .refl⟩
  rcases userFree_world h ho hb with ⟨he', -⟩ | ⟨k, a, gone, c', t', he', -, hk, -, hF, -⟩
  · cases he.symm.trans he'
    exact ⟨⟨rfl, rfl⟩, .refl⟩
  · cases he.symm.trans he'
    exact ⟨hk, hF.keepsText⟩

theorem userRealloc_keepsText {r : Nat} (h : World c m (us₁ ++ t :: us₂) rest ps)
    (ho : t.owns = true) (he : userRealloc c t base size = some (r, c', t')) :
    SameSpace t t' ∧ KeepsText c.phys c'.phys t.toOwner t'.toOwner := by
  by_cases hb : base = 0
  · unfold userRealloc at he
    rw [if_pos hb] at he
    exact userAlloc_keepsText h ho he
  by_cases hs : size = 0
  · unfold userRealloc at he
    rw [if_neg hb, if_neg (owns_iff.mp ho).2] at he
    cases hfind : t.allocations.find? (·.base == base) with
    | none =>
      rw [hfind] at he
      cases he
      exact ⟨⟨rfl, rfl⟩, .refl⟩
    | some a =>
      rw [hfind] at he
      dsimp only at he
      rw [if_pos hs] at he
      obtain ⟨⟨r, c₁, t₁⟩, hf, he⟩ := Option.bind_eq_some_iff.mp he
      cases he
      exact userFree_keepsText h ho hf
  obtain ⟨r, c', t', he', hk, hw, hout, -⟩ := userRealloc_world h ho hb hs
  cases he.symm.trans he'
  refine ⟨hk, ?_⟩
  cases hout with
  | failed hst hr =>
    exact hr.keepsText (hst.unaffected _ (List.mem_append_right _ List.mem_cons_self))
  | same _ _ _ hc ht =>
    rw [hc, ht]
    exact .refl
  | moved _ _ _ hM =>
    exact hM.keepsText
      (hw.owner t' (List.mem_append_right _ List.mem_cons_self) (hk.owns.trans ho)).layout

theorem shmAttach_keepsText {id : Int} {pml4 r : Nat} (h : World c m (us₁ ++ t :: us₂) rest ps)
    (ho : t.owns = true) (he : shmAttach c m t id pml4 = (r, c', m', t')) :
    SameSpace t t' ∧ KeepsText c.phys c'.phys t.toOwner t'.toOwner := by
  rcases shmAttach_spec h (owns_iff.mp ho).1 id pml4 with ⟨c', he', -, hst⟩ |
    ⟨base, c', m', t', he', -, -, -, hstep, -⟩
  · cases he.symm.trans he'
    exact ⟨⟨rfl, rfl⟩,
      .unaffected (hst.unaffected _ (mem_owners (List.mem_append_right _ List.mem_cons_self) ho))⟩
  · cases he.symm.trans he'
    have hkeeps := hstep.keepsText h.shm
    obtain ⟨l, rfl⟩ := hstep.state
    exact ⟨⟨rfl, rfl⟩, hkeeps⟩

theorem shmDetach_keepsText {pml4 : Nat} {r : Int} (h : World c m (us₁ ++ t :: us₂) rest ps)
    (ho : t.owns = true) (he : shmDetach c m t base pml4 = some (r, c', m', t')) :
    SameSpace t t' ∧ KeepsText c.phys c'.phys t.toOwner t'.toOwner := by
  rcases shmDetach_spec h (owns_iff.mp ho).1 base pml4 with he' |
    ⟨slot, a, c', m', hs, hid, -, -, he', -, hstep, -⟩
  · cases he.symm.trans he'
    exact ⟨⟨rfl, rfl⟩, .refl⟩
  · cases he.symm.trans he'
    exact ⟨⟨rfl, rfl⟩, hstep.keepsText hs hid⟩

theorem cowResolve_keepsText {s' : Phys} {o' : Owner} {faultAddr : Nat} {errorCode : Word}
    {handled : Bool} (h : World c m (us₁ ++ t :: us₂) rest ps) (ho : t.owns = true)
    (he : c.phys.cowResolve (some t.toOwner) faultAddr errorCode = (handled, s', some o')) :
    o'.pml4 = t.pml4 ∧ KeepsText c.phys s' t.toOwner o' := by
  have hwx := (h.owner t (List.mem_append_right _ List.mem_cons_self) ho).wx
  obtain ⟨handled, s', o', he', hk, -, hspec⟩ := cowResolve_world h ho faultAddr errorCode
  cases he.symm.trans he'
  refine ⟨hk.root, ?_⟩
  cases handled with
  | true =>
    obtain ⟨-, -, p, flags, p', flags', hH⟩ := hspec.resolved rfl
    exact hH.keepsText hwx
  | false => exact (hspec.idle rfl).keepsText

end Calls

end GenOS
