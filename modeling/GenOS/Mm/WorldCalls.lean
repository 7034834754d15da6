import GenOS.Mm.CowExact
import GenOS.Mm.ShmSafety
import GenOS.Mm.UserRealloc

/-!
# The user heap and copy-on-write keep the world

`user_alloc`, `user_free`, `user_realloc` and `cow_resolve` of one owner keep `World`, and so does a
store of the user to a page that may be written.
-/

namespace GenOS

open Phys Pmm

variable {c c' : HeapClient} {s s' : Phys} {m : Shm} {t t' : UserTask} {us us₁ us₂ : List UserTask}
variable {os₁ os₂ : List Owner} {shared rest ps : List Nat} {new gone : List PageRecord}
variable {a : UserAllocation} {k base size : Nat}

/-! ## The parts that depend on the map only -/

theorem OwnerSound.of_map (h : OwnerSound s m t)
    (hm : ∀ va < 0x800000000000, s'.translate t.pml4 va = s.translate t.pml4 va) :
      OwnerSound s' m t :=
  ⟨h.layout.of_map hm, h.attached.congr hm fun _ _ _ => rfl, h.wx.congr hm⟩

/-- The attachments of an owner whose other pages changed. -/
theorem Attached.elsewhere {o o' : Owner} (h : Attached s m o) (ha : o'.shmAttached = o.shmAttached)
    (hr : o'.pml4 = o.pml4) (hm : ∀ va < 0x800000000000, InAttachment o va →
      s'.translate o.pml4 va = s.translate o.pml4 va)
    (hp : ∀ p ∈ o'.userPages, ¬ InAttachment o p.vaddr) : Attached s' m o' := by
  have hin : ∀ va, InAttachment o' va ↔ InAttachment o va := fun va => by
    unfold InAttachment
    rw [ha]
  refine ⟨ha ▸ h.slots, fun b hb hid => ?_, fun b hb => h.unused b (ha ▸ hb), fun p hpm hi =>
    hp p hpm ((hin _).mp hi)⟩
  rw [ha] at hb
  obtain ⟨pages, h1, h2, h0, h3, h4⟩ := h.pages b hb hid
  refine ⟨pages, h1, h2, h0, h3, fun i f hi => ?_⟩
  have hlt := (List.getElem?_eq_some_iff.mp hi).1
  rw [hr, hm _ (by omega) ⟨b, hb, hid, by omega, by omega⟩]
  exact h4 i f hi

/-- The owner after the arrays of its records moved. -/
theorem OwnerSound.reserved (h : OwnerSound s m t) (hl : Layout s' t')
    (hm : ∀ va < 0x800000000000, s'.translate t.pml4 va = s.translate t.pml4 va)
    (hr : Reserved t t') :
    OwnerSound s' m t' := by
  obtain ⟨block, capacity, rfl⟩ := hr.owner
  exact ⟨hl,
    h.attached.elsewhere rfl rfl (fun va hva _ => hm va hva) h.attached.apart, h.wx.congr hm⟩

/-! ## Allocations and attachments -/

/-- A page of an allocation is in no attachment. -/
theorem Layout.allocation_apart (h : Layout s t) (ha : a ∈ t.allocations) {va : Nat}
    (hva : InRange a.base a.pages.toNat va) : ¬ InAttachment t.toOwner va :=
      fun ⟨b, hb, hid, hr⟩ => by
  have hcl : Clear (a.base, a.pages) (b.vaddr, b.pageCount) := by
    refine (List.pairwise_append.mp h.clear).2.2 _ (List.mem_map_of_mem ha) _ ?_
    exact List.mem_map.mpr ⟨b, List.mem_filter.mpr ⟨hb, decide_eq_true hid⟩, rfl⟩
  unfold Clear Apart guardEnd at hcl
  obtain ⟨h1, h2⟩ := hva
  simp only at hcl
  omega

/-- A page of a free range is in no attachment. -/
theorem Phys.Candidate.apart {o : Owner} {start stop n b : Nat}
    (h : Candidate s o start stop ((n + 1) * 4096) b)
    {va : Nat} (hva : InRange b n va) : ¬ InAttachment o va := fun ⟨x, hx, hid, hr⟩ => by
  have hap := h.2.2.2.attachments x hx hid
  unfold Apart guardEnd at hap
  obtain ⟨h1, h2⟩ := hva
  omega

theorem Allocated.sound (h : Allocated s s' t t' size base new) (ho : OwnerSound s m t)
    (hl : Layout s' t') : OwnerSound s' m t' := by
  refine ⟨hl, ho.attached.elsewhere h.attached h.root (fun va hva hi => ?_) fun p hp => ?_,
    fun va hva p flags hq hw => ?_⟩
  · rw [h.map va hva]
    refine if_neg fun hr => h.room.apart ?_ hi
    rwa [List.length_map] at hr
  · rw [h.records] at hp
    rcases List.mem_append.mp hp with hp | hp
    · exact ho.attached.apart p hp
    · obtain ⟨i, hi⟩ := List.getElem?_of_mem hp
      have hlt := (List.getElem?_eq_some_iff.mp hi).1
      rw [h.vaddr i p hi]
      exact h.room.apart ⟨by omega, by omega⟩
  · rw [h.root, h.map va hva] at hq
    unfold AddrMap.insert at hq
    split at hq
    · obtain ⟨q, -, he⟩ := Option.map_eq_some_iff.mp hq
      cases he
      decide
    · exact ho.wx va hva p flags hq hw

theorem Freed.sound (h : Freed s s' t t' k a gone) (ho : OwnerSound s m t) (hl : Layout s' t') :
    OwnerSound s' m t' := by
  have ha := List.mem_of_getElem? h.found
  refine ⟨hl, ho.attached.elsewhere h.attached h.root (fun va hva hi => ?_) fun p hp => ?_,
    fun va hva p flags hq hw => ?_⟩
  · rw [h.map va hva]
    exact if_neg fun hr => ho.layout.allocation_apart ha hr hi
  · exact ho.attached.apart p ((h.kept p).mp hp).1
  · rw [h.root, h.map va hva] at hq
    unfold AddrMap.erase at hq
    split at hq
    · cases hq
    · exact ho.wx va hva p flags hq hw

/-! ## The calls -/

/-- `t'` is what a call left of the owner `t`. -/
structure SameSpace (t t' : UserTask) : Prop where
  thread : t'.isThread = t.isThread
  root : t'.pml4 = t.pml4

theorem SameSpace.owns (h : SameSpace t t') : t'.owns = t.owns := by
  unfold UserTask.owns
  rw [h.thread, h.root]

theorem Reserved.sameSpace (h : Reserved t t') : SameSpace t t' := by
  obtain ⟨_, _, rfl⟩ := h.owner
  exact ⟨rfl, rfl⟩

theorem Steady.unaffected_middle (h : Steady c c' (os₁ ++ t.toOwner :: os₂)) :
    ∀ u ∈ os₁ ++ os₂, Unaffected c.phys c'.phys u := fun u hu => h.unaffected u (mem_middle hu)

/-- What `user_alloc` does for the owner `t` among the others. -/
inductive AllocOutcome (c c' : HeapClient) (os₁ os₂ : List Owner) (t t' : UserTask) (size : Nat) :
    Nat → Prop
  | failed (steady : Steady c c' (os₁ ++ t.toOwner :: os₂)) (reserved : Reserved t t') :
    AllocOutcome c c' os₁ os₂ t t' size 0
  | done {base : Nat} {new : List PageRecord} (ne : base ≠ 0)
    (allocated : Allocated c.phys c'.phys t t' size base new) :
    AllocOutcome c c' os₁ os₂ t t' size base

/-- **`user_alloc`** keeps the world. -/
theorem userAlloc_world (h : World c m (us₁ ++ t :: us₂) rest ps)
    (ho : t.owns = true) (size : Nat) :
    ∃ r c' t', userAlloc c t size = some (r, c', t') ∧ SameSpace t t' ∧
      World c' m (us₁ ++ t' :: us₂) rest ps ∧
      AllocOutcome c c' (owners us₁) (owners us₂) t t' size r ∧
      ∀ u ∈ owners us₁ ++ owners us₂, Unaffected c.phys c'.phys u := by
  have hsound := h.owner t (List.mem_append_right _ List.mem_cons_self) ho
  rcases userAlloc_spec (h.userOk rfl ho) size with ⟨c', t', he, hu, hst, hr⟩ |
    ⟨base, c', t', new, he, hb, hu, hA, hun⟩
  · have hself := hst.unaffected t.toOwner (List.mem_append_right _ List.mem_cons_self)
    have hat : t'.shmAttached = t.shmAttached := by
      obtain ⟨_, _, rfl⟩ := hr.owner
      rfl
    exact ⟨0, c', t', he, hr.sameSpace, h.replace rfl (hr.sameSpace.owns.trans ho) hu hat
      (hsound.reserved hu.layout hself.map hr) hst.unaffected_middle, .failed hst hr,
      hst.unaffected_middle⟩
  · have hk : SameSpace t t' := ⟨hu.layout.process.trans hsound.layout.process.symm, hA.root⟩
    exact ⟨base, c', t', he, hk, h.replace rfl (hk.owns.trans ho) hu hA.attached
      (hA.sound hsound hu.layout) hun, .done hb hA, hun⟩

/-- **`user_free`** keeps the world. -/
theorem userFree_world (h : World c m (us₁ ++ t :: us₂) rest ps) (ho : t.owns = true)
    (hb : base ≠ 0) :
    (userFree c t base = some (-1, c, t) ∧ ∀ a ∈ t.allocations, a.base ≠ base) ∨
    ∃ k a gone c' t', userFree c t base = some (0, c', t') ∧ a.base = base ∧ SameSpace t t' ∧
      World c' m (us₁ ++ t' :: us₂) rest ps ∧ Freed c.phys c'.phys t t' k a gone ∧
      ∀ u ∈ owners us₁ ++ owners us₂, Unaffected c.phys c'.phys u := by
  have hsound := h.owner t (List.mem_append_right _ List.mem_cons_self) ho
  refine (userFree_spec (h.userOk rfl ho) hb).imp_right ?_
  rintro ⟨k, a, gone, c', t', he, hbase, hu, hF, hun⟩
  have hk : SameSpace t t' := ⟨hu.layout.process.trans hsound.layout.process.symm, hF.root⟩
  exact ⟨k, a, gone, c', t', he, hbase, hk, h.replace rfl (hk.owns.trans ho) hu hF.attached
    (hF.sound hsound hu.layout) hun, hF, hun⟩

/-- Frames that are no tables are written. -/
theorem World.write (h : World c m us rest ps) (hk : s.kernelPml4 = c.phys.kernelPml4)
    (hp : s.pmm = c.phys.pmm) (hm : ∀ g ∈ c.phys.allTables (owners us), s.mem g = c.phys.mem g) :
    World (c.setPhys s) m us rest ps :=
  ⟨h.memory.write hk hp hm, h.shm, h.small, fun t ht ho => (h.owner t ht ho).of_map fun _ hva =>
    translate_of_mem (fun g hg => hm g (mem_allTables (mem_owners ht ho) hg)) hva, h.bare, h.counts⟩

/-- What `user_realloc` to a size that is not zero does. -/
inductive ReallocOutcome (c c' : HeapClient) (os₁ os₂ : List Owner) (t t' : UserTask)
    (base size : Nat) :
    Nat → Prop
  | failed (steady : Steady c c' (os₁ ++ t.toOwner :: os₂)) (reserved : Reserved t t') :
    ReallocOutcome c c' os₁ os₂ t t' base size 0
  | same {a : UserAllocation} (ha : a ∈ t.allocations) (hb : a.base = base) (hs : a.size = size)
    (hc : c' = c) (ht : t' = t) : ReallocOutcome c c' os₁ os₂ t t' base size base
  | moved {a : UserAllocation} {r : Nat} (ha : a ∈ t.allocations) (hb : a.base = base) (ne : r ≠ 0)
    (moved : Moved c.phys c'.phys t t' a size r) : ReallocOutcome c c' os₁ os₂ t t' base size r

/-- **`user_realloc`** of a block keeps the world: it is a `user_alloc`, a copy and a
`user_free`. -/
theorem userRealloc_world (h : World c m (us₁ ++ t :: us₂) rest ps) (ho : t.owns = true)
    (hb : base ≠ 0)
    (hs : size ≠ 0) : ∃ r c' t', userRealloc c t base size = some (r, c', t') ∧ SameSpace t t' ∧
      World c' m (us₁ ++ t' :: us₂) rest ps ∧
      ReallocOutcome c c' (owners us₁) (owners us₂) t t' base size r ∧
      ∀ u ∈ owners us₁ ++ owners us₂, Unaffected c.phys c'.phys u := by
  have hroot : t.pml4 ≠ 0 := (owns_iff.mp ho).2
  have huser := h.userOk rfl ho
  have hself : SameSpace t t := ⟨rfl, rfl⟩
  unfold userRealloc
  rw [if_neg hb, if_neg hroot]
  cases hfind : t.allocations.find? (·.base == base) with
  | none => exact ⟨0, c, t, rfl, hself, h, .failed (.refl huser.memory.spaces.inv) (.refl t),
      fun _ _ => .refl⟩
  | some a =>
    have ha := List.mem_of_find?_eq_some hfind
    have hbase : a.base = base := by simpa using List.find?_some hfind
    dsimp only
    rw [if_neg hs]
    split
    · next he =>
      exact ⟨base, c, t, rfl, hself, h, .same ha hbase he.symm rfl rfl, fun _ _ => .refl⟩
    next hne =>
    obtain ⟨r, c₁, t₁, he, hk₁, hw₁, hout, hun₁⟩ := userAlloc_world h ho size
    cases hout with
    | failed hst hr =>
      simp only [he, Option.bind_eq_bind, Option.bind_some, ↓reduceIte]
      exact ⟨0, c₁, t₁, rfl, hk₁, hw₁, .failed hst hr, hun₁⟩
    | done hr0 hA =>
    next new =>
    simp only [he, Option.bind_eq_bind, Option.bind_some, hr0, ↓reduceIte]
    have ho₁ : t₁.owns = true := hk₁.owns.trans ho
    have huser₁ := hw₁.userOk rfl ho₁
    have htm₁ : t₁.toOwner ∈ owners us₁ ++ t₁.toOwner :: owners us₂ :=
      List.mem_append_right _ List.mem_cons_self
    generalize hbytes : (if size < a.size then size else a.size) = bytes
    have hle : bytes ≤ a.size ∧ bytes ≤ size ∧ ∀ i < size, i < bytes ↔ i < a.size := by
      rw [← hbytes]
      split
      · exact ⟨by omega, Nat.le_refl _, fun i hi => by omega⟩
      · exact ⟨Nat.le_refl _, by omega, fun i _ => Iff.rfl⟩
    have hF := hA.filled huser huser₁ ha hle.1 hle.2.1
    subst hbase
    rw [hA.root]
    generalize c₁.phys.copyPages t.pml4 a.base r bytes = s₂ at hF ⊢
    obtain ⟨mem, hmem⟩ := hF.state
    -- the copy writes the new frames only
    have hnew : ∀ g ∈ c₁.phys.allTables (owners us₁ ++ t₁.toOwner :: owners us₂),
        g ∉ new.map PageRecord.phys := fun g hg hgn => by
      refine (huser₁.memory.spaces.apart g hg).2 _ htm₁ ?_
      rw [hA.records, List.map_append]
      exact List.mem_append_right _ hgn
    have hw₂ : World (c₁.setPhys s₂) m (us₁ ++ t₁ :: us₂) rest ps := by
      refine hw₁.write (by rw [hmem]) (by rw [hmem]) fun g hg => ?_
      rw [owners_middle ho₁] at hg
      exact hF.other g (hnew g hg)
    have ha₁ : a ∈ t₁.allocations := by
      rw [hA.allocations]
      exact List.mem_cons_of_mem _ ha
    rcases userFree_world hw₂ ho₁ hb with ⟨-, hno⟩ |
      ⟨k, b, gone, c', t', he', hbb, hk', hw', hG, hun'⟩
    · exact absurd rfl (hno a ha₁)
    obtain rfl := huser₁.layout.unique ha₁ (List.mem_of_getElem? hG.found) hbb.symm
    rw [he']
    refine ⟨r, c', t', rfl, ⟨hk'.thread.trans hk₁.thread, hk'.root.trans hk₁.root⟩, hw',
      .moved ha rfl hr0 (hA.moved huser huser₁ ha hne hF hG hle.2.2), fun u hu => ?_⟩
    refine ((hun₁ u hu).trans ⟨fun va hva => translate_of_mem (fun g hg => ?_) hva,
      fun va hva p flags hp => hF.other _ fun hgn => ?_⟩).trans (hun' u hu)
    · exact hF.other g (hnew g (mem_allTables (mem_middle hu) hg))
    · rw [(hun₁ u hu).map va hva] at hp
      exact hA.not_leaf huser (mem_middle hu) hva hp hgn

/-! ## Copy-on-write -/

/-- The layout depends on which pages are mapped, and on the addresses of the records. -/
theorem Layout.of_none (h : Layout s t) {o : Owner}
    (hm : ∀ va < 0x800000000000, s.translate t.pml4 va = none → s'.translate t.pml4 va = none)
    (hr : o.pml4 = t.pml4) (ha : o.allocations = t.allocations) (hs : o.shmAttached = t.shmAttached)
    (hp : o.userPages.map PageRecord.vaddr = t.userPages.map PageRecord.vaddr)
    (hc : o.userPageCapacity = t.userPageCapacity) : Layout s' { t with toOwner := o } := by
  have hlen : o.userPages.length = t.userPages.length := by
    rw [← List.length_map PageRecord.vaddr, hp, List.length_map]
  have hrec : recordsOf o = recordsOf t.toOwner := by
    unfold recordsOf
    rw [ha, hs]
  refine ⟨h.process, ⟨?_, ?_⟩, ?_, ?_, fun r hx => ?_, ?_, ?_, ?_, ?_, ?_, ?_⟩
  · exact ha ▸ h.aligned.allocations
  · exact hs ▸ h.aligned.attachments
  · exact hrec ▸ h.top
  · exact hrec ▸ h.clear
  · have hx : r ∈ recordsOf t.toOwner := hrec ▸ hx
    show s'.translate o.pml4 _ = none
    rw [hr]
    exact hm _ (Nat.lt_of_lt_of_le lt_guardEnd (h.top r hx)) (h.guards r hx)
  · exact ha ▸ h.sized
  · show ∀ a ∈ o.allocations, ∀ i < a.pages.toNat,
      a.base + i * 4096 ∈ o.userPages.map PageRecord.vaddr
    rw [ha, hp]
    exact h.backed
  · exact ha ▸ h.nodes
  · show o.userPages.length ≤ o.userPageCapacity
    rw [hlen, hc]
    exact h.room
  · exact hc ▸ h.capacity
  · show o.userPages.length ≤ 65536
    rw [hlen]
    exact h.count

theorem setPage_vaddrs (o : Owner) (i f : Nat) :
    (setPage o i f).userPages.map PageRecord.vaddr = o.userPages.map PageRecord.vaddr := by
  unfold setPage
  refine List.ext_getElem? fun j => ?_
  simp only [List.getElem?_map, List.getElem?_modify]
  cases o.userPages[j]? with
  | none => rfl
  | some p =>
    simp only [Option.map_some]
    split
    · rfl
    · rfl

/-- **`cow_resolve`** keeps the world, and is exact. -/
theorem cowResolve_world (h : World c m (us₁ ++ t :: us₂) rest ps) (ho : t.owns = true)
    (faultAddr : Nat)
    (errorCode : Word) : ∃ handled s' o', c.phys.cowResolve (some t.toOwner) faultAddr errorCode =
        (handled, s', some o') ∧ SameSpace t { t with toOwner := o' } ∧
      World (c.setPhys s') m (us₁ ++ { t with toOwner := o' } :: us₂) rest ps ∧
      CowSpec c.phys (owners us₁) (owners us₂) t.toOwner m.frames (c.heap.frames ++ rest) faultAddr
        errorCode handled s' o' := by
  have hsound := h.owner t (List.mem_append_right _ List.mem_cons_self) ho
  have huser := h.userOk rfl ho
  obtain ⟨handled, s', o', he, hspec⟩ := cow_resolve_exact huser.memory.spaces faultAddr errorCode
  have hpmm : Moves c.phys.pmm c.phys.pmm [] [] := .refl h.memory.spaces.inv
  rcases hspec.effect with hidle | ⟨hch, p₀, fl₀, hb₀, hcow⟩
  · obtain rfl := hidle.owner
    obtain ⟨n, rfl⟩ := hidle.state
    refine ⟨handled, _, _, he, ⟨rfl, rfl⟩,
      h.keep (h.memory.setPhys (h.memory.spaces.idle n) rfl fun _ _ => rfl)
      (.setPhys rfl (fun _ _ => rfl) hpmm fun u _ => ⟨fun _ _ => rfl, fun _ _ _ _ _ => rfl⟩), hspec⟩
  -- only a handled fault changes anything
  · cases hh : handled with
    | false =>
      obtain rfl := (hspec.idle hh).owner
      obtain ⟨n, rfl⟩ := (hspec.idle hh).state
      subst hh
      refine ⟨false, _, _, he, ⟨rfl, rfl⟩,
        h.keep (h.memory.setPhys (h.memory.spaces.idle n) rfl fun _ _ => rfl)
        (.setPhys rfl (fun _ _ => rfl) hpmm fun u _ => ⟨fun _ _ => rfl, fun _ _ _ _ _ => rfl⟩),
        hspec⟩
    | true =>
      subst hh
      obtain ⟨-, -, p, fl, p', fl', hH⟩ := hspec.resolved rfl
      obtain ⟨rfl, rfl⟩ : p₀ = p ∧ fl₀ = fl := by
        have := hb₀.symm.trans hH.before
        simpa using this
      obtain ⟨hm', hun'⟩ := huser.memory.update hch
      have hrec : o'.allocations = t.allocations ∧ o'.shmAttached = t.shmAttached ∧
          o'.userPageCapacity = t.userPageCapacity ∧
          o'.userPages.map PageRecord.vaddr = t.userPages.map PageRecord.vaddr := by
        rcases hH.record with rfl | ⟨i, -, rfl⟩
        · exact ⟨rfl, rfl, rfl, rfl⟩
        · exact ⟨rfl, rfl, rfl, setPage_vaddrs ..⟩
      obtain ⟨ha, hs, hc, hv⟩ := hrec
      have hsame : ∀ va < 0x800000000000, va / 4096 = faultAddr / 4096 →
          s'.translate t.pml4 va = some (p', fl') ∧ c.phys.translate t.pml4 va = some (p₀, fl₀) :=
        fun va _ hva => by
          rw [← hH.after, ← hH.before]
          exact ⟨translate_page (by omega), translate_page (by omega)⟩
      have helse : ∀ va < 0x800000000000, va / 4096 ≠ faultAddr / 4096 →
          s'.translate t.pml4 va = c.phys.translate t.pml4 va := fun va hva hne =>
        (hH.elsewhere va hva (by omega)).1
      have hlayout : Layout s' { t with toOwner := o' } :=
        hsound.layout.of_none (fun va hva hn => by
        by_cases hp : va / 4096 = faultAddr / 4096
        · rw [(hsame va hva hp).2] at hn
          cases hn
        · rw [helse va hva hp, hn]) hH.root ha hs hv hc
      have hk : SameSpace t { t with toOwner := o' } := ⟨rfl, hH.root⟩
      refine ⟨true, s', o', he, hk, h.replace rfl (hk.owns.trans ho) ⟨?_, hlayout⟩ hs ⟨hlayout,
        hsound.attached.elsewhere hs hH.root (fun va hva hi => ?_) fun q hq hi => ?_,
        fun va hva q fl hq hw => ?_⟩ hun', hspec⟩
      · exact hm'
      · refine helse va hva fun hp => ?_
        obtain ⟨x, hx, hid, hr⟩ := hi
        obtain ⟨_, f, -, -, htr⟩ :=
          hsound.attached.frame hx hid hr (hsound.layout.aligned.attachments x hx)
        rw [(hsame va hva hp).2] at htr
        obtain ⟨-, rfl⟩ : p₀ = _ ∧ fl₀ = _ := by simpa using htr
        exact absurd hcow (by decide)
      · have hqv : q.vaddr ∈ t.userPages.map PageRecord.vaddr := hv ▸ List.mem_map_of_mem hq
        obtain ⟨q', hq', he'⟩ := List.mem_map.mp hqv
        exact hsound.attached.apart q' hq' (he' ▸ hi)
      · have hq : s'.translate t.pml4 va = some (q, fl) := hH.root ▸ hq
        by_cases hp : va / 4096 = faultAddr / 4096
        · obtain ⟨h1, h2⟩ := hsame va hva hp
          obtain ⟨-, rfl⟩ : p' = q ∧ fl' = fl := by simpa using h1.symm.trans hq
          have hnx := hsound.wx va hva p₀ fl₀ h2 (.inr hcow)
          have hbit := congrArg (fun w => BitVec.getLsbD w 63) hH.resolved.rest
          rw [Word.has_nx] at hnx ⊢
          simp only [BitVec.getLsbD_and, BitVec.getLsbD_not, hnx, Bool.true_and,
            show (pteWrite ||| pteCow).getLsbD 63 = false by decide] at hbit
          simpa only [Nat.reduceLT, decide_true, Bool.not_false, Bool.and_true] using hbit
        · rw [helse va hva hp] at hq
          exact hsound.wx va hva q fl hq hw

end GenOS
