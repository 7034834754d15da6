import GenOS.Mm.Sharing

/-!
# The memory of all tasks

`World c m us rest ps` is what holds of the user memory of the tasks `us` and of the segments `m`
together. A task that is no thread and has an address space owns it (`UserTask.owns`); the others
hold nothing (`Bare`). `Attached` says of an owner that the pages of an attachment are the frames of
its segment, `WxOk` that no page may be both written and run. `rest` are the frames and `ps` the
kernel heap's blocks of everything else.
-/

namespace GenOS

open Phys Pmm

/-! ## Segments -/

/-- The block of a segment in use. -/
def ShmSegment.blocks (s : ShmSegment) : List Nat := if s.inUse then [s.block] else []

/-- A segment in use; `next` is the next id. -/
structure SegmentOk (next : Nat) (s : ShmSegment) : Prop where
  pos : 0 < s.shmid
  lt : s.shmid < next
  size : 0 < s.size ∧ s.size ≤ shmMaxPages * 4096
  pages : s.physPages.length = (s.size + 4095) / 4096

theorem SegmentOk.count {next : Nat} {s : ShmSegment} (h : SegmentOk next s) :
    0 < s.physPages.length ∧ s.physPages.length ≤ 4096 ∧
      (UInt32.ofNat s.physPages.length).toNat = s.physPages.length := by
  have hmax : shmMaxPages * 4096 = 16777216 := rfl
  have hsize := h.size
  have hlen := h.pages
  rw [UInt32.toNat_ofNat']
  omega

namespace Shm

/-- The frames of all segments. -/
def frames (m : Shm) : List Nat := m.segments.flatMap ShmSegment.physPages

def blocks (m : Shm) : List Nat := m.segments.flatMap ShmSegment.blocks

/-- Segment `i` is in use, under this id. -/
structure Names (m : Shm) (i : Nat) (id : Int) (s : ShmSegment) : Prop where
  found : m.segments[i]? = some s
  used : s.inUse = true
  id : s.shmid = id

structure Ok (m : Shm) : Prop where
  length : m.segments.length = shmMaxSegments
  unused : ∀ s ∈ m.segments, s.inUse = false → s = {}
  used : ∀ s ∈ m.segments, s.inUse = true → SegmentOk m.nextShmid s
  distinct : ∀ {i j id s s'}, m.Names i id s → m.Names j id s' → i = j
  next : 0 < m.nextShmid

/-- The frames of the segment with this id. -/
def pagesOf (m : Shm) (id : Int) : Option (List Nat) :=
  (m.findSegment id).map fun i => (m.segment i).physPages

variable {m : Shm} {i : Nat} {id : Int} {s s' : ShmSegment}

theorem segment_eq (h : m.segments[i]? = some s) : m.segment i = s := by
  unfold segment
  rw [List.getD_eq_getElem?_getD, h]
  rfl

theorem Names.mem (h : m.Names i id s) : s ∈ m.segments := List.mem_of_getElem? h.found

/-- `find_segment` finds the segment in use. -/
theorem findSegment_some (h : m.findSegment id = some i) : ∃ s, m.Names i id s := by
  obtain ⟨hi, hp, -⟩ := List.findIdx?_eq_some_iff_getElem.mp h
  rw [Bool.and_eq_true, beq_iff_eq] at hp
  exact ⟨_, List.getElem?_eq_getElem hi, hp.1, hp.2⟩

theorem findSegment_none (h : m.findSegment id = none) : ¬ m.Names i id s := fun hn => by
  have := List.findIdx?_eq_none_iff.mp h s hn.mem
  rw [hn.used, hn.id, beq_self_eq_true] at this
  cases this

theorem Names.find (h : m.Names i id s) (hm : m.Ok) : m.findSegment id = some i := by
  cases hf : m.findSegment id with
  | none => exact absurd h (findSegment_none hf)
  | some j =>
    obtain ⟨s', hj⟩ := findSegment_some hf
    rw [hm.distinct h hj]

theorem Names.pagesOf (h : m.Names i id s) (hm : m.Ok) : m.pagesOf id = some s.physPages := by
  unfold Shm.pagesOf
  rw [h.find hm, Option.map_some, segment_eq h.found]

theorem pagesOf_some {l : List Nat} (h : m.pagesOf id = some l) :
    ∃ i s, m.Names i id s ∧ l = s.physPages := by
  obtain ⟨i, hi, rfl⟩ := Option.map_eq_some_iff.mp h
  obtain ⟨s, hs⟩ := findSegment_some hi
  exact ⟨i, s, hs, by rw [segment_eq hs.found]⟩

theorem pagesOf_frames {l : List Nat} (h : m.pagesOf id = some l) {g : Nat} (hg : g ∈ l) :
    g ∈ m.frames := by
  obtain ⟨i, s, hs, rfl⟩ := pagesOf_some h
  exact List.mem_flatMap.mpr ⟨s, hs.mem, hg⟩

/-! ### One segment changes -/

theorem getElem?_setSegment_self (h : m.segments[i]? = some s) (s' : ShmSegment) :
    (m.setSegment i s').segments[i]? = some s' :=
  List.getElem?_set_self (List.getElem?_eq_some_iff.mp h).1

theorem getElem?_setSegment_ne {j : Nat} (h : j ≠ i) (s' : ShmSegment) :
    (m.setSegment i s').segments[j]? = m.segments[j]? := List.getElem?_set_ne (Ne.symm h)

/-- The frames and blocks around a segment. -/
theorem around (h : m.segments[i]? = some s) : ∃ R B : List Nat, ∀ s' : ShmSegment,
    (m.setSegment i s').frames.Perm (s'.physPages ++ R) ∧
      (m.setSegment i s').blocks.Perm (s'.blocks ++ B) := by
  obtain ⟨l₁, l₂, -, -, hset⟩ := split_slot h
  refine ⟨l₁.flatMap ShmSegment.physPages ++ l₂.flatMap ShmSegment.physPages,
    l₁.flatMap ShmSegment.blocks ++ l₂.flatMap ShmSegment.blocks, fun s' => ?_⟩
  unfold frames blocks setSegment
  rw [hset]
  simp only [List.flatMap_append, List.flatMap_cons]
  exact ⟨List.perm_append_comm_assoc .., List.perm_append_comm_assoc ..⟩

theorem setSegment_self (h : m.segments[i]? = some s) : m.setSegment i s = m := by
  obtain ⟨hi, rfl⟩ := List.getElem?_eq_some_iff.mp h
  unfold setSegment
  rw [List.set_getElem_self hi]

/-- Other segments are named as before. -/
theorem names_setSegment_ne {j : Nat} (h : j ≠ i) : (m.setSegment i s').Names j id s ↔
    m.Names j id s := by
  refine ⟨fun hn => ⟨?_, hn.used, hn.id⟩, fun hn => ⟨?_, hn.used, hn.id⟩⟩
  · rw [← getElem?_setSegment_ne h s']
    exact hn.found
  · rw [getElem?_setSegment_ne h s']
    exact hn.found

/-! ### Only the counts change -/

/-- Everything of a segment but its count. -/
def uncounted (s : ShmSegment) : ShmSegment := { s with refcount := 0 }

/-- Only the count differs. -/
structure Recount (s s' : ShmSegment) : Prop where
  used : s'.inUse = s.inUse
  id : s'.shmid = s.shmid
  pages : s'.physPages = s.physPages
  size : s'.size = s.size

theorem Recount.of_uncounted (h : uncounted s' = uncounted s) : Recount s s' := by
  unfold uncounted at h
  simp only [ShmSegment.mk.injEq] at h
  exact ⟨h.1, h.2.1, h.2.2.1, h.2.2.2.2.1⟩

/-- The same segments, with other counts; an unused one counts nothing. -/
structure Recounted (m m' : Shm) : Prop where
  segments : m'.segments.map uncounted = m.segments.map uncounted
  next : m'.nextShmid = m.nextShmid
  unused : ∀ s ∈ m'.segments, s.inUse = false → s.refcount = 0

namespace Recounted

theorem refl (hm : m.Ok) : Recounted m m := ⟨rfl, rfl, fun s hs hu => by rw [hm.unused s hs hu]⟩

variable {m' : Shm} (h : Recounted m m')

include h

theorem map {α : Type} {f : ShmSegment → α} (hf : ∀ s, f (uncounted s) = f s) :
    m'.segments.map f = m.segments.map f := by
  have := congrArg (List.map f) h.segments
  simpa only [List.map_map, Function.comp_def, hf] using this

theorem frames : m'.frames = m.frames := by
  unfold Shm.frames
  rw [List.flatMap_def, List.flatMap_def, h.map fun _ => rfl]

theorem blocks : m'.blocks = m.blocks := by
  unfold Shm.blocks
  rw [List.flatMap_def, List.flatMap_def, h.map fun _ => rfl]

theorem getElem? (i : Nat) : (m'.segments[i]?).map uncounted = (m.segments[i]?).map uncounted := by
  rw [← List.getElem?_map, ← List.getElem?_map, h.segments]

theorem names (hn : m'.Names i id s') : ∃ s, m.Names i id s ∧ Recount s s' := by
  have hi := h.getElem? i
  rw [hn.found, Option.map_some] at hi
  obtain ⟨s, hs, he⟩ := Option.map_eq_some_iff.mp hi.symm
  have hr := Recount.of_uncounted he.symm
  exact ⟨s, ⟨hs, hr.used.symm.trans hn.used, hr.id.symm.trans hn.id⟩, hr⟩

theorem names_symm (hn : m.Names i id s) : ∃ s', m'.Names i id s' ∧ Recount s s' := by
  have hi := h.getElem? i
  rw [hn.found, Option.map_some] at hi
  obtain ⟨s', hs, he⟩ := Option.map_eq_some_iff.mp hi
  have hr := Recount.of_uncounted he
  exact ⟨s', ⟨hs, hr.used.trans hn.used, hr.id.trans hn.id⟩, hr⟩

theorem mem (hs : s' ∈ m'.segments) : ∃ s ∈ m.segments, uncounted s = uncounted s' := by
  have hs' : uncounted s' ∈ m.segments.map uncounted := h.segments ▸ List.mem_map_of_mem hs
  exact List.mem_map.mp hs'

theorem ok (hm : m.Ok) : m'.Ok := by
  refine ⟨?_, fun s hs hu => ?_, fun s hs hu => ?_, fun h1 h2 => ?_, h.next ▸ hm.next⟩
  · have := congrArg List.length h.segments
    rw [List.length_map, List.length_map] at this
    exact this.trans hm.length
  · obtain ⟨x, hx, he⟩ := h.mem hs
    have hx0 := hm.unused x hx ((Recount.of_uncounted he).used.trans hu)
    have h0 := h.unused s hs hu
    rw [hx0] at he
    calc s = { uncounted s with refcount := s.refcount } := rfl
      _ = {} := by rw [← he, h0]; rfl
  · obtain ⟨x, hx, he⟩ := h.mem hs
    have hr := Recount.of_uncounted he
    obtain ⟨h1, h2, h3, h4⟩ := hm.used x hx (hr.used.trans hu)
    exact ⟨hr.id ▸ h1, by rw [h.next, ← hr.id]; exact h2, hr.size ▸ h3,
      by rw [← hr.pages, ← hr.size]; exact h4⟩
  · obtain ⟨_, hy, -⟩ := h.names h1
    obtain ⟨_, hz, -⟩ := h.names h2
    exact hm.distinct hy hz

theorem pagesOf (hm : m.Ok) (id : Int) : m'.pagesOf id = m.pagesOf id := by
  cases hp : m.pagesOf id with
  | some l =>
    obtain ⟨j, x, hx, rfl⟩ := pagesOf_some hp
    obtain ⟨y, hy, he⟩ := h.names_symm hx
    rw [hy.pagesOf (h.ok hm), he.pages]
  | none =>
    by_contra hne
    obtain ⟨l, hl⟩ := Option.ne_none_iff_exists'.mp hne
    obtain ⟨j, x, hx, -⟩ := pagesOf_some hl
    obtain ⟨y, hy, -⟩ := h.names hx
    rw [hy.pagesOf hm] at hp
    cases hp

end Recounted

/-- One segment in use counts more records, or less. -/
theorem Names.recounted (h : m.Names i id s) (hm : m.Ok) (n : UInt32) :
    Recounted m (m.setSegment i { s with refcount := n }) := by
  obtain ⟨l₁, l₂, hl, -, hset⟩ := split_slot h.found
  refine ⟨?_, rfl, fun x hx hu => ?_⟩
  · unfold setSegment
    rw [hset, hl]
    simp only [List.map_append, List.map_cons]
    rfl
  · rcases (List.mem_or_eq_of_mem_set hx).symm with rfl | hx
    · have hu : s.inUse = false := hu
      rw [h.used] at hu
      cases hu
    · rw [hm.unused x hx hu]

theorem mem_setSegment {x : ShmSegment} (hx : x ∈ (m.setSegment i s').segments) :
    x = s' ∨ x ∈ m.segments := (List.mem_or_eq_of_mem_set hx).symm

/-- A segment is released. -/
theorem Ok.clear (hm : m.Ok) (i : Nat) : (m.setSegment i {}).Ok := by
  have hback : ∀ {j id x}, (m.setSegment i {}).Names j id x → m.Names j id x := fun {j id x} h => by
    by_cases hj : j = i
    · subst hj
      have hx := h.found
      by_cases hlt : j < m.segments.length
      · rw [getElem?_setSegment_self (List.getElem?_eq_getElem hlt)] at hx
        cases hx
        cases h.used
      · rw [show (m.setSegment j {}).segments[j]? = none from List.getElem?_eq_none
          (by rw [show (m.setSegment j {}).segments = m.segments.set j {} from rfl,
            List.length_set]; omega)] at hx
        cases hx
    · exact (names_setSegment_ne hj).mp h
  refine ⟨(List.length_set ..).trans hm.length, fun x hx hu => ?_, fun x hx hu => ?_,
    fun h1 h2 => hm.distinct (hback h1) (hback h2), hm.next⟩
  · rcases mem_setSegment hx with rfl | hx
    · rfl
    · exact hm.unused x hx hu
  · rcases mem_setSegment hx with rfl | hx
    · cases hu
    · exact hm.used x hx hu

/-- The other segments are still there. -/
theorem pagesOf_clear (hm : m.Ok) (h : m.Names i id s) {id' : Int} (hne : id' ≠ id) :
    (m.setSegment i {}).pagesOf id' = m.pagesOf id' := by
  have hm' := hm.clear i
  cases hp : m.pagesOf id' with
  | some l =>
    obtain ⟨j, x, hx, rfl⟩ := pagesOf_some hp
    have hj : j ≠ i := fun hj => by
      subst hj
      obtain rfl : x = s := Option.some.inj (hx.found.symm.trans h.found)
      exact hne (hx.id.symm.trans h.id)
    exact ((names_setSegment_ne hj).mpr hx).pagesOf hm'
  | none =>
    by_contra hne'
    obtain ⟨l, hl⟩ := Option.ne_none_iff_exists'.mp hne'
    obtain ⟨j, x, hx, -⟩ := pagesOf_some hl
    have hj : j ≠ i := fun hj => by
      subst hj
      have hx' := hx.found
      rw [getElem?_setSegment_self h.found] at hx'
      cases hx'
      cases hx.used
    rw [((names_setSegment_ne hj).mp hx).pagesOf hm] at hp
    cases hp

end Shm

/-! ## One owner -/

/-- The pages of each attachment are the frames of its segment, with the flags of shared memory. -/
structure Attached (s : Phys) (m : Shm) (t : Owner) : Prop where
  slots : t.shmAttached.length = shmMaxAttach
  pages : ∀ a ∈ t.shmAttached, 0 ≤ a.shmid → ∃ pages, m.pagesOf a.shmid = some pages ∧
    pages.length = a.pageCount.toNat ∧ 0 < pages.length ∧
    a.vaddr + a.pageCount.toNat * 4096 ≤ 0x800000000000 ∧
    ∀ i f, pages[i]? = some f →
      s.translate t.pml4 (a.vaddr + i * 4096) = some (BitVec.ofNat 64 f, vmmFlagsUserData)
  /-- A slot without an attachment is as it was initialised. -/
  unused : ∀ a ∈ t.shmAttached, a.shmid < 0 → a = .unused
  /-- Private pages are elsewhere. -/
  apart : ∀ p ∈ t.userPages, ¬ InAttachment t p.vaddr

/-- A page that may be written, or will be, may not be run. -/
def WxOk (s : Phys) (r : Nat) : Prop := ∀ va < 0x800000000000, ∀ p flags,
  s.translate r va = some (p, flags) → flags.has pteWrite = true ∨ flags.has pteCow = true →
    flags.has pteNx = true

structure OwnerSound (s : Phys) (m : Shm) (t : UserTask) : Prop where
  layout : Layout s t
  attached : Attached s m t.toOwner
  wx : WxOk s t.pml4

/-- A task that holds nothing. -/
structure Bare (t : UserTask) : Prop where
  pages : t.userPages = []
  allocations : t.allocations = []
  attached : t.shmAttached = List.replicate shmMaxAttach .unused
  capacity : t.userPageCapacity = userInlinePages
  pagesBlock : t.pagesBlock = 0
  nodes : t.allocationBlocks = []

theorem Bare.withRoot {t : UserTask} (h : Bare t) (pml4 : Nat) : Bare { t with pml4 } :=
  ⟨h.pages, h.allocations, h.attached, h.capacity, h.pagesBlock, h.nodes⟩

/-- The task owns its address space. -/
def UserTask.owns (t : UserTask) : Bool := !t.isThread && t.pml4 != 0

def owners (us : List UserTask) : List Owner :=
  (us.filter UserTask.owns).map UserTask.toOwner

def userBlocks (us : List UserTask) : List Nat := us.flatMap UserTask.blocks

/-- How many records name the id. -/
def attachCount (us : List UserTask) (id : Int) : Nat :=
  (us.flatMap fun t => t.shmAttached).countP fun a => a.shmid == id

variable {c c' : HeapClient} {s s' : Phys} {m m' : Shm} {t t' : UserTask} {u : Owner}
variable {us us₁ us₂ : List UserTask} {rest rest' ps ps' : List Nat} {id : Int}

theorem owns_iff : t.owns = true ↔ t.isThread = false ∧ t.pml4 ≠ 0 := by
  unfold UserTask.owns
  rw [Bool.and_eq_true, Bool.not_eq_true', bne_iff_ne]

theorem mem_owners (h : t ∈ us) (ho : t.owns = true) : t.toOwner ∈ owners us :=
  List.mem_map_of_mem (List.mem_filter.mpr ⟨h, ho⟩)

theorem of_mem_owners (h : u ∈ owners us) : ∃ t ∈ us, t.owns = true ∧ t.toOwner = u := by
  obtain ⟨t, ht, rfl⟩ := List.mem_map.mp h
  exact ⟨t, (List.mem_filter.mp ht).1, (List.mem_filter.mp ht).2, rfl⟩

theorem owners_append : owners (us₁ ++ us₂) = owners us₁ ++ owners us₂ := by
  unfold owners
  rw [List.filter_append, List.map_append]

theorem owners_middle (h : t.owns = true) :
    owners (us₁ ++ t :: us₂) = owners us₁ ++ t.toOwner :: owners us₂ := by
  rw [owners_append]
  unfold owners
  rw [List.filter_cons_of_pos h, List.map_cons]

theorem owners_middle_of_not (h : t.owns = false) :
    owners (us₁ ++ t :: us₂) = owners us₁ ++ owners us₂ := by
  rw [owners_append]
  unfold owners
  rw [List.filter_cons_of_neg (by rw [h]; exact Bool.false_ne_true)]

theorem userBlocks_middle : (userBlocks (us₁ ++ t :: us₂)).Perm
    (t.blocks ++ (userBlocks us₁ ++ userBlocks us₂)) := by
  unfold userBlocks
  rw [List.flatMap_append, List.flatMap_cons]
  exact List.perm_append_comm_assoc ..

theorem Bare.blocks (h : Bare t) : t.blocks = [] := by
  unfold UserTask.blocks
  rw [h.pagesBlock, h.nodes]
  rfl

theorem attachCount_middle : attachCount (us₁ ++ t :: us₂) id =
    t.shmAttached.countP (fun a => a.shmid == id) + attachCount (us₁ ++ us₂) id := by
  unfold attachCount
  simp only [List.flatMap_append, List.flatMap_cons, List.countP_append]
  omega

namespace Attached

theorem congr (h : Attached s m u)
    (hu : ∀ va < 0x800000000000, s'.translate u.pml4 va = s.translate u.pml4 va)
    (hm : ∀ a ∈ u.shmAttached, 0 ≤ a.shmid → m'.pagesOf a.shmid = m.pagesOf a.shmid) :
    Attached s' m' u := by
  refine ⟨h.slots, fun a ha hid => ?_, h.unused, h.apart⟩
  obtain ⟨pages, h1, h2, h0, h3, h4⟩ := h.pages a ha hid
  refine ⟨pages, (hm a ha hid).trans h1, h2, h0, h3, fun i f hi => ?_⟩
  have hlt := (List.getElem?_eq_some_iff.mp hi).1
  rw [hu _ (by omega)]
  exact h4 i f hi

/-- The frame behind an attached page. -/
theorem frame (h : Attached s m u) {a : ShmAttach} (ha : a ∈ u.shmAttached) (hid : 0 ≤ a.shmid)
    {va : Nat} (hva : a.vaddr ≤ va ∧ va < a.vaddr + a.pageCount.toNat * 4096)
    (hal : a.vaddr % 4096 = 0) : ∃ pages f, m.pagesOf a.shmid = some pages ∧
      pages[(va - a.vaddr) / 4096]? = some f ∧
      s.translate u.pml4 va = some (BitVec.ofNat 64 f, vmmFlagsUserData) := by
  obtain ⟨pages, h1, h2, -, -, h4⟩ := h.pages a ha hid
  have hi : (va - a.vaddr) / 4096 < pages.length := by omega
  refine ⟨pages, pages[(va - a.vaddr) / 4096], h1, List.getElem?_eq_getElem hi, ?_⟩
  rw [← h4 _ _ (List.getElem?_eq_getElem hi)]
  exact (translate_page (by omega)).symm

/-- The attached pages are behind frames of the segments they name. -/
theorem sharedIn (h : Attached s m u) (hal : PageAligned u)
    (hsm : ∀ l id f, m.pagesOf id = some l → f ∈ l → f < 2 ^ 64)
    (hm : ∀ a ∈ u.shmAttached, 0 ≤ a.shmid → m'.pagesOf a.shmid = m.pagesOf a.shmid) :
    SharedIn s u m'.frames := fun va _ p flags hp ⟨a, ha, hid, hva⟩ => by
  obtain ⟨pages, f, h1, h2, h3⟩ := h.frame ha hid hva (hal.attachments a ha)
  rw [h3] at hp
  cases hp
  have hf := List.mem_of_getElem? h2
  rw [BitVec.toNat_ofNat, Nat.mod_eq_of_lt (hsm _ _ f h1 hf)]
  exact Shm.pagesOf_frames ((hm a ha hid).trans h1) hf

end Attached

theorem WxOk.congr {r : Nat} (h : WxOk s r)
    (hu : ∀ va < 0x800000000000, s'.translate r va = s.translate r va) : WxOk s' r :=
  fun va hva p flags hp => h va hva p flags ((hu va hva).symm.trans hp)

theorem OwnerSound.congr (h : OwnerSound s m t) (hu : Unaffected s s' t.toOwner)
    (hm : ∀ a ∈ t.shmAttached, 0 ≤ a.shmid → m'.pagesOf a.shmid = m.pagesOf a.shmid) :
    OwnerSound s' m' t :=
  ⟨h.layout.congr hu, h.attached.congr hu.map hm, h.wx.congr hu.map⟩

/-! ## All tasks -/

structure World (c : HeapClient) (m : Shm) (us : List UserTask) (rest ps : List Nat) : Prop where
  memory : Memory c (owners us) m.frames rest (userBlocks us ++ m.blocks ++ ps)
  shm : m.Ok
  small : ∀ g ∈ m.frames, g < 2 ^ 64
  owner : ∀ t ∈ us, t.owns = true → OwnerSound c.phys m t
  bare : ∀ t ∈ us, t.owns = false → Bare t
  /-- A segment counts the records that name it. -/
  counts : ∀ s ∈ m.segments, s.inUse = true → s.refcount.toNat = attachCount us s.shmid

namespace World

variable (h : World c m us rest ps)

include h

theorem attached_named (ht : t ∈ us) {a : ShmAttach} (ha : a ∈ t.shmAttached) (hid : 0 ≤ a.shmid) :
    t.owns = true := by
  by_contra hc
  have hb := (h.bare t ht (Bool.not_eq_true _ ▸ hc)).attached
  rw [hb] at ha
  rw [List.eq_of_mem_replicate ha] at hid
  exact absurd hid (by decide)

/-- A segment without references is named by no record. -/
theorem not_named {i : Nat} {seg : ShmSegment} (hn : m.Names i id seg) (hr : seg.refcount = 0)
    (ht : t ∈ us) : ∀ a ∈ t.shmAttached, a.shmid ≠ id := fun a ha he => by
  have hc := h.counts seg hn.mem hn.used
  rw [hr, hn.id] at hc
  have hpos : 0 < attachCount us id := List.countP_pos_iff.mpr
    ⟨a, List.mem_flatMap.mpr ⟨t, ht, ha⟩, by rw [he, beq_self_eq_true]⟩
  have h0 : (0 : UInt32).toNat = 0 := rfl
  omega

/-- The owner `t`, for the calls of the user heap. -/
theorem userOk (hu : us = us₁ ++ t :: us₂) (ho : t.owns = true) :
    UserOk c (owners us₁) (owners us₂) t m.frames rest
      (userBlocks us₁ ++ userBlocks us₂ ++ m.blocks ++ ps) := by
  subst hu
  refine ⟨?_, (h.owner t (List.mem_append_right _ List.mem_cons_self) ho).layout⟩
  have hm := h.memory
  rw [owners_middle ho] at hm
  refine hm.perm (.refl _) (.refl _) ?_
  have := (@userBlocks_middle t us₁ us₂).append_right (m.blocks ++ ps)
  simpa only [List.append_assoc] using this

/-- The attached pages of an owner, over segments that keep those it names. -/
theorem sharedIn (ht : t ∈ us) (ho : t.owns = true)
    (hm : ∀ a ∈ t.shmAttached, 0 ≤ a.shmid → m'.pagesOf a.shmid = m.pagesOf a.shmid) :
    SharedIn c.phys t.toOwner m'.frames :=
  (h.owner t ht ho).attached.sharedIn (h.owner t ht ho).layout.aligned
    (fun _ _ _ hl hf => h.small _ (Shm.pagesOf_frames hl hf)) hm

/-- **Work that is about no task**: the owners see nothing, and the segments are the same. -/
theorem keep (hm : Memory c' (owners us) m.frames rest' (userBlocks us ++ m.blocks ++ ps'))
    (hs : Stable c c' (owners us)) : World c' m us rest' ps' :=
  ⟨hm, h.shm, h.small, fun t ht ho =>
    (h.owner t ht ho).congr (hs.unaffected _ (mem_owners ht ho)) fun _ _ _ => rfl, h.bare, h.counts⟩

/-- **A call for one owner**, which may change what the segments count. -/
theorem swap (hu : us = us₁ ++ t :: us₂) (ho' : t'.owns = true)
    (hm : UserOk c' (owners us₁) (owners us₂) t' m.frames rest
      (userBlocks us₁ ++ userBlocks us₂ ++ m.blocks ++ ps))
    (hs : OwnerSound c'.phys m t') (hun : ∀ u ∈ owners us₁ ++ owners us₂,
      Unaffected c.phys c'.phys u)
    (hr : m.Recounted m') (hcnt : ∀ s ∈ m'.segments, s.inUse = true →
      s.refcount.toNat = attachCount (us₁ ++ t' :: us₂) s.shmid) :
    World c' m' (us₁ ++ t' :: us₂) rest ps := by
  subst hu
  have hp := hr.pagesOf h.shm
  refine ⟨?_, hr.ok h.shm, hr.frames.symm ▸ h.small, fun x hx hxo => ?_, fun x hx hxo => ?_, hcnt⟩
  · rw [owners_middle ho', hr.frames, hr.blocks]
    refine hm.memory.perm (.refl _) (.refl _) ?_
    have := ((@userBlocks_middle t' us₁ us₂).append_right (m.blocks ++ ps)).symm
    simpa only [List.append_assoc] using this
  · rcases List.mem_append.mp hx with hx | hx
    · exact (h.owner x (List.mem_append_left _ hx) hxo).congr
        (hun _ (List.mem_append_left _ (mem_owners hx hxo))) fun _ _ _ => hp _
    rcases List.mem_cons.mp hx with rfl | hx
    · exact hs.congr .refl fun _ _ _ => hp _
    · exact (h.owner x (List.mem_append_right _ (List.mem_cons_of_mem _ hx)) hxo).congr
        (hun _ (List.mem_append_right _ (mem_owners hx hxo))) fun _ _ _ => hp _
  · rcases List.mem_append.mp hx with hx | hx
    · exact h.bare x (List.mem_append_left _ hx) hxo
    rcases List.mem_cons.mp hx with rfl | hx
    · rw [ho'] at hxo
      cases hxo
    · exact h.bare x (List.mem_append_right _ (List.mem_cons_of_mem _ hx)) hxo

/-- **A call for one owner** that leaves the segments alone. -/
theorem replace (hu : us = us₁ ++ t :: us₂) (ho' : t'.owns = true)
    (hm : UserOk c' (owners us₁) (owners us₂) t' m.frames rest
      (userBlocks us₁ ++ userBlocks us₂ ++ m.blocks ++ ps))
    (ha : t'.shmAttached = t.shmAttached) (hs : OwnerSound c'.phys m t')
    (hun : ∀ u ∈ owners us₁ ++ owners us₂, Unaffected c.phys c'.phys u) :
    World c' m (us₁ ++ t' :: us₂) rest ps := by
  refine h.swap hu ho' hm hs hun (.refl h.shm) fun seg hseg hi => ?_
  rw [h.counts seg hseg hi, hu, attachCount_middle, attachCount_middle, ha]

omit h in
/-- The last owner. -/
theorem userOk_last (h : World c m (us ++ [t]) rest ps) (ho : t.owns = true) :
    UserOk c (owners us) [] t m.frames rest (userBlocks us ++ m.blocks ++ ps) := by
  have hu := h.userOk rfl ho
  rwa [show userBlocks [] = [] from rfl, List.append_nil] at hu

omit h in
theorem swap_last (h : World c m (us ++ [t]) rest ps) (ho' : t'.owns = true)
    (hm : UserOk c' (owners us) [] t' m.frames rest (userBlocks us ++ m.blocks ++ ps))
    (hs : OwnerSound c'.phys m t') (hun : ∀ u ∈ owners us, Unaffected c.phys c'.phys u)
    (hr : m.Recounted m') (hcnt : ∀ s ∈ m'.segments, s.inUse = true →
      s.refcount.toNat = attachCount (us ++ [t']) s.shmid) : World c' m' (us ++ [t']) rest ps := by
  refine h.swap rfl ho' ?_ hs (fun u hu => ?_) hr hcnt
  · rw [show userBlocks [] = [] from rfl, List.append_nil]
    exact hm
  · rw [show owners [] = [] from rfl, List.append_nil] at hu
    exact hun u hu

omit h in
theorem replace_last (h : World c m (us ++ [t]) rest ps) (ho' : t'.owns = true)
    (hm : UserOk c' (owners us) [] t' m.frames rest (userBlocks us ++ m.blocks ++ ps))
    (ha : t'.shmAttached = t.shmAttached) (hs : OwnerSound c'.phys m t')
    (hun : ∀ u ∈ owners us, Unaffected c.phys c'.phys u) : World c' m (us ++ [t']) rest ps := by
  refine h.swap_last ho' hm hs hun (.refl h.shm) fun seg hseg hi => ?_
  rw [h.counts seg hseg hi, attachCount_middle, attachCount_middle, ha]

end World

end GenOS
