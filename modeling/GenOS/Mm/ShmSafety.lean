import GenOS.Mm.World

/-!
# Shared memory keeps the world

Each call of `shm.c` keeps `World`: `releaseSegment_spec` gives the frames of a segment back, once,
when no record names it, `shmAttach_spec` and `detachRecord_spec` map and unmap a segment and count
it.
-/

namespace GenOS

open Phys Pmm

variable {c c' : HeapClient} {s s' : Phys} {m m' : Shm} {t t' : UserTask}
variable {us us₁ us₂ : List UserTask} {os : List Owner} {shared rest ps gone : List Nat} {id : Int}
variable {i slot : Nat} {seg : ShmSegment}

/-! ## Frames -/

theorem Memory.freeFrames_moves (h : Memory c os shared (gone ++ rest) ps) :
    Moves c.phys.pmm (gone.foldl freeFrame c.phys).pmm gone [] :=
  Phys.freeFrames_moves h.spaces.inv fun a ha => by
    have := h.spaces.count_rest_le ha
    simp only [List.count_append] at this
    omega

/-- Frames of nobody in particular go back. -/
theorem Memory.freeFrames (h : Memory c os shared (gone ++ rest) ps) :
    Memory (c.setPhys (gone.foldl freeFrame c.phys)) os shared rest ps ∧
      Stable c (c.setPhys (gone.foldl freeFrame c.phys)) os := by
  have hmv := h.freeFrames_moves
  obtain ⟨h', hun⟩ := h.release (foldl_freeFrame_kernel gone c.phys)
    (foldl_freeFrame_mem gone c.phys) hmv
  exact ⟨h', .setPhys (foldl_freeFrame_kernel gone c.phys)
    (fun g _ => by rw [foldl_freeFrame_mem]) hmv hun⟩

/-- Frames are taken, as work that no owner sees. -/
theorem Memory.takeFrames {new : List Nat} (h : Memory c os shared rest ps)
    (ht : Taken c.phys s new) :
    Memory (c.setPhys s) os shared (new ++ rest) ps ∧ Stable c (c.setPhys s) os := by
  obtain ⟨h', hun⟩ := h.take ht
  exact ⟨h', .setPhys ht.kernel (fun g hg => ht.mem_used (h.kernel_used hg)) ht.moves hun⟩

theorem Memory.freeBlock {p : Nat} (h : Memory c os shared rest (p :: ps)) :
    ∃ c', c.kfree p = some c' ∧ c'.phys = c.phys ∧ Memory c' os shared rest ps ∧
    Stable c c' os := by
  obtain ⟨c', he, hp, hr, h'⟩ := h.kfree
  refine ⟨c', he, hp, h', hr.keeps, hr.moves.total, hr.moves.reserved, fun u _ => ?_⟩
  rw [hp]
  exact .refl

/-! ## `release_segment` -/

/-- The frames and the block of a segment that no record names any more. -/
theorem release_frames (h : Memory c os shared (seg.physPages ++ rest) (seg.block :: ps))
    (hs : m.segment i = seg) : ∃ c', releaseSegment c m i = some (c', m.setSegment i {}) ∧
      Memory c' os shared rest ps ∧ Stable c c' os := by
  obtain ⟨h₁, hst₁⟩ := h.freeFrames
  obtain ⟨c', he, -, h', hst⟩ := h₁.freeBlock
  refine ⟨c', ?_, h', hst₁.trans hst⟩
  unfold releaseSegment
  rw [hs]
  simp only [he, Option.bind_eq_bind, Option.bind_some]

/-- Owners that do not name the id. -/
theorem World.sharedIn_clear (h : World c m us rest ps) (hn : m.Names i id seg)
    (hno : ∀ t ∈ us, ∀ a ∈ t.shmAttached, a.shmid ≠ id) {o : Owner} (ho : o ∈ owners us) :
    SharedIn c.phys o (m.setSegment i {}).frames := by
  obtain ⟨t, ht, hto, rfl⟩ := of_mem_owners ho
  exact h.sharedIn ht hto fun a ha _ => Shm.pagesOf_clear h.shm hn (hno t ht a ha)

/-- **A segment without references is released**, and each of its frames given back once. -/
theorem releaseSegment_spec (h : World c m us rest ps) (hn : m.Names i id seg)
    (hr : seg.refcount = 0) : ∃ c', releaseSegment c m i = some (c', m.setSegment i {}) ∧
      World c' (m.setSegment i {}) us rest ps ∧ Stable c c' (owners us) := by
  have hno : ∀ t ∈ us, ∀ a ∈ t.shmAttached, a.shmid ≠ id := fun t ht => h.not_named hn hr ht
  obtain ⟨R, B, har⟩ := Shm.around hn.found
  obtain ⟨hf, hb⟩ := har seg
  obtain ⟨hf', hb'⟩ := har {}
  rw [Shm.setSegment_self hn.found] at hf hb
  have hblock : seg.blocks = [seg.block] := if_pos hn.used
  have hframes : m.frames.Perm (seg.physPages ++ (m.setSegment i {}).frames) :=
    hf.trans (hf'.symm.append_left _)
  have hblocks : (userBlocks us ++ m.blocks ++ ps).Perm
      (seg.block :: (userBlocks us ++ (m.setSegment i {}).blocks ++ ps)) := by
    rw [hblock] at hb
    have h1 : m.blocks.Perm (seg.block :: (m.setSegment i {}).blocks) := hb.trans (.cons _ hb'.symm)
    have h2 :
        (userBlocks us ++ m.blocks).Perm
        (seg.block :: (userBlocks us ++ (m.setSegment i {}).blocks)) :=
      (h1.append_left _).trans List.perm_middle
    exact h2.append_right ps
  have hmem : Memory c (owners us) (m.setSegment i {}).frames (seg.physPages ++ rest)
      (seg.block :: (userBlocks us ++ (m.setSegment i {}).blocks ++ ps)) := by
    refine (h.memory.perm (.refl _) (.refl _) hblocks).reshare ?_ fun o ho =>
      h.sharedIn_clear hn hno ho
    refine .trans ?_ (hframes.append_right rest).symm
    rw [List.append_assoc]
    exact List.perm_append_comm_assoc ..
  obtain ⟨c', he, hm', hst⟩ := release_frames hmem (Shm.segment_eq hn.found)
  refine ⟨c', he,
    ⟨hm', h.shm.clear i, fun g hg => ?_, fun t ht ho => ?_, h.bare, fun x hx hu => ?_⟩, hst⟩
  · exact h.small g (hframes.mem_iff.mpr (List.mem_append_right _ hg))
  · exact (h.owner t ht ho).congr (hst.unaffected _ (mem_owners ht ho)) fun a ha _ =>
      Shm.pagesOf_clear h.shm hn (hno t ht a ha)
  · rcases Shm.mem_setSegment hx with rfl | hx
    · cases hu
    · exact h.counts x hx hu

/-! ## `shm_create` and `shm_destroy` -/

theorem shmTakePages_spec : ∀ (n : Nat) (s : Phys) (pages : List Nat), s.pmm.Inv →
    ∃ ok new s', shmTakePages n s pages = (ok, s', pages ++ new) ∧ Taken s s' new ∧
      (∀ f ∈ new, s'.mem f = fun _ => 0#64) ∧ (ok = true → new.length = n)
  | 0, s, pages, h => ⟨true, [], s, by rw [List.append_nil]; rfl, .refl h, nofun, fun _ => rfl⟩
  | n + 1, s, pages, h => by
    rw [shmTakePages]
    rcases allocFrame_cases h with ha | ⟨f, p, ha, h0, hf, hm⟩
    · rw [ha]
      dsimp only
      rw [if_pos rfl]
      exact ⟨false, [], { s with asked := s.asked + 1 }, by rw [List.append_nil],
        ⟨.refl h, nofun, .nil, fun _ _ => rfl, rfl⟩, nofun, nofun⟩
    rw [ha]
    dsimp only
    rw [if_neg h0]
    have ht := taken_zero hf hm (s.asked + 1)
    obtain ⟨ok, new, s', he, hn, hz, hlen⟩ := shmTakePages_spec n _ (pages ++ [f]) ht.moves.inv
    refine ⟨ok, f :: new, s', ?_, ht.trans hn, fun g hg => ?_,
      fun hok => congrArg (· + 1) (hlen hok)⟩
    · rw [he, List.append_assoc]
      rfl
    · rcases List.mem_cons.mp hg with rfl | hg
      · rw [hn.mem_used (ht.used (List.mem_singleton_self _))]
        exact funext fun _ => by simp [zeroFrame]
      · exact hz g hg

/-- The segment that a successful `shm_create` makes. -/
structure ShmCreated (m m' : Shm) (i : Nat) (new : ShmSegment) (pages : Nat) : Prop where
  unused : m.segments[i]? = some {}
  state : m' = { m.setSegment i new with nextShmid := m.nextShmid + 1 }
  used : new.inUse = true
  id : new.shmid = m.nextShmid
  refcount : new.refcount = 0
  ok : SegmentOk (m.nextShmid + 1) new
  length : new.physPages.length = pages

namespace ShmCreated

variable {new : ShmSegment} {pages : Nat}

theorem names (h : ShmCreated m m' i new pages) : m'.Names i m.nextShmid new := by
  rw [h.state]
  exact ⟨Shm.getElem?_setSegment_self h.unused new, h.used, h.id⟩

theorem names_old (h : ShmCreated m m' i new pages) {j : Nat} {x : ShmSegment}
    (hn : m.Names j id x) :
    m'.Names j id x := by
  have hj : j ≠ i := fun hj => by
    subst hj
    obtain rfl : x = {} := Option.some.inj (hn.found.symm.trans h.unused)
    cases hn.used
  have hset := (@Shm.names_setSegment_ne _ _ _ _ new _ hj).mpr hn
  rw [h.state]
  exact ⟨hset.found, hset.used, hset.id⟩

/-- A segment in use is the new one, or an old one. -/
theorem cases (h : ShmCreated m m' i new pages) {j : Nat} {x : ShmSegment} (hn : m'.Names j id x) :
    (j = i ∧ x = new) ∨ m.Names j id x := by
  rw [h.state] at hn
  by_cases hj : j = i
  · subst hj
    exact .inl
      ⟨rfl, Option.some.inj (hn.found.symm.trans (Shm.getElem?_setSegment_self h.unused new))⟩
  · have hset : (m.setSegment i new).Names j id x := ⟨hn.found, hn.used, hn.id⟩
    exact .inr ((Shm.names_setSegment_ne hj).mp hset)

theorem shmOk (h : ShmCreated m m' i new pages) (hm : m.Ok) : m'.Ok := by
  have hlt : ∀ {j id x}, m.Names j id x → id < m.nextShmid := fun {j id x} hn => by
    rw [← hn.id]
    exact (hm.used x hn.mem hn.used).lt
  have hnew : new.shmid = m.nextShmid := h.id
  refine ⟨?_, fun x hx hu => ?_, fun x hx hu => ?_, fun {j k id x y} h1 h2 => ?_, ?_⟩
  · rw [h.state]
    exact (List.length_set ..).trans hm.length
  · rw [h.state] at hx
    rcases Shm.mem_setSegment hx with rfl | hx
    · rw [h.used] at hu
      cases hu
    · exact hm.unused x hx hu
  · rw [h.state] at hx ⊢
    rcases Shm.mem_setSegment hx with rfl | hx
    · exact h.ok
    · obtain ⟨h1, h2, h3, h4⟩ := hm.used x hx hu
      exact ⟨h1, by simp only; omega, h3, h4⟩
  · rcases h.cases h1 with ⟨rfl, rfl⟩ | ho1
    · rcases h.cases h2 with ⟨rfl, -⟩ | ho2
      · rfl
      · have := hlt ho2
        rw [← h1.id, hnew] at this
        omega
    · rcases h.cases h2 with ⟨rfl, rfl⟩ | ho2
      · have := hlt ho1
        rw [← h2.id, hnew] at this
        omega
      · exact hm.distinct ho1 ho2
  · rw [h.state]
    exact Nat.succ_pos _

theorem pagesOf (h : ShmCreated m m' i new pages) (hm : m.Ok) {l : List Nat}
    (hp : m.pagesOf id = some l) :
    m'.pagesOf id = some l := by
  obtain ⟨j, x, hx, rfl⟩ := Shm.pagesOf_some hp
  exact (h.names_old hx).pagesOf (h.shmOk hm)

end ShmCreated

/-- An id that no segment has is named by no record. -/
theorem World.attachCount_zero (h : World c m us rest ps) (hid : 0 ≤ id)
    (hno : ∀ j x, ¬ m.Names j id x) : attachCount us id = 0 := by
  refine List.countP_eq_zero.mpr fun a ha he => ?_
  obtain ⟨t, ht, hat⟩ := List.mem_flatMap.mp ha
  rw [beq_iff_eq] at he
  have hto := h.attached_named ht hat (he ▸ hid)
  obtain ⟨pages, hp, -⟩ := (h.owner t ht hto).attached.pages a hat (he ▸ hid)
  obtain ⟨j, x, hx, -⟩ := Shm.pagesOf_some hp
  exact hno j x (he ▸ hx)

theorem ShmCreated.world {new : ShmSegment} {pages : Nat} (hc : ShmCreated m m' i new pages)
    (h : World c m us (new.physPages ++ rest) (new.block :: ps))
    (hlt : ∀ g ∈ new.physPages, g < 2 ^ 64) : World c m' us rest ps := by
  have hok := hc.shmOk h.shm
  obtain ⟨R, B, har⟩ := Shm.around hc.unused
  obtain ⟨hf, hb⟩ := har {}
  obtain ⟨hf', hb'⟩ := har new
  rw [Shm.setSegment_self hc.unused] at hf hb
  have hfr : m'.frames = (m.setSegment i new).frames := by
    rw [hc.state]
    rfl
  have hbl : m'.blocks = (m.setSegment i new).blocks := by
    rw [hc.state]
    rfl
  have hblock : new.blocks = [new.block] := if_pos hc.used
  have hframes : m'.frames.Perm (new.physPages ++ m.frames) := by
    rw [hfr]
    exact hf'.trans (hf.symm.append_left _)
  have hpages : ∀ t ∈ us, t.owns = true → ∀ a ∈ t.shmAttached, 0 ≤ a.shmid →
      m'.pagesOf a.shmid = m.pagesOf a.shmid := fun t ht hto a ha hid => by
    obtain ⟨l, hl, -⟩ := (h.owner t ht hto).attached.pages a ha hid
    rw [hl]
    exact hc.pagesOf h.shm hl
  have hblocks : (userBlocks us ++ m.blocks ++ new.block :: ps).Perm
      (userBlocks us ++ m'.blocks ++ ps) := by
    have h1 : m'.blocks.Perm (new.block :: m.blocks) := by
      rw [hbl]
      exact hb'.trans (by rw [hblock]; exact (hb.symm.cons _))
    have h2 : (userBlocks us ++ m'.blocks).Perm (new.block :: (userBlocks us ++ m.blocks)) :=
      (h1.append_left _).trans List.perm_middle
    exact List.perm_middle.trans (h2.append_right ps).symm
  refine ⟨?_, hok, fun g hg => ?_, fun t ht hto => ?_, h.bare, fun x hx hu => ?_⟩
  · refine (h.memory.perm (.refl _) (.refl _) hblocks).reshare ?_ fun o ho => ?_
    · refine (hframes.append_right rest).trans ?_
      rw [List.append_assoc]
      exact List.perm_append_comm_assoc ..
    · obtain ⟨t, ht, hto, rfl⟩ := of_mem_owners ho
      exact h.sharedIn ht hto (hpages t ht hto)
  · exact (List.mem_append.mp (hframes.mem_iff.mp hg)).elim (hlt g) (h.small g)
  · exact (h.owner t ht hto).congr .refl (hpages t ht hto)
  · obtain ⟨j, hj⟩ := List.getElem?_of_mem hx
    rcases hc.cases ⟨hj, hu, rfl⟩ with ⟨-, rfl⟩ | hn
    · have hz : attachCount us x.shmid = 0 := by
        rw [hc.id]
        refine h.attachCount_zero (by omega) fun j y hn => ?_
        have := (h.shm.used y hn.mem hn.used).lt
        rw [hn.id] at this
        omega
      rw [hz, hc.refcount]
      rfl
    · exact h.counts x hn.mem hu

/-- **`shm_create`** fails and leaves everything as it was, or makes a segment of zeroed frames. -/
theorem shmCreate_spec (h : World c m us rest ps) (pid : Nat) (owner : Option Nat) (size : Nat) :
    (∃ c', shmCreate c m pid owner size = some (-1, c', m) ∧ World c' m us rest ps ∧
      Stable c c' (owners us)) ∨
    ∃ c' m' i new, shmCreate c m pid owner size = some ((m.nextShmid : Int), c', m') ∧
      ShmCreated m m' i new ((size + 4095) / 4096) ∧ World c' m' us rest ps ∧
      Stable c c' (owners us) ∧ new.creatorPid = owner.getD pid := by
  unfold shmCreate
  split
  · exact .inl ⟨c, rfl, h, .refl⟩
  next hargs =>
  simp only [not_or, Nat.not_lt] at hargs
  obtain ⟨h0, hmax, -⟩ := hargs
  cases hf : m.segments.findIdx? fun s => !s.inUse with
  | none => exact .inl ⟨c, rfl, h, .refl⟩
  | some i =>
    obtain ⟨hi, hun, -⟩ := List.findIdx?_eq_some_iff_getElem.mp hf
    have hseg : m.segments[i]? = some {} := by
      rw [List.getElem?_eq_getElem hi, h.shm.unused _ (List.getElem_mem hi) (by simpa using hun)]
    dsimp only
    obtain ⟨block, c₁, he, hst, hm⟩ := h.memory.kmalloc ((size + 4095) / 4096 * 8)
    simp only [he, Option.bind_eq_bind, Option.bind_some]
    by_cases hb : block = 0
    · rw [if_pos hb] at hm
      rw [if_pos hb]
      exact .inl ⟨c₁, rfl, h.keep hm hst.stable, hst.stable⟩
    rw [if_neg hb] at hm
    rw [if_neg hb]
    obtain ⟨ok, new, s₂, ht, htk, -, hlen⟩ := shmTakePages_spec ((size + 4095) / 4096) c₁.phys []
      hm.spaces.inv
    rw [List.nil_append] at ht
    obtain ⟨hm₂, hst₂⟩ := hm.takeFrames htk
    rw [ht]
    cases ok with
    | false =>
      dsimp only
      obtain ⟨c₃, hr, hm₃, hst₃⟩ :=
        @release_frames _ (m.setSegment i { physPages := new, block }) _ _ _ _ _
        { physPages := new, block } hm₂
        (Shm.segment_eq (Shm.getElem?_setSegment_self hseg _))
      have hback : (m.setSegment i { physPages := new, block }).setSegment i {} = m := by
        unfold Shm.setSegment
        rw [List.set_set]
        exact Shm.setSegment_self hseg
      rw [hback] at hr
      rw [hr]
      have hall := hst.stable.trans (hst₂.trans hst₃)
      exact .inl ⟨c₃, rfl, h.keep hm₃ hall, hall⟩
    | true =>
      dsimp only
      have hall := hst.stable.trans hst₂
      have hsz : size ≤ 16777216 := by omega
      have hc : ShmCreated m { (m.setSegment i
          { inUse := true, shmid := m.nextShmid, physPages := new, block, size, refcount := 0
            creatorPid := owner.getD pid }) with nextShmid := m.nextShmid + 1 } i
          { inUse := true, shmid := m.nextShmid, physPages := new, block, size, refcount := 0
            creatorPid := owner.getD pid } ((size + 4095) / 4096) := by
        have hpos := h.shm.next
        exact ⟨hseg, rfl, rfl, rfl, rfl, ⟨by simp only; omega, by simp only; omega,
          ⟨Nat.pos_of_ne_zero h0, hmax⟩, hlen rfl⟩, hlen rfl⟩
      refine .inr ⟨_, _, i, _, rfl, hc, ?_, hall, rfl⟩
      have hw : World (c₁.setPhys s₂) m us (new ++ rest) (block :: ps) := by
        refine h.keep (hm₂.perm (.refl _) (.refl _) ?_) hall
        exact List.perm_middle.symm
      refine hc.world hw fun g hg => ?_
      have h1 := (htk.fresh g hg).1.lt
      have h2 : c₁.phys.pmm.totalPages ≤ 2 ^ 40 := hm.spaces.small
      omega

/-- **`shm_destroy`** releases a segment that no record names. -/
theorem shmDestroy_spec (h : World c m us rest ps) (id : Int) :
    shmDestroy c m id = some (-1, c, m) ∨ ∃ i seg c', m.Names i id seg ∧ seg.refcount = 0 ∧
      shmDestroy c m id = some (0, c', m.setSegment i {}) ∧
      World c' (m.setSegment i {}) us rest ps ∧ Stable c c' (owners us) := by
  unfold shmDestroy
  cases hf : m.findSegment id with
  | none => exact .inl rfl
  | some i =>
    obtain ⟨seg, hn⟩ := Shm.findSegment_some hf
    dsimp only
    rw [Shm.segment_eq hn.found]
    by_cases hr : seg.refcount = 0
    · obtain ⟨c', he, hw, hst⟩ := releaseSegment_spec h hn hr
      rw [if_neg (not_not.mpr hr), he]
      exact .inr ⟨i, seg, c', hn, hr, rfl, hw, hst⟩
    · exact .inl (if_pos hr)

/-! ## `shm_attach` -/

/-- The counts after a record of one owner changed: those of the segment `id` by what the slot
changed. -/
theorem World.counts_set (h : World c m (us₁ ++ t :: us₂) rest ps) (hn : m.Names i id seg)
    {old new : ShmAttach} {n : UInt32} (hs : Reslot t.toOwner t'.toOwner slot old new)
    (hold : old.shmid = id ∨ old.shmid < 0) (hnew : new.shmid = id ∨ new.shmid < 0)
    (hcnt : n.toNat + (if old.shmid = id then 1 else 0) =
      seg.refcount.toNat + if new.shmid = id then 1 else 0) :
    ∀ x ∈ (m.setSegment i { seg with refcount := n }).segments, x.inUse = true →
      x.refcount.toNat = attachCount (us₁ ++ t' :: us₂) x.shmid := fun x hx hu => by
  obtain ⟨l₁, l₂, h1, h2⟩ := hs.split
  have hpos : 0 < id := hn.id ▸ (h.shm.used seg hn.mem hn.used).pos
  have hcount : ∀ k : Int, attachCount (us₁ ++ t' :: us₂) k + (if old.shmid = k then 1 else 0) =
      attachCount (us₁ ++ t :: us₂) k + if new.shmid = k then 1 else 0 := fun k => by
    rw [attachCount_middle, attachCount_middle, h1, h2]
    simp only [List.countP_append, List.countP_cons, beq_iff_eq]
    omega
  obtain ⟨j, hj⟩ := List.getElem?_of_mem hx
  have hxn : (m.setSegment i { seg with refcount := n }).Names j x.shmid x := ⟨hj, hu, rfl⟩
  have hc := hcount x.shmid
  by_cases hji : j = i
  · subst hji
    rw [Shm.getElem?_setSegment_self hn.found] at hj
    cases hj
    have hold := h.counts seg hn.mem hn.used
    simp only at hc ⊢
    rw [hn.id] at hc hold ⊢
    omega
  · have hxm := (Shm.names_setSegment_ne hji).mp hxn
    have hne : x.shmid ≠ id := fun he => hji (h.shm.distinct (he ▸ hxm) hn)
    have hxpos := (h.shm.used x hxm.mem hu).pos
    have := h.counts x hxm.mem hu
    rw [if_neg (by omega), if_neg (by omega)] at hc
    omega

/-- What a successful `shm_attach` did. -/
structure AttachStep (s s' : Phys) (m m' : Shm) (t t' : UserTask) (id : Int)
    (base : Nat) : Prop where
  state : ∃ l, t' = { t with shmAttached := l }
  segment : ∃ i seg, m.Names i id seg ∧
    m' = m.setSegment i { seg with refcount := seg.refcount + 1 } ∧
    (∃ slot, Reslot t.toOwner t'.toOwner slot .unused ⟨id, base, .ofNat seg.physPages.length⟩) ∧
    ∀ va < 0x800000000000, s'.translate t.pml4 va =
      (s.translate t.pml4).insert base (seg.physPages.map (BitVec.ofNat 64)) vmmFlagsUserData va
  records : FreshRecords s t.toOwner t'.toOwner
  contents : ∀ va < 0x800000000000, ∀ p flags, s.translate t.pml4 va = some (p, flags) →
    s'.mem p.toNat = s.mem p.toNat

/-- The layout and the attachments of an owner with one more attachment. -/
theorem OwnerSound.attach {base : Nat} (h : OwnerSound s m t) (hn : m.Names i id seg) (hm : m.Ok)
    (hs : Reslot t.toOwner t'.toOwner slot .unused ⟨id, base, .ofNat seg.physPages.length⟩)
    (hp : t'.isThread = t.isThread) (hb : t'.allocationBlocks = t.allocationBlocks)
    (hcap : t'.userPageCapacity = t.userPageCapacity)
    (hc : Candidate s t.toOwner userShmBase userShmEnd ((seg.physPages.length + 1) * 4096) base)
    (hmap : ∀ va < 0x800000000000, s'.translate t.pml4 va =
      (s.translate t.pml4).insert base (seg.physPages.map (BitVec.ofNat 64)) vmmFlagsUserData va)
    (hpriv : ∀ p ∈ t.userPages, p.vaddr < 0x800000000000 ∧ s.translate t.pml4 p.vaddr ≠ none) :
    OwnerSound s' m t' := by
  have hok := hm.used seg hn.mem hn.used
  obtain ⟨hn0, -, hcount⟩ := hok.count
  have hpos : 0 < id := hn.id ▸ hok.pos
  have hwl : (seg.physPages.map (BitVec.ofNat 64)).length = seg.physPages.length :=
    List.length_map ..
  obtain ⟨-, hhi, hal, hfree⟩ := hc
  replace hhi : base + (seg.physPages.length + 1) * 4096 ≤ 0x800000000000 :=
    Nat.le_trans hhi (by decide)
  refine ⟨?_, ⟨?_, fun a ha hid => ?_, fun a ha hid => ?_, fun p hp hi => ?_⟩,
    fun va hva p flags hq hw => ?_⟩
  · refine h.layout.attach hs hp hb hcap (by decide) (Int.le_of_lt hpos)
      (hcount.trans hwl.symm) hal ?_ ?_ hmap
    · rw [hwl]
      exact hhi
    · rw [hwl]
      exact hfree
  · rw [hs.attached, List.length_set]
    exact h.attached.slots
  · rcases hs.mem ha with rfl | ha
    · refine ⟨seg.physPages, hn.pagesOf hm, hcount.symm, hn0, ?_, fun j f hj => ?_⟩
      · have hspan :
            base + seg.physPages.length * 4096 ≤ base + (seg.physPages.length + 1) * 4096 :=
          Nat.add_le_add_left (Nat.mul_le_mul_right _ (Nat.le_succ _)) _
        exact hcount.symm ▸ Nat.le_trans hspan hhi
      have hjl := (List.getElem?_eq_some_iff.mp hj).1
      simp only
      rw [hs.root, hmap _ (by omega)]
      unfold AddrMap.insert
      rw [if_pos (by simp only [hwl]; omega)]
      rw [show (base + j * 4096 - base) / 4096 = j by omega, List.getElem?_map, hj]
      rfl
    · obtain ⟨pages, h1, h2, h0, h3, h4⟩ := h.attached.pages a ha hid
      refine ⟨pages, h1, h2, h0, h3, fun j f hj => ?_⟩
      have hjl := (List.getElem?_eq_some_iff.mp hj).1
      rw [hs.root, hmap _ (by omega)]
      refine (if_neg ?_).trans (h4 j f hj)
      have := hfree.attachments a ha hid
      unfold Apart guardEnd at this
      simp only [hwl]
      omega
  · rcases hs.mem ha with rfl | ha
    · simp only at hid
      omega
    · exact h.attached.unused a ha hid
  · rw [hs.records] at hp
    obtain ⟨a, ha, hid, h1, h2⟩ := hi
    rcases hs.mem ha with rfl | ha
    · simp only [hcount] at h1 h2
      exact (hpriv p hp).2 (hfree.unmapped _ h1 (Nat.lt_of_lt_of_le h2
        (Nat.add_le_add_left (Nat.mul_le_mul_right _ (Nat.le_succ _)) _)))
    · exact h.attached.apart p hp ⟨a, ha, hid, h1, h2⟩
  · rw [hs.root, hmap va hva] at hq
    unfold AddrMap.insert at hq
    split at hq
    · obtain ⟨q, -, he⟩ := Option.map_eq_some_iff.mp hq
      cases he
      decide
    · exact h.wx va hva p flags hq hw

/-- A mapping that failed: its tables are gone again. -/
theorem World.mapFailed (h : World c m (us₁ ++ t :: us₂) rest ps) (ho : t.owns = true)
    (hed : Edited c.phys s t.pml4 (c.phys.translate t.pml4))
    (hmv : Moves c.phys.pmm s.pmm [] []) :
    World (c.setPhys s) m (us₁ ++ t :: us₂) rest ps ∧
      Stable c (c.setPhys s) (owners (us₁ ++ t :: us₂)) := by
  have hsound := h.owner t (List.mem_append_right _ List.mem_cons_self) ho
  have huser := h.userOk rfl ho
  have hown : OwnerOk c.phys t.toOwner m.frames := huser.memory.spaces.owner _
    (List.mem_append_right _ List.mem_cons_self)
  have hch := huser.memory.edit hed rfl hown.recorded (.refl _)
  obtain ⟨hm₂, hun₂⟩ := huser.memory.update hch
  have hself : Unaffected c.phys s t.toOwner := ⟨hed.map, fun va hva p flags hq =>
    huser.memory.spaces.own_contents hch hva hq⟩
  have hun : ∀ u ∈ owners (us₁ ++ t :: us₂), Unaffected c.phys s u := fun u hu => by
    rw [owners_middle ho] at hu
    exact (middle_cases hu).elim (fun he => he ▸ hself) (hun₂ u)
  exact ⟨h.replace rfl ho ⟨hm₂, hsound.layout.congr hself⟩ rfl
    (hsound.congr hself fun _ _ _ => rfl) hun₂,
    .setPhys hch.kernel (huser.memory.spaces.kernel_mem hch) hmv hun⟩

/-- The owner with the record `a` in the slot. -/
def UserTask.withAttachment (t : UserTask) (slot : Nat) (a : ShmAttach) : UserTask :=
  { t with shmAttached := t.shmAttached.set slot a }

/-- The new record is over a free range. -/
theorem Reslot.freshRecords {t t' : Owner} {a : ShmAttach} (h : Reslot t t' slot .unused a)
    (hf : FreeRange s t ((a.pageCount.toNat + 1) * 4096) a.vaddr) :
    FreshRecords s t t' := fun r hr => by
  rcases mem_recordsOf.mp hr with ⟨b, hb, rfl⟩ | ⟨b, hb, hid, rfl⟩
  · exact .inl (mem_recordsOf.mpr (.inl ⟨b, h.allocations ▸ hb, rfl⟩))
  · rcases h.mem hb with rfl | hb
    · exact .inr hf
    · exact .inl (mem_recordsOf.mpr (.inr ⟨b, hb, hid, rfl⟩))

/-- **The pages of a segment are mapped**, and it counts the record. -/
theorem World.attach {base : Nat} (h : World c m (us₁ ++ t :: us₂) rest ps) (ho : t.owns = true)
    (hn : m.Names i id seg) (hmax : seg.refcount ≠ 4294967295)
    (hslot : t.shmAttached[slot]? = some .unused)
    (hcand : Candidate c.phys t.toOwner userShmBase userShmEnd
      ((seg.physPages.length + 1) * 4096) base)
    (hmap : RangeMapped t.pml4 lowerHalf c.phys s (fun i => base + i * 4096)
      (seg.physPages.map (BitVec.ofNat 64)) vmmFlagsUserData)
    (ht : t' = t.withAttachment slot ⟨id, base, .ofNat seg.physPages.length⟩)
    (hm : m' = m.setSegment i { seg with refcount := seg.refcount + 1 }) :
    World (c.setPhys s) m' (us₁ ++ t' :: us₂) rest ps ∧ AttachStep c.phys s m m' t t' id base ∧
      ∀ u ∈ owners us₁ ++ owners us₂, Unaffected c.phys s u := by
  subst hm
  have hsound := h.owner t (List.mem_append_right _ List.mem_cons_self) ho
  have huser := h.userOk rfl ho
  have hok := h.shm.used seg hn.mem hn.used
  obtain ⟨hn0, -, hcount⟩ := hok.count
  have hwl : (seg.physPages.map (BitVec.ofNat 64)).length = seg.physPages.length :=
    List.length_map ..
  have hu : UserRange base (seg.physPages.map (BitVec.ofNat 64)).length := by
    rw [hwl]
    exact hcand.userRange hn0 (by decide)
  have hown : OwnerOk c.phys t.toOwner m.frames := huser.memory.spaces.owner _
    (List.mem_append_right _ List.mem_cons_self)
  have hre : Reslot t.toOwner t'.toOwner slot .unused
      ⟨id, base, .ofNat seg.physPages.length⟩ := by
    rw [ht]
    exact ⟨hslot, rfl, rfl, rfl, rfl⟩
  have ho' : t'.owns = true := by rw [ht]; exact ho
  have hbl : t'.blocks = t.blocks := by rw [ht]; rfl
  have hpos : 0 < id := hn.id ▸ hok.pos
  have hed := hmap.edited hown hu
  have hshared : ∀ p ∈ seg.physPages.map (BitVec.ofNat 64), p.toNat ∈ m.frames := fun p hp => by
    obtain ⟨f, hf, rfl⟩ := List.mem_map.mp hp
    have hmem : f ∈ m.frames := List.mem_flatMap.mpr ⟨seg, hn.mem, hf⟩
    rw [BitVec.toNat_ofNat, Nat.mod_eq_of_lt (h.small f hmem)]
    exact hmem
  have hplain : vmmFlagsUserData.has pteWrite = true →
    vmmFlagsUserData.has pteCow = false := by decide
  have hunmapped : ∀ va, InRange base (seg.physPages.map (BitVec.ofNat 64)).length va →
      c.phys.translate t.pml4 va = none := fun va hva =>
    hcand.2.2.2.unmapped va hva.1 (Nat.lt_of_lt_of_le (hwl ▸ hva.2)
      (Nat.add_le_add_left (Nat.mul_le_mul_right _ (Nat.le_succ _)) _))
  have hrec := hown.recorded.attach hre (by decide) (Int.le_of_lt hpos) (hcount.trans hwl.symm)
    hunmapped hshared hplain
  have hch := huser.memory.edit hed hre.root hrec (by rw [hre.records])
  obtain ⟨hm₂, hun₂⟩ := huser.memory.update hch
  have hsound₂ : OwnerSound s m t' := hsound.attach hn h.shm hre (by rw [ht]; rfl)
    (by rw [ht]; rfl) (by rw [ht]; rfl) hcand hed.map fun p hp => by
      obtain ⟨-, h2, -, fl, h4⟩ := hown.records p hp
      exact ⟨h2, by rw [h4]; exact Option.some_ne_none _⟩
  have hcnt : (seg.refcount + 1).toNat = seg.refcount.toNat + 1 := by
    have hlt := seg.refcount.toNat_lt
    have hne : seg.refcount.toNat ≠ 4294967295 := fun hc => hmax (UInt32.toNat_inj.mp hc)
    rw [UInt32.toNat_add]
    have : (1 : UInt32).toNat = 1 := rfl
    omega
  have hfree : FreeRange c.phys t.toOwner
      (((UInt32.ofNat seg.physPages.length).toNat + 1) * 4096) base := by
    rw [hcount]
    exact hcand.2.2.2
  refine ⟨h.swap rfl ho' ⟨hbl ▸ hm₂, hsound₂.layout⟩ hsound₂ hun₂ (hn.recounted h.shm _)
    (h.counts_set hn hre (.inr (by decide)) (.inl rfl) ?_), ⟨⟨_, ht⟩, ⟨i, seg, hn, rfl,
      ⟨slot, hre⟩, hed.map⟩, hre.freshRecords hfree, fun va hva p flags hq =>
      huser.memory.spaces.own_contents hch hva hq⟩, hun₂⟩
  have hun0 : ShmAttach.unused.shmid = -1 := rfl
  rw [hun0, if_neg (by omega), if_pos rfl, hcnt]

/-- **`shm_attach`** fails and leaves everything as it was, or maps the segment at a free place and
counts the new record. -/
theorem shmAttach_spec (h : World c m (us₁ ++ t :: us₂) rest ps) (hp : t.isThread = false)
    (id : Int) (pml4 : Nat) :
    (∃ c', shmAttach c m t id pml4 = (0, c', m, t) ∧ World c' m (us₁ ++ t :: us₂) rest ps ∧
      Stable c c' (owners (us₁ ++ t :: us₂))) ∨
    ∃ base c' m' t', shmAttach c m t id pml4 = (base, c', m', t') ∧ base ≠ 0 ∧
      t.owns = true ∧ World c' m' (us₁ ++ t' :: us₂) rest ps ∧
      AttachStep c.phys c'.phys m m' t t' id base ∧
      ∀ u ∈ owners us₁ ++ owners us₂, Unaffected c.phys c'.phys u := by
  have hfail : shmAttach c m t id pml4 = (0, c, m, t) →
    ∃ c', shmAttach c m t id pml4 = (0, c', m, t) ∧
      World c' m (us₁ ++ t :: us₂) rest ps ∧ Stable c c' (owners (us₁ ++ t :: us₂)) := fun he =>
    ⟨c, he, h, .refl⟩
  unfold shmAttach at hfail ⊢
  cases hf : m.findSegment id with
  | none =>
    rw [hf] at hfail
    exact .inl (hfail rfl)
  | some i =>
    obtain ⟨seg, hn⟩ := Shm.findSegment_some hf
    rw [hf] at hfail
    dsimp only at hfail ⊢
    rw [Shm.segment_eq hn.found] at hfail ⊢
    split
    · next hargs =>
      rw [if_pos hargs] at hfail
      exact .inl (hfail rfl)
    next hargs =>
    rw [if_neg hargs] at hfail
    simp only [not_or, not_not] at hargs
    obtain ⟨h0, rfl, hmaxref⟩ := hargs
    have ho : t.owns = true := owns_iff.mpr ⟨hp, h0⟩
    cases hs : t.shmAttached.findIdx? fun a => decide (a.shmid < 0) with
    | none =>
      rw [hs] at hfail
      exact .inl (hfail rfl)
    | some slot =>
      rw [hs] at hfail
      dsimp only at hfail ⊢
      have hsound := h.owner t (List.mem_append_right _ List.mem_cons_self) ho
      have hslot : t.shmAttached[slot]? = some .unused := by
        obtain ⟨hi, hneg, -⟩ := List.findIdx?_eq_some_iff_getElem.mp hs
        rw [List.getElem?_eq_getElem hi,
          hsound.attached.unused _ (List.getElem_mem hi) (of_decide_eq_true hneg)]
      obtain ⟨hn0, hn1, hcount⟩ := (h.shm.used seg hn.mem hn.used).count
      have hspec := userFindFreeRange_spec c.phys t.toOwner userShmBase userShmEnd
        (.ofNat seg.physPages.length) hsound.layout.aligned h0
        (fun hz => by rw [hz] at hcount; exact absurd hcount.symm (Nat.pos_iff_ne_zero.mp hn0))
        (by decide) (by decide) (by decide) (by decide)
      simp only [hcount] at hspec
      by_cases hb : c.phys.userFindFreeRange t.toOwner userShmBase userShmEnd
          (.ofNat seg.physPages.length) = 0
      · rw [if_pos hb] at hfail ⊢
        exact .inl (hfail rfl)
      rw [if_neg hb]
      obtain ⟨hcand, -⟩ := hspec.1 hb
      generalize c.phys.userFindFreeRange t.toOwner userShmBase userShmEnd
        (.ofNat seg.physPages.length) = base at hb hcand ⊢
      have hwl : (seg.physPages.map (BitVec.ofNat 64)).length = seg.physPages.length :=
        List.length_map ..
      have hown : OwnerOk c.phys t.toOwner m.frames := (h.userOk rfl ho).memory.spaces.owner _
        (List.mem_append_right _ List.mem_cons_self)
      have hu : UserRange base (seg.physPages.map (BitVec.ofNat 64)).length := by
        rw [hwl]
        exact hcand.userRange hn0 (by decide)
      rcases mapPages_edited hown hu (by rw [hwl]; omega) vmmFlagsUserData with
        ⟨s₂, he, hed, hmv⟩ | ⟨s₂, he, hmap⟩
      · obtain ⟨hw, hst⟩ := h.mapFailed ho hed hmv
        rw [he]
        exact .inl ⟨_, rfl, hw, hst⟩
      · obtain ⟨hw, hstep, hun⟩ := h.attach ho hn hmaxref hslot hcand hmap rfl rfl
        rw [he]
        exact .inr ⟨base, _, _, _, rfl, hb, ho, hw, hstep, hun⟩

/-! ## `shm_detach` -/

/-- The owner without the record in the slot. -/
def UserTask.unslot (t : UserTask) (slot : Nat) : UserTask :=
  { t with shmAttached := t.shmAttached.set slot .unused }

/-- The segment after one record less: it is released with the last one. -/
inductive Uncounted (m m' : Shm) (i : Nat) (seg : ShmSegment) : Prop
  | kept (n : seg.refcount - 1 ≠ 0)
      (h : m' = m.setSegment i { seg with refcount := seg.refcount - 1 })
  | last (n : seg.refcount = 1) (h : m' = m.setSegment i {})

/-- What `detach_record` did with the record `a`. -/
structure DetachStep (s s' : Phys) (m m' : Shm) (t : UserTask) (a : ShmAttach) : Prop where
  segment : ∃ i seg, m.Names i a.shmid seg ∧ Uncounted m m' i seg
  map : ∀ va < 0x800000000000,
    s'.translate t.pml4 va = (s.translate t.pml4).erase a.vaddr a.pageCount.toNat va
  contents : ∀ va < 0x800000000000, ∀ p flags, s'.translate t.pml4 va = some (p, flags) →
    s'.mem p.toNat = s.mem p.toNat

/-- An owner with one attachment less. -/
theorem OwnerSound.detach {a : ShmAttach} (h : OwnerSound s m t)
    (hs : Reslot t.toOwner t'.toOwner slot a .unused) (hid : 0 ≤ a.shmid)
    (hp : t'.isThread = t.isThread) (hb : t'.allocationBlocks = t.allocationBlocks)
    (hcap : t'.userPageCapacity = t.userPageCapacity)
    (hmap : ∀ va < 0x800000000000,
      s'.translate t.pml4 va = (s.translate t.pml4).erase a.vaddr a.pageCount.toNat va) :
    OwnerSound s' m t' := by
  obtain ⟨l₁, l₂, h1, h2⟩ := hs.split
  have hun : ShmAttach.unused.shmid < 0 := by decide
  have hsub : ∀ b ∈ t'.shmAttached, 0 ≤ b.shmid → b ∈ l₁ ++ l₂ := fun b hb hbid => by
    rw [h2] at hb
    rcases List.mem_append.mp hb with hb | hb
    · exact List.mem_append_left _ hb
    rcases List.mem_cons.mp hb with rfl | hb
    · omega
    · exact List.mem_append_right _ hb
  have hold : ∀ b ∈ l₁ ++ l₂, b ∈ t.shmAttached := fun b hb => by
    rw [h1]
    exact (List.mem_append.mp hb).elim (List.mem_append_left _) fun hb =>
      List.mem_append_right _ (List.mem_cons_of_mem _ hb)
  refine ⟨h.layout.detach hs hp hb hcap hid hun (by decide) hmap, ⟨?_, fun b hb hbid => ?_,
    fun b hb hbid => ?_, fun p hpm hi => ?_⟩, fun va hva p flags hq hw => ?_⟩
  · rw [hs.attached, List.length_set]
    exact h.attached.slots
  · have hbm := hsub b hb hbid
    obtain ⟨pages, g1, g2, g0, g3, g4⟩ := h.attached.pages b (hold b hbm) hbid
    refine ⟨pages, g1, g2, g0, g3, fun j f hj => ?_⟩
    have hjl := (List.getElem?_eq_some_iff.mp hj).1
    have hcl := h.layout.attached_apart h1 hid hbm hbid
    rw [hs.root, hmap _ (by omega)]
    refine (if_neg ?_).trans (g4 j f hj)
    unfold Clear Apart guardEnd at hcl
    simp only at hcl
    omega
  · rcases hs.mem hb with rfl | hb
    · rfl
    · exact h.attached.unused b hb hbid
  · rw [hs.records] at hpm
    obtain ⟨b, hb, hbid, hr⟩ := hi
    exact h.attached.apart p hpm ⟨b, hold b (hsub b hb hbid), hbid, hr⟩
  · rw [hs.root, hmap va hva] at hq
    unfold AddrMap.erase at hq
    split at hq
    · cases hq
    · exact h.wx va hva p flags hq hw

/-- **`detach_record`** unmaps the segment and counts one record less; with the last record the
segment is released. -/
theorem detachRecord_spec (h : World c m (us₁ ++ t :: us₂) rest ps) (ho : t.owns = true)
    {a : ShmAttach} (hs : t.shmAttached[slot]? = some a) (hid : 0 ≤ a.shmid) :
    ∃ c' m', detachRecord c m t slot = some (c', m', t.unslot slot) ∧
      World c' m' (us₁ ++ t.unslot slot :: us₂) rest ps ∧ DetachStep c.phys c'.phys m m' t a ∧
      ∀ u ∈ owners us₁ ++ owners us₂, Unaffected c.phys c'.phys u := by
  have htm : t ∈ us₁ ++ t :: us₂ := List.mem_append_right _ List.mem_cons_self
  have hsound := h.owner t htm ho
  have huser := h.userOk rfl ho
  have hown : OwnerOk c.phys t.toOwner m.frames := huser.memory.spaces.owner _
    (List.mem_append_right _ List.mem_cons_self)
  have ha : a ∈ t.shmAttached := List.mem_of_getElem? hs
  obtain ⟨pages, hpages, hlen, hpos, htop, -⟩ := hsound.attached.pages a ha hid
  obtain ⟨i, seg, hn, -⟩ := Shm.pagesOf_some hpages
  have hre : Reslot t.toOwner (t.unslot slot).toOwner slot a .unused := ⟨hs, rfl, rfl, rfl, rfl⟩
  have hu : UserRange a.vaddr a.pageCount.toNat :=
    ⟨by omega, hsound.layout.aligned.attachments a ha, htop⟩
  have hed := unmapPages_edited hown hu a.pageCount.toNat_lt
  have hrec := hown.recorded.detach hre fun p hp hr => hsound.attached.apart p hp ⟨a, ha, hid, hr⟩
  have hch := huser.memory.edit hed hre.root hrec (.refl _)
  obtain ⟨hm₂, hun₂⟩ := huser.memory.update hch
  have hcontents : ∀ va < 0x800000000000, ∀ p flags,
      (c.phys.vmmUnmapPagesIn t.pml4 a.vaddr a.pageCount.toNat).2.translate t.pml4 va =
        some (p, flags) →
      (c.phys.vmmUnmapPagesIn t.pml4 a.vaddr a.pageCount.toNat).2.mem p.toNat =
        c.phys.mem p.toNat :=
    fun va hva p flags hq => by
      rw [hed.map va hva] at hq
      unfold AddrMap.erase at hq
      split at hq
      · cases hq
      · exact huser.memory.spaces.own_contents hch hva hq
  have hsound₂ : OwnerSound (c.phys.vmmUnmapPagesIn t.pml4 a.vaddr a.pageCount.toNat).2 m
      (t.unslot slot) :=
    hsound.detach hre hid rfl rfl rfl hed.map
  generalize hs₂ : (c.phys.vmmUnmapPagesIn t.pml4 a.vaddr a.pageCount.toNat).2 = s₂ at *
  -- the segment counts one record less
  have hge : 0 < seg.refcount.toNat := by
    rw [h.counts seg hn.mem hn.used, hn.id]
    exact List.countP_pos_iff.mpr ⟨a, List.mem_flatMap.mpr ⟨t, htm, ha⟩, beq_self_eq_true _⟩
  have hsub : (seg.refcount - 1).toNat + 1 = seg.refcount.toNat := by
    have hle : (1 : UInt32).toNat ≤ seg.refcount.toNat := hge
    rw [UInt32.toNat_sub_of_le _ _ (UInt32.le_iff_toNat_le.mpr hle)]
    exact Nat.sub_add_cancel hge
  have hw₂ : World (c.setPhys s₂) (m.setSegment i { seg with refcount := seg.refcount - 1 })
      (us₁ ++ t.unslot slot :: us₂) rest ps := by
    refine h.swap rfl ho ⟨hm₂, hsound₂.layout⟩ hsound₂ hun₂ (hn.recounted h.shm _)
      (h.counts_set hn hre (.inl rfl) (.inr (by decide)) ?_)
    have hun0 : ShmAttach.unused.shmid = -1 := rfl
    rw [if_pos rfl, hun0, if_neg (by omega), hsub]
    rfl
  have hn₂ : (m.setSegment i { seg with refcount := seg.refcount - 1 }).Names i a.shmid
      { seg with refcount := seg.refcount - 1 } :=
    ⟨Shm.getElem?_setSegment_self hn.found _, hn.used, hn.id⟩
  unfold detachRecord
  rw [List.getD_eq_getElem?_getD, hs, Option.getD_some]
  dsimp only
  rw [hs₂, hn.find h.shm]
  dsimp only
  rw [Shm.segment_eq hn.found]
  by_cases hz : seg.refcount - 1 = 0
  · obtain ⟨c', he, hw, hst⟩ := releaseSegment_spec hw₂ hn₂ hz
    have hback : (m.setSegment i { seg with refcount := seg.refcount - 1 }).setSegment i {} =
        m.setSegment i {} := by
      unfold Shm.setSegment
      rw [List.set_set]
    rw [hback] at he hw
    rw [if_pos hz, he]
    have hself := hst.unaffected (t.unslot slot).toOwner (mem_owners (List.mem_append_right _
      List.mem_cons_self) ho)
    have hone : seg.refcount = 1 := UInt32.toNat_inj.mp (by
      rw [hz] at hsub
      exact hsub.symm)
    refine ⟨c', m.setSegment i {}, rfl, hw, ⟨⟨i, seg, hn, .last hone rfl⟩, fun va hva => ?_,
      fun va hva p flags hq => ?_⟩, fun u hu => (hun₂ u hu).trans (hst.unaffected u ?_)⟩
    · exact (hself.map va hva).trans (hed.map va hva)
    · have hq₂ : s₂.translate t.pml4 va = some (p, flags) := (hself.map va hva).symm.trans hq
      exact (hself.contents va hva p flags hq₂).trans (hcontents va hva p flags hq₂)
    · rw [owners_middle (show (t.unslot slot).owns = true from ho)]
      exact mem_middle hu
  · rw [if_neg hz]
    exact ⟨_, _, rfl, hw₂, ⟨⟨i, seg, hn, .kept hz rfl⟩, hed.map, hcontents⟩, hun₂⟩

/-- **`shm_detach`** finds no record at the address, or detaches the one it finds. -/
theorem shmDetach_spec (h : World c m (us₁ ++ t :: us₂) rest ps) (hp : t.isThread = false)
    (base pml4 : Nat) : shmDetach c m t base pml4 = some (-1, c, m, t) ∨
    ∃ slot a c' m', t.shmAttached[slot]? = some a ∧ 0 ≤ a.shmid ∧ a.vaddr = base ∧ t.owns = true ∧
      shmDetach c m t base pml4 = some (0, c', m', t.unslot slot) ∧
      World c' m' (us₁ ++ t.unslot slot :: us₂) rest ps ∧ DetachStep c.phys c'.phys m m' t a ∧
      ∀ u ∈ owners us₁ ++ owners us₂, Unaffected c.phys c'.phys u := by
  unfold shmDetach
  split
  · exact .inl rfl
  next hargs =>
  simp only [not_or, not_not] at hargs
  obtain ⟨h0, rfl⟩ := hargs
  cases hf : t.shmAttached.findIdx? fun a => decide (0 ≤ a.shmid) && a.vaddr == base with
  | none => exact .inl rfl
  | some slot =>
    obtain ⟨hi, ha, -⟩ := List.findIdx?_eq_some_iff_getElem.mp hf
    rw [Bool.and_eq_true, decide_eq_true_eq, beq_iff_eq] at ha
    have ho : t.owns = true := owns_iff.mpr ⟨hp, h0⟩
    have hs := List.getElem?_eq_getElem hi
    obtain ⟨c', m', he, hw, hst, hun⟩ := detachRecord_spec h ho hs ha.1
    dsimp only
    rw [he]
    exact .inr ⟨slot, _, c', m', hs, ha.1, ha.2, ho, rfl, hw, hst, hun⟩

/-! ## The end of a process -/

/-- The attachments of the slots are gone, and no others came. -/
structure Unslotted (t t' : UserTask) (slots : List Nat) : Prop where
  state : ∃ l, t' = { t with shmAttached := l }
  length : t'.shmAttached.length = t.shmAttached.length
  gone : ∀ i, i ∈ slots ∨ (t.shmAttached.getD i .unused).shmid < 0 →
    (t'.shmAttached.getD i .unused).shmid < 0

theorem unslot_getD (t : UserTask) (slot i : Nat) :
    ((t.unslot slot).shmAttached.getD i .unused).shmid < 0 ∨
      (i ≠ slot ∧ (t.unslot slot).shmAttached.getD i .unused = t.shmAttached.getD i .unused) := by
  unfold UserTask.unslot
  simp only [List.getD_eq_getElem?_getD]
  by_cases hi : i = slot
  · subst hi
    rw [List.getElem?_set_self']
    cases t.shmAttached[i]? with
    | none => exact .inl (by decide)
    | some a => exact .inl (by decide : ShmAttach.unused.shmid < 0)
  · exact .inr ⟨hi, by rw [List.getElem?_set_ne (Ne.symm hi)]⟩

/-- **All records of an owner are detached**, slot by slot. -/
theorem detachSlots_spec : ∀ (slots : List Nat) {c : HeapClient} {m : Shm} {t : UserTask},
    World c m (us₁ ++ t :: us₂) rest ps → t.owns = true →
    ∃ c' m' t', detachSlots slots c m t = some (c', m', t') ∧
    World c' m' (us₁ ++ t' :: us₂) rest ps ∧
      Unslotted t t' slots ∧ ∀ u ∈ owners us₁ ++ owners us₂, Unaffected c.phys c'.phys u
  | [], c, m, t, h, ho =>
      ⟨c, m, t, rfl, h, ⟨⟨_, rfl⟩, rfl, fun i hi => hi.resolve_left List.not_mem_nil⟩,
      fun _ _ => .refl⟩
  | slot :: slots, c, m, t, h, ho => by
    rw [detachSlots]
    by_cases hid : 0 ≤ (t.shmAttached.getD slot .unused).shmid
    · rw [if_pos hid]
      have hs : t.shmAttached[slot]? = some (t.shmAttached.getD slot .unused) := by
        rw [List.getD_eq_getElem?_getD] at hid ⊢
        cases hx : t.shmAttached[slot]? with
        | none =>
          rw [hx] at hid
          exact absurd hid (by decide)
        | some a => rfl
      obtain ⟨c₁, m₁, he, hw, -, hun⟩ := detachRecord_spec h ho hs hid
      obtain ⟨c', m', t', he', hw', hs', hun'⟩ := detachSlots_spec slots hw ho
      obtain ⟨l, hl⟩ := hs'.state
      refine ⟨c', m', t', ?_, hw',
        ⟨⟨l, hl⟩, hs'.length.trans (List.length_set ..), fun i hi => hs'.gone i ?_⟩,
        fun u hu => (hun u hu).trans (hun' u hu)⟩
      · simp only [he, Option.bind_eq_bind, Option.bind_some]
        exact he'
      · rcases unslot_getD t slot i with hneg | ⟨hne, heq⟩
        · exact .inr hneg
        · rw [heq]
          exact hi.imp_left fun hi => (List.mem_cons.mp hi).resolve_left hne
    · rw [if_neg hid]
      obtain ⟨c', m', t', he', hw', hs', hun'⟩ := detachSlots_spec slots h ho
      refine ⟨c', m', t', he', hw', ⟨hs'.state, hs'.length, fun i hi => hs'.gone i ?_⟩, hun'⟩
      rcases hi with hi | hi
      · rcases List.mem_cons.mp hi with rfl | hi
        · exact .inr (Int.not_le.mp hid)
        · exact .inl hi
      · exact .inr hi

/-- **The segments that a process created** and nobody has attached are released. -/
theorem releaseCreated_spec (pid : Nat) : ∀ (is : List Nat) {c : HeapClient} {m : Shm},
    World c m us rest ps → ∃ c' m', releaseCreated pid is c m = some (c', m') ∧
      World c' m' us rest ps ∧ Stable c c' (owners us)
  | [], c, m, h => ⟨c, m, rfl, h, .refl⟩
  | i :: is, c, m, h => by
    rw [releaseCreated]
    by_cases hc : (m.segment i).inUse ∧ (m.segment i).creatorPid = pid ∧ (m.segment i).refcount = 0
    · rw [if_pos hc]
      have hs : m.segments[i]? = some (m.segment i) := by
        unfold Shm.segment at hc ⊢
        rw [List.getD_eq_getElem?_getD] at hc ⊢
        cases hx : m.segments[i]? with
        | none =>
          rw [hx] at hc
          exact absurd hc.1 (by decide)
        | some a => rfl
      obtain ⟨c₁, he, hw, hst⟩ := releaseSegment_spec h ⟨hs, hc.1, rfl⟩ hc.2.2
      obtain ⟨c', m', he', hw', hst'⟩ := releaseCreated_spec pid is hw
      refine ⟨c', m', ?_, hw', hst.trans hst'⟩
      simp only [he, Option.bind_eq_bind, Option.bind_some]
      exact he'
    · rw [if_neg hc]
      exact releaseCreated_spec pid is h

/-- **`shm_cleanup_process`** for an owner: it has no attachments afterwards. -/
theorem shmCleanupProcess_spec (h : World c m (us₁ ++ t :: us₂) rest ps)
    (ho : t.owns = true) (pid : Nat) :
    ∃ c' m' t', shmCleanupProcess c m t pid = some (c', m', t') ∧
    World c' m' (us₁ ++ t' :: us₂) rest ps ∧
      (∃ l, t' = { t with shmAttached := l } ∧ ∀ a ∈ l, a.shmid < 0) ∧
      ∀ u ∈ owners us₁ ++ owners us₂, Unaffected c.phys c'.phys u := by
  obtain ⟨c₁, m₁, t₁, he, hw, hs, hun⟩ := detachSlots_spec (List.range shmMaxAttach) h ho
  obtain ⟨l, hl⟩ := hs.state
  have hlen : t.shmAttached.length = shmMaxAttach :=
    (h.owner t (List.mem_append_right _ List.mem_cons_self) ho).attached.slots
  have hneg : ∀ a ∈ l, a.shmid < 0 := fun a ha => by
    obtain ⟨i, hi⟩ := List.getElem?_of_mem ha
    have hlt := (List.getElem?_eq_some_iff.mp hi).1
    have hll : l.length = shmMaxAttach := by rw [← hlen, ← hs.length, hl]
    have := hs.gone i (.inl (List.mem_range.mpr (hll ▸ hlt)))
    rw [hl, List.getD_eq_getElem?_getD] at this
    simp only [hi, Option.getD_some] at this
    exact this
  unfold shmCleanupProcess
  rw [if_neg (by rw [(owns_iff.mp ho).1]; exact Bool.false_ne_true)]
  simp only [he, Option.bind_eq_bind, Option.bind_some]
  split
  · obtain ⟨c₂, m₂, he₂, hw₂, hst₂⟩ := releaseCreated_spec pid (List.range shmMaxSegments) hw
    rw [he₂]
    refine ⟨c₂, m₂, t₁, rfl, hw₂, ⟨l, hl, hneg⟩,
      fun u hu => (hun u hu).trans (hst₂.unaffected u ?_)⟩
    have ho₁ : t₁.owns = true := by rw [hl]; exact ho
    rw [owners_middle ho₁]
    exact mem_middle hu
  · exact ⟨c₁, m₁, t₁, rfl, hw, ⟨l, hl, hneg⟩, hun⟩

end GenOS
