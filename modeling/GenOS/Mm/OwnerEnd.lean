import GenOS.Mm.CowClone
import GenOS.Mm.ShmSafety

/-!
# The end of an owner

`user_memory_release` and `vmm_destroy_address_space` give back what an owner held: its pages, the
blocks of its records and its tables, each once. The owner may be one whose construction failed:
`lost` are frames that are recorded but not mapped.
-/

namespace GenOS

open Phys Pmm

variable {c : HeapClient} {s : Phys} {m : Shm} {t : UserTask} {o : Owner} {os os₁ os₂ : List Owner}
variable {us us₁ us₂ : List UserTask} {shared rest ps lost : List Nat}

/-- The task after `user_memory_release`. -/
def UserTask.released (t : UserTask) : UserTask :=
  { t with
    userPages := [], allocations := [], allocationBlocks := [], pagesBlock := 0
    userPageCapacity := userInlinePages }

theorem freeBlocks_spec : ∀ (l : List Nat) {c : HeapClient}, Memory c os shared rest (l ++ ps) →
    ∃ c', freeBlocks l c = some c' ∧ c'.phys = c.phys ∧ Memory c' os shared rest ps ∧ Stable c c' os
  | [], c, h => ⟨c, rfl, rfl, h, .refl⟩
  | p :: l, c, h => by
    obtain ⟨c₁, he, hp, h₁, hst⟩ := h.freeBlock
    obtain ⟨c', he', hp', h', hst'⟩ := freeBlocks_spec l h₁
    refine ⟨c', ?_, hp'.trans hp, h', hst.trans hst'⟩
    rw [freeBlocks, he]
    exact he'

/-- The owner's frames, as frames of nobody in particular. -/
theorem Memory.disown (h : Memory c (os₁ ++ o :: os₂) shared rest ps) :
    Memory c (os₁ ++ os₂) shared (owned c.phys o ++ rest) ps :=
  ⟨h.spaces.disown.perm (.refl _) (List.perm_append_comm_assoc ..), h.holding⟩

/-- **`user_memory_release`** gives the pages and the blocks of the records back. -/
theorem userMemoryRelease_spec (hp : t.isThread = false)
    (h : Memory c os shared (t.userPages.map PageRecord.phys ++ rest) (t.blocks ++ ps)) :
    ∃ c', userMemoryRelease c t = some (c', t.released) ∧ c'.phys.mem = c.phys.mem ∧
      c'.phys.kernelPml4 = c.phys.kernelPml4 ∧ Memory c' os shared rest ps ∧ Stable c c' os ∧
      Trade c c' (t.userPages.map PageRecord.phys) [] := by
  obtain ⟨h₁, hst₁⟩ := h.freeFrames
  have hmv := h.freeFrames_moves
  have hkern := foldl_freeFrame_kernel (t.userPages.map PageRecord.phys) c.phys
  have hmem := foldl_freeFrame_mem (t.userPages.map PageRecord.phys) c.phys
  unfold userMemoryRelease
  rw [if_neg (by rw [hp]; exact Bool.false_ne_true)]
  generalize (t.userPages.map PageRecord.phys).foldl freeFrame c.phys =
    s at h₁ hst₁ hmv hmem hkern ⊢
  have htrade : Trade c (c.setPhys s) (t.userPages.map PageRecord.phys) [] :=
    .setPhys hkern (fun g _ => by rw [hmem]) hmv
  dsimp only
  unfold UserTask.blocks at h₁
  by_cases hb : t.pagesBlock = 0
  · rw [if_pos hb] at h₁
    rw [if_neg (not_not.mpr hb)]
    obtain ⟨c', he, hphys, h', hst⟩ := freeBlocks_spec t.allocationBlocks h₁
    simp only [he, Option.bind_eq_bind, Option.bind_some]
    exact ⟨c', rfl, by rw [hphys]; exact hmem, by rw [hphys]; exact hkern, h', hst₁.trans hst,
      htrade.trans (hst.trade hphys h₁.spaces.inv)⟩
  · rw [if_neg hb] at h₁
    rw [if_pos hb]
    obtain ⟨c₂, he₂, hphys₂, h₂, hst₂⟩ := h₁.freeBlock
    obtain ⟨c', he, hphys, h', hst⟩ := freeBlocks_spec t.allocationBlocks h₂
    simp only [he₂, he, Option.bind_eq_bind, Option.bind_some]
    exact ⟨c', rfl, by rw [hphys, hphys₂]; exact hmem, by rw [hphys, hphys₂]; exact hkern, h',
      (hst₁.trans hst₂).trans hst,
      htrade.trans ((hst₂.trans hst).trade (hphys.trans hphys₂) h₁.spaces.inv)⟩

/-- The tables of a tree that nobody uses any more. -/
theorem Memory.destroy (h : Memory c os shared (c.phys.tables t.pml4 lowerHalf ++ rest) ps)
    (ht : c.phys.Tree t.pml4 lowerHalf []) (hr : t.pml4 ≠ 0) (hk : t.pml4 ≠ c.phys.kernelPml4) :
    Memory (c.setPhys (c.phys.vmmDestroyAddressSpace t.pml4)) os shared rest ps ∧
      Stable c (c.setPhys (c.phys.vmmDestroyAddressSpace t.pml4)) os ∧
      Trade c (c.setPhys (c.phys.vmmDestroyAddressSpace t.pml4))
        (c.phys.tables t.pml4 lowerHalf) [] := by
  obtain ⟨hmv, hmem, hkern, -⟩ := vmmDestroyAddressSpace_spec ht hr hk
  obtain ⟨h', hun⟩ := h.release hkern hmem hmv
  exact ⟨h', .setPhys hkern (fun g _ => by rw [hmem]) hmv hun,
    .setPhys hkern (fun g _ => by rw [hmem]) hmv⟩

/-- **Everything an owner held goes back**, and the other owners see nothing of it. -/
theorem releaseOwner_spec (h : Memory c (os₁ ++ o :: os₂) shared (lost ++ rest) (t.blocks ++ ps))
    (hp : t.isThread = false) (hr : t.pml4 = o.pml4)
    (hpages : (t.userPages.map PageRecord.phys).Perm (o.userPages.map PageRecord.phys ++ lost)) :
    ∃ c', userMemoryRelease c t = some (c', t.released) ∧
      Memory (c'.setPhys (c'.phys.vmmDestroyAddressSpace t.pml4)) (os₁ ++ os₂) shared rest ps ∧
      Stable c (c'.setPhys (c'.phys.vmmDestroyAddressSpace t.pml4)) (os₁ ++ os₂) ∧
      Trade c (c'.setPhys (c'.phys.vmmDestroyAddressSpace t.pml4)) (lost ++ owned c.phys o) [] := by
  have hom : o ∈ os₁ ++ o :: os₂ := List.mem_append_right _ List.mem_cons_self
  have ho := h.spaces.owner o hom
  have hk : o.pml4 ≠ c.phys.kernelPml4 := fun he => by
    refine h.spaces.tables_disjoint (g := c.phys.kernelPml4) (List.mem_append_left _ ?_) ?_
    · exact Radix.root_mem_tables ..
    · rw [← he]
      exact Radix.root_mem_tables ..
  have hd : Memory c (os₁ ++ os₂) shared (t.userPages.map PageRecord.phys ++
      (c.phys.tables o.pml4 lowerHalf ++ rest)) (t.blocks ++ ps) := by
    refine h.disown.perm (.refl _) ?_ (.refl _)
    unfold owned
    rw [List.append_assoc]
    refine (List.perm_append_comm_assoc ..).trans ?_
    refine .trans ?_ (hpages.symm.append_right _)
    rw [List.append_assoc]
    exact (List.perm_append_comm_assoc ..).append_left _
  obtain ⟨c', he, hmem, hkern, h', hst, htrade⟩ := userMemoryRelease_spec hp hd
  have htab : c'.phys.tables o.pml4 lowerHalf = c.phys.tables o.pml4 lowerHalf :=
    tables_of_mem fun g _ => by rw [hmem]
  have htree : c'.phys.Tree o.pml4 lowerHalf [] := by
    refine ⟨h'.spaces.inv, h'.spaces.small, htab ▸ ho.tree.nodup, fun g hg => ?_⟩
    rw [List.append_nil, htab] at hg
    exact h'.spaces.not_free (mem_held_others (List.mem_append_right _
      (List.mem_append_right _ (List.mem_append_left _ hg))))
  rw [← htab] at h'
  rw [hr]
  obtain ⟨h'', hst', htrade'⟩ := Memory.destroy (t := { t with pml4 := o.pml4 }) h' htree ho.root
    (hkern.symm ▸ hk)
  refine ⟨c', he, h'', hst.trans hst', ?_⟩
  have hall := (htrade.frame (c.phys.tables o.pml4 lowerHalf)).trans (htab ▸ htrade')
  refine hall.perm ((hpages.append_right _).trans ?_) (.refl _)
  -- the pages, what was lost, the tables
  rw [List.append_assoc]
  exact List.perm_append_comm.trans (.of_eq (List.append_assoc ..))

/-! ## Tasks come and go -/

theorem recordsOf_bare (ha : t.allocations = [])
    (hat : t.shmAttached = List.replicate shmMaxAttach .unused) : recordsOf t.toOwner = [] := by
  unfold recordsOf
  rw [ha, hat]
  rfl

/-- An owner with pages and nothing else is sound. -/
theorem OwnerSound.of_pages (hwx : WxOk s t.pml4) (hp : t.isThread = false)
    (ha : t.allocations = [])
    (hn : t.allocationBlocks = []) (hat : t.shmAttached = List.replicate shmMaxAttach .unused)
    (hroom : t.userPages.length ≤ t.userPageCapacity) (hpos : 0 < t.userPageCapacity)
    (hcount : t.userPages.length ≤ 65536) : OwnerSound s m t := by
  have hneg : ∀ a ∈ t.shmAttached, a = ShmAttach.unused := fun a h => by
    rw [hat] at h
    exact List.eq_of_mem_replicate h
  have hlt : ShmAttach.unused.shmid < 0 := by decide
  have hrec := recordsOf_bare ha hat
  refine ⟨⟨hp, ⟨?_, fun a h => ?_⟩, ?_, ?_, ?_, ?_, ?_, ?_, hroom, hpos, hcount⟩,
    ⟨?_, fun a h hid => ?_, fun a h _ => hneg a h, fun _ _ ⟨a, h, hid, _⟩ => ?_⟩, hwx⟩
  · rw [ha]
    nofun
  · rw [hneg a h]
    rfl
  · rw [hrec]
    nofun
  · rw [hrec]
    exact .nil
  · rw [hrec]
    nofun
  · rw [ha]
    nofun
  · rw [ha]
    nofun
  · rw [ha, hn]
    rfl
  · rw [hat]
    rfl
  · rw [hneg a h] at hid
    exact absurd hlt (Int.not_lt.mpr hid)
  · rw [hneg a h] at hid
    exact absurd hlt (Int.not_lt.mpr hid)

namespace World

variable {c' : HeapClient} {rest' ps' : List Nat}

/-- **Work that is about other tasks**: those that stay see nothing. -/
theorem restrict {us' : List UserTask} (h : World c m us rest ps) (hsub : ∀ t ∈ us', t ∈ us)
    (hm : Memory c' (owners us') m.frames rest' (userBlocks us' ++ m.blocks ++ ps'))
    (hs : Stable c c' (owners us')) (hcnt : ∀ id, 0 ≤ id → attachCount us' id = attachCount us id) :
    World c' m us' rest' ps' :=
  ⟨hm, h.shm, h.small, fun t ht ho => (h.owner t (hsub t ht) ho).congr
    (hs.unaffected _ (mem_owners ht ho)) fun _ _ _ => rfl, fun t ht => h.bare t (hsub t ht),
    fun x hx hu => by rw [h.counts x hx hu, hcnt _ (Int.le_of_lt (h.shm.used x hx hu).pos)]⟩

theorem attachCount_unattached {t : UserTask} (ht : ∀ a ∈ t.shmAttached, a.shmid < 0) {id : Int}
    (hid : 0 ≤ id) : attachCount (us₁ ++ t :: us₂) id = attachCount (us₁ ++ us₂) id := by
  rw [attachCount_middle, Nat.add_eq_right, List.countP_eq_zero]
  intro a ha he
  have := ht a ha
  rw [beq_iff_eq] at he
  omega

theorem bare_unattached (h : Bare t) : ∀ a ∈ t.shmAttached, a.shmid < 0 := fun a ha => by
  rw [h.attached] at ha
  rw [List.eq_of_mem_replicate ha]
  decide

theorem userBlocks_bare (h : Bare t) : userBlocks (us₁ ++ t :: us₂) = userBlocks (us₁ ++ us₂) := by
  unfold userBlocks
  rw [List.flatMap_append, List.flatMap_append, List.flatMap_cons, h.blocks, List.nil_append]

/-- A task that holds nothing goes. -/
theorem dropBare (h : World c m (us₁ ++ t :: us₂) rest ps) (ho : t.owns = false) :
    World c m (us₁ ++ us₂) rest ps := by
  have hb := h.bare t (List.mem_append_right _ List.mem_cons_self) ho
  refine h.restrict (fun u hu => ?_) ?_ .refl fun id hid =>
    (attachCount_unattached (bare_unattached hb) hid).symm
  · exact (List.mem_append.mp hu).elim (List.mem_append_left _)
      fun hu => List.mem_append_right _ (List.mem_cons_of_mem _ hu)
  · have hm := h.memory
    rw [owners_middle_of_not ho, userBlocks_bare hb] at hm
    rw [owners_append]
    exact hm

/-- A task that holds nothing comes. -/
theorem addBare (h : World c m (us₁ ++ us₂) rest ps) (hb : Bare t) (ho : t.owns = false) :
    World c m (us₁ ++ t :: us₂) rest ps := by
  refine ⟨?_, h.shm, h.small, fun u hu huo => ?_, fun u hu huo => ?_, fun x hx hu => ?_⟩
  · rw [owners_middle_of_not ho, userBlocks_bare hb, ← owners_append]
    exact h.memory
  · rcases List.mem_append.mp hu with hu | hu
    · exact h.owner u (List.mem_append_left _ hu) huo
    rcases List.mem_cons.mp hu with rfl | hu
    · rw [ho] at huo
      cases huo
    · exact h.owner u (List.mem_append_right _ hu) huo
  · rcases List.mem_append.mp hu with hu | hu
    · exact h.bare u (List.mem_append_left _ hu) huo
    rcases List.mem_cons.mp hu with rfl | hu
    · exact hb
    · exact h.bare u (List.mem_append_right _ hu) huo
  · rw [h.counts x hx hu,
      attachCount_unattached (bare_unattached hb) (Int.le_of_lt (h.shm.used x hx hu).pos)]

/-- **An owner without attachments goes**, with everything it held. -/
theorem removeOwner (h : World c m (us₁ ++ t :: us₂) rest ps) (ho : t.owns = true)
    (ha : ∀ a ∈ t.shmAttached, a.shmid < 0) : ∃ c', userMemoryRelease c t = some (c', t.released) ∧
      World (c'.setPhys (c'.phys.vmmDestroyAddressSpace t.pml4)) m (us₁ ++ us₂) rest ps ∧
      Stable c (c'.setPhys (c'.phys.vmmDestroyAddressSpace t.pml4)) (owners (us₁ ++ us₂)) := by
  have hm := (h.userOk rfl ho).memory
  obtain ⟨c', he, h', hst, -⟩ := @releaseOwner_spec _ _ _ _ _ _ _ _ [] hm (owns_iff.mp ho).1 rfl
    (by rw [List.append_nil])
  rw [← owners_append] at h' hst
  refine ⟨c', he, h.restrict (fun u hu => ?_) (h'.perm (.refl _) (.refl _) ?_) hst
    fun id hid => (attachCount_unattached ha hid).symm, hst⟩
  · exact (List.mem_append.mp hu).elim (List.mem_append_left _)
      fun hu => List.mem_append_right _ (List.mem_cons_of_mem _ hu)
  · unfold userBlocks
    rw [List.flatMap_append]

/-- **A new owner**, with an empty address space. -/
theorem addOwner {s : Phys} {a : Nat} (h : World c m us rest ps)
    (hc : Created c.phys s a) (ha : a ≠ 0)
    (ht : t.pml4 = a) (hp : t.isThread = false) (hb : Bare t) :
    World (c.setPhys s) m (us ++ [t]) rest ps ∧ Stable c (c.setPhys s) (owners us) ∧
      Trade c (c.setPhys s) [] (owned s t.toOwner) := by
  have ho : t.owns = true := owns_iff.mpr ⟨hp, ht ▸ ha⟩
  obtain ⟨hm, hun⟩ := h.memory.add (t := t.toOwner) hc ha ht hb.pages
  have hmem : ∀ g ∈ c.phys.kernelTables, s.mem g = c.phys.mem g := fun g hg =>
    hc.mem g fun he => h.memory.kernel_used hg (he ▸ hc.free)
  have hst : Stable c (c.setPhys s) (owners us) := .setPhys hc.kernel hmem hc.moves hun
  have hown : owned s t.toOwner = [a] := by
    unfold owned
    rw [ht, hc.tables, hb.pages]
    rfl
  have htr : ∀ va < 0x800000000000, s.translate t.pml4 va = none := fun va hva => by
    rw [ht]
    exact hc.translate hva
  refine ⟨⟨?_, h.shm, h.small, fun u hu huo => ?_, fun u hu huo => ?_, fun x hx hu => ?_⟩, hst,
    hown ▸ .setPhys hc.kernel hmem hc.moves⟩
  · rw [show owners (us ++ [t]) = owners us ++ [t.toOwner] from owners_middle ho,
      userBlocks_bare hb, List.append_nil]
    exact hm.perm (List.perm_append_singleton ..).symm (.refl _) (.refl _)
  · rcases List.mem_append.mp hu with hu | hu
    · exact (h.owner u hu huo).congr (hst.unaffected _ (mem_owners hu huo)) fun _ _ _ => rfl
    obtain rfl := List.mem_singleton.mp hu
    refine .of_pages (fun va hva p fl hq => ?_) hp hb.allocations hb.nodes hb.attached ?_ ?_ ?_
    · rw [HeapClient.phys_setPhys, htr va hva] at hq
      cases hq
    · rw [hb.pages]
      exact Nat.zero_le _
    · rw [hb.capacity]
      decide
    · rw [hb.pages]
      exact Nat.zero_le _
  · rcases List.mem_append.mp hu with hu | hu
    · exact h.bare u hu huo
    obtain rfl := List.mem_singleton.mp hu
    exact hb
  · rw [h.counts x hx hu,
      attachCount_unattached (bare_unattached hb) (Int.le_of_lt (h.shm.used x hx hu).pos),
      List.append_nil]

end World

/-! ## Tasks without memory -/

theorem detachSlots_unattached (ht : ∀ a ∈ t.shmAttached, a.shmid < 0) :
    ∀ slots : List Nat, detachSlots slots c m t = some (c, m, t)
  | [] => rfl
  | slot :: slots => by
    rw [detachSlots, if_neg, detachSlots_unattached ht slots]
    rw [List.getD_eq_getElem?_getD, Int.not_le]
    cases hs : t.shmAttached[slot]? with
    | none => decide
    | some a => exact ht a (List.mem_of_getElem? hs)

/-- `shm_cleanup_process` for a task without attachments only looks for segments it created. -/
theorem shmCleanupProcess_unattached (h : World c m us rest ps)
    (ht : ∀ a ∈ t.shmAttached, a.shmid < 0)
    (pid : Nat) : ∃ c' m', shmCleanupProcess c m t pid = some (c', m', t) ∧ World c' m' us rest ps ∧
      Stable c c' (owners us) ∧ (pid = 0 → c' = c ∧ m' = m) := by
  unfold shmCleanupProcess
  split
  · exact ⟨c, m, rfl, h, .refl, fun _ => ⟨rfl, rfl⟩⟩
  simp only [detachSlots_unattached ht, Option.bind_eq_bind, Option.bind_some]
  split
  · next hp =>
    obtain ⟨c', m', he, hw, hst⟩ := releaseCreated_spec pid (List.range shmMaxSegments) h
    rw [he]
    exact ⟨c', m', rfl, hw, hst, fun h0 => absurd h0 hp⟩
  · exact ⟨c, m, rfl, h, .refl, fun _ => ⟨rfl, rfl⟩⟩

theorem userMemoryRelease_bare (h : Bare t) : ∃ t', userMemoryRelease c t = some (c, t') ∧
    t'.pml4 = t.pml4 := by
  unfold userMemoryRelease
  split
  · exact ⟨t, rfl, rfl⟩
  · rw [h.pages, h.nodes, h.pagesBlock]
    exact ⟨_, rfl, rfl⟩

end GenOS
