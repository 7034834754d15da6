import GenOS.Mm.HeapPhys
import GenOS.Mm.SpaceRules

/-!
# Memory as a whole

`Memory c os shared rest ps`: the address spaces `os` over the physical memory behind the kernel
heap `c`, whose live blocks include `ps`. The heap's own frames are named by the heap, so `rest` are
the frames of all other holders. Each rule of `Spaces` is a rule of `Memory`.
-/

namespace GenOS

open Pmm Phys Radix

variable {c c' : HeapClient} {s s' : Phys} {t t' u : Owner} {os os' os₁ os₂ : List Owner}
variable {shared rest rest' new gone ps ps' F : List Nat} {p a : Nat}

/-- The heap's frames are found through the kernel's tables. -/
theorem Heap.frames_congr {h : Heap} (hk : s.kernelPml4 = h.phys.kernelPml4)
    (hm : ∀ g ∈ h.phys.kernelTables, s.mem g = h.phys.mem g) :
    Heap.frames { h with phys := s } = h.frames := by
  have hag : Agree pageShape h.phys.mem s.mem 3 wholeTree.idx h.phys.kernelPml4 :=
    .of_tables wholeTree.lt fun g hg i _ => .inl (by rw [hm g hg])
  unfold Heap.frames
  simp only [hk]
  refine List.filterMap_congr fun i _ => ?_
  rw [translate_congr (path_congr hag (inRange_indexAt _) (index_whole _))]

/-! ## What the kernel heap keeps -/

/-- The frames of the kernel half and of the heap. -/
def HeapClient.kernelFrames (c : HeapClient) : List Nat := c.phys.kernelTables ++ c.heap.frames

/-- The only reference counts that changed are those of the frames `G`, which were free: the growth
of the kernel heap keeps them. -/
structure Retains (c c' : HeapClient) (G : List Nat) : Prop where
  fresh : ∀ g ∈ G, c.phys.pmm.FreeAt g
  nodup : G.Nodup
  moves : Moves c.phys.pmm c'.phys.pmm [] G
  kernel : ∀ g ∈ G, g ∈ c'.kernelFrames
  keeps : ∀ g ∈ c.kernelFrames, g ∈ c'.kernelFrames

namespace Retains

variable {G G' : List Nat}

theorem refl (h : c.phys.pmm.Inv) : Retains c c [] :=
  ⟨nofun, .nil, .refl h, nofun, fun _ hg => hg⟩

theorem used (h : Retains c c' G) {g : Nat} (hg : g ∈ G) : ¬ c'.phys.pmm.FreeAt g := fun hf => by
  have h1 := h.moves.refs g (h.fresh g hg).1
  have h2 := List.count_pos_iff.mpr hg
  have h3 := hf.2
  rw [List.count_nil] at h1
  omega

theorem trans {c'' : HeapClient} (h : Retains c c' G) (h' : Retains c' c'' G') :
    Retains c c'' (G ++ G') := by
  refine ⟨fun g hg => ?_, ?_, h.moves.trans h'.moves, fun g hg => ?_, fun g hg =>
    h'.keeps g (h.keeps g hg)⟩
  · rcases List.mem_append.mp hg with hg | hg
    · exact h.fresh g hg
    · by_contra hc
      exact h.moves.not_freeAt hc (Nat.zero_le _) (h'.fresh g hg)
  · refine List.nodup_append.mpr ⟨h.nodup, h'.nodup, fun g hg g' hg' he => ?_⟩
    exact h.used hg (he ▸ h'.fresh g' hg')
  · exact (List.mem_append.mp hg).elim (fun hg => h'.keeps g (h.kernel g hg)) (h'.kernel g)

/-- Every count but those of the retained frames is as before. -/
theorem refs (h : Retains c c' G) {a : Nat} (ha : c.phys.pmm.Tracked a) (hG : a ∉ G) :
    c'.phys.pmm.refcounts (a / 4096) = c.phys.pmm.refcounts (a / 4096) := by
  have := h.moves.refs a ha
  rwa [List.count_nil, List.count_eq_zero_of_not_mem hG] at this

end Retains

/-- Physical memory changed, but not the kernel half. -/
theorem Retains.setPhys (hk : s.kernelPml4 = c.phys.kernelPml4)
    (hm : ∀ g ∈ c.phys.kernelTables, s.mem g = c.phys.mem g)
    (hmv : Moves c.phys.pmm s.pmm [] []) : Retains c (c.setPhys s) [] := by
  have hf : (c.setPhys s).heap.frames = c.heap.frames := Heap.frames_congr hk hm
  have hkt := kernelTables_of_mem hk hm
  refine ⟨nofun, .nil, hmv, nofun, fun g hg => ?_⟩
  unfold HeapClient.kernelFrames at hg ⊢
  rwa [hf, HeapClient.phys_setPhys, hkt]

/-- What the heap keeps when it grows was free. -/
theorem HeapGrown.retains (h : HeapGrown c.heap c'.heap F) (hk : c.phys.KernelTree) :
    ∃ G, Retains c c' G := by
  have hp : c.phys.KernelGrown c'.phys F := h.phys
  have hnd := hk.tree.nodup_tables
  let new : Nat → Bool := fun g => decide (g ∉ c.phys.kernelTables)
  have hG : ∀ g, g ∈ (c'.phys.kernelTables ++ F).filter new ↔
      g ∈ c'.phys.kernelTables ++ F ∧ g ∉ c.phys.kernelTables := fun g => by
    rw [List.mem_filter, decide_eq_true_eq]
  refine ⟨(c'.phys.kernelTables ++ F).filter new, fun g hg => ?_, hp.nodup.filter _,
    hp.moves.congr fun a _ => ?_, fun g hg => ?_,
    fun g hg => ?_⟩
  · obtain ⟨h1, h2⟩ := (hG g).mp hg
    exact (hp.origin h1).resolve_left h2
  · -- a frame the kernel held it holds still
    by_cases ha : a ∈ c.phys.kernelTables
    · have h1 : (c'.phys.kernelTables ++ F).count a = 1 :=
        List.count_eq_one_of_mem hp.nodup (List.mem_append_left _ (hp.keeps a ha))
      have h2 : c.phys.kernelTables.count a = 1 := List.count_eq_one_of_mem hnd ha
      rw [h1, h2, List.count_eq_zero_of_not_mem fun hm => ((hG a).mp hm).2 ha, List.count_nil]
    · have hnew : new a = true := decide_eq_true ha
      rw [List.count_eq_zero_of_not_mem ha, List.count_filter hnew, List.count_nil]
      omega
  · unfold HeapClient.kernelFrames
    rw [h.frames]
    rcases List.mem_append.mp ((hG g).mp hg).1 with hg | hg
    · exact List.mem_append_left _ hg
    · exact List.mem_append_right _ (List.mem_append_right _ hg)
  · unfold HeapClient.kernelFrames at hg ⊢
    rw [h.frames]
    rcases List.mem_append.mp hg with hg | hg
    · exact List.mem_append_left _ (hp.keeps g hg)
    · exact List.mem_append_right _ (List.mem_append_left _ hg)

/-- No frame changed hands but those the kernel heap retains, and the owners see nothing. -/
structure Steady (c c' : HeapClient) (os : List Owner) : Prop where
  retains : ∃ G, Retains c c' G
  unaffected : ∀ u ∈ os, Unaffected c.phys c'.phys u

theorem Steady.refl (h : c.phys.pmm.Inv) : Steady c c os := ⟨⟨[], .refl h⟩, fun _ _ => .refl⟩

theorem Steady.trans {c'' : HeapClient} (h : Steady c c' os) (h' : Steady c' c'' os) :
    Steady c c'' os := by
  obtain ⟨G, hG⟩ := h.retains
  obtain ⟨G', hG'⟩ := h'.retains
  exact ⟨⟨_, hG.trans hG'⟩, fun u hu => (h.unaffected u hu).trans (h'.unaffected u hu)⟩

theorem Steady.free (h : Steady c c' os) {f : Nat} (hf : c'.phys.pmm.FreeAt f) :
    c.phys.pmm.FreeAt f := by
  obtain ⟨G, hG⟩ := h.retains
  by_contra hc
  exact hG.moves.not_freeAt hc (Nat.zero_le _) hf

/-! ## The invariant -/

structure Memory (c : HeapClient) (os : List Owner) (shared rest ps : List Nat) : Prop where
  spaces : Spaces c.phys os shared (c.heap.frames ++ rest)
  holding : c.Holding ps

namespace Memory

/-- The blocks of the heap and the frames of others are not ordered. -/
theorem perm (h : Memory c os shared rest ps) (ho : os.Perm os') (hr : rest.Perm rest')
    (hp : ps.Perm ps') : Memory c os' shared rest' ps' :=
  ⟨h.spaces.perm ho (hr.append_left _), h.holding.perm hp⟩

theorem setPhys {shared' : List Nat} (h : Memory c os shared rest ps)
    (hs : Spaces s os' shared' (c.heap.frames ++ rest')) (hk : s.kernelPml4 = c.phys.kernelPml4)
    (hm : ∀ g ∈ c.phys.kernelTables, s.mem g = c.phys.mem g) :
    Memory (c.setPhys s) os' shared' rest' ps := by
  have hf : (c.setPhys s).heap.frames = c.heap.frames := Heap.frames_congr hk hm
  refine ⟨?_, h.holding.setPhys hs.kernel⟩
  rw [hf]
  exact hs

/-- **`kmalloc`.** -/
theorem kmalloc (h : Memory c os shared rest ps) (size : Nat) :
    ∃ r c', c.kmalloc size = some (r, c') ∧ Steady c c' os ∧
      Memory c' os shared rest (if r = 0 then ps else r :: ps) := by
  obtain ⟨r, c', F, he, hg, hh⟩ := h.holding.kmalloc size
  obtain ⟨hs, hun⟩ := h.spaces.grow hg.phys
  refine ⟨r, c', he, ⟨hg.retains h.spaces.kernel, hun⟩, hs.perm (.refl _) ?_, hh⟩
  rw [hg.frames, List.append_assoc]
  exact List.perm_append_comm_assoc ..

/-- **`kfree`.** -/
theorem kfree (h : Memory c os shared rest (p :: ps)) :
    ∃ c', c.kfree p = some c' ∧ c'.phys = c.phys ∧ Retains c c' [] ∧
      Memory c' os shared rest ps := by
  obtain ⟨c', he, hp, hfin, hh⟩ := h.holding.kfree
  have hf : c'.heap.frames = c.heap.frames := by
    have hp : c'.heap.phys = c.heap.phys := hp
    unfold Heap.frames
    rw [hp, hfin]
  refine ⟨c', he, hp, ⟨nofun, .nil, ?_, nofun, fun g hg => ?_⟩, ?_, hh⟩
  · rw [hp]
    exact .refl h.spaces.inv
  · unfold HeapClient.kernelFrames at hg ⊢
    rwa [hp, hf]
  · rw [hp, hf]
    exact h.spaces

theorem kernel_used (h : Memory c os shared rest ps) {g : Nat} (hg : g ∈ c.phys.kernelTables) :
    ¬ c.phys.pmm.FreeAt g := h.spaces.kernel.tree.used_table hg

/-- Frames are taken. -/
theorem take (h : Memory c os shared rest ps) (ht : Taken c.phys s new) :
    Memory (c.setPhys s) os shared (new ++ rest) ps ∧ ∀ u ∈ os, Unaffected c.phys s u := by
  obtain ⟨hs, hun⟩ := h.spaces.take ht
  exact ⟨h.setPhys (hs.perm (.refl _) (List.perm_append_comm_assoc ..)) ht.kernel fun g hg =>
    ht.mem_used (h.kernel_used hg), hun⟩

/-- Frames are given back. -/
theorem release (h : Memory c os shared (gone ++ rest) ps) (hk : s.kernelPml4 = c.phys.kernelPml4)
    (hm : s.mem = c.phys.mem) (hmv : Moves c.phys.pmm s.pmm gone []) :
    Memory (c.setPhys s) os shared rest ps ∧ ∀ u ∈ os, Unaffected c.phys s u :=
  ⟨h.setPhys ((h.spaces.perm (.refl _) (List.perm_append_comm_assoc ..)).release hk hm hmv) hk
    fun g _ => by rw [hm], fun _ hu => h.spaces.unaffected_of_mem hu fun _ _ => by rw [hm]⟩

/-- Frames that are no tables are written. -/
theorem write (h : Memory c os shared rest ps) (hk : s.kernelPml4 = c.phys.kernelPml4)
    (hp : s.pmm = c.phys.pmm) (hm : ∀ g ∈ c.phys.allTables os, s.mem g = c.phys.mem g) :
    Memory (c.setPhys s) os shared rest ps :=
  h.setPhys (h.spaces.write hk hp hm) hk fun g hg => hm g (List.mem_append_left _ hg)

/-- A call for one owner. -/
theorem update (h : Memory c (os₁ ++ t :: os₂) shared rest ps)
    (hc : Change c.phys s t t' shared (c.heap.frames ++ rest) (c.heap.frames ++ rest')) :
    Memory (c.setPhys s) (os₁ ++ t' :: os₂) shared rest' ps ∧
      ∀ u ∈ os₁ ++ os₂, Unaffected c.phys s u :=
  ⟨h.setPhys (h.spaces.update hc) hc.kernel (h.spaces.kernel_mem hc), fun _ hu =>
    h.spaces.unaffected hc hu⟩

/-- The parts of an owner that hold no frame are free to change. -/
theorem relabel (h : Memory c (os₁ ++ t :: os₂) shared rest ps) (hr : t'.pml4 = t.pml4)
    (hp : t'.userPages = t.userPages) (ha : t'.shmAttached = t.shmAttached) :
    Memory c (os₁ ++ t' :: os₂) shared rest ps := by
  have htm : t ∈ os₁ ++ t :: os₂ := List.mem_append_right _ List.mem_cons_self
  have ho := h.spaces.owner t htm
  have hown : owned c.phys t' = owned c.phys t := by
    unfold owned
    rw [hr, hp]
  have hin : ∀ va, InAttachment t va → InAttachment t' va := fun va ⟨a, hm, hx⟩ =>
    ⟨a, ha ▸ hm, hx⟩
  suffices hc : Change c.phys c.phys t t' shared (c.heap.frames ++ rest)
    (c.heap.frames ++ rest) from
    ⟨h.spaces.update hc, h.holding⟩
  refine ⟨⟨?_, ?_, ?_, fun p hm => ?_, ?_, ?_, ?_⟩, rfl, ?_, fun _ _ _ => rfl, fun g hg => ?_,
    fun g hg => ?_⟩
  · rw [hr]
    exact ho.root
  · rw [hr]
    exact ho.tree
  · rw [hr]
    exact ho.full
  · rw [hp] at hm
    obtain ⟨h1, h2, h3, h4⟩ := ho.records p hm
    exact ⟨h1, h2, h3, by rw [hr]; exact h4⟩
  · rw [hp]
    exact ho.distinct
  · rw [hr, hp]
    exact fun va hva hal p flags hm => (ho.leaves va hva hal p flags hm).imp_right fun hx =>
      ⟨hin va hx.1, hx.2⟩
  · rw [hr]
    exact ho.written
  · rw [hown]
    exact .refl h.spaces.inv
  · rw [hr] at hg
    exact .inl hg
  · rw [hp] at hg
    refine ⟨fun hgt => ?_, .inl hg⟩
    rw [hr] at hgt
    obtain ⟨h1, h2⟩ := h.spaces.apart g (mem_allTables htm hgt)
    rcases List.mem_append.mp hg with hg | hg
    · exact h2 t htm hg
    · exact h1 (List.mem_append_right _ hg)

/-- An edit of one owner's tree. -/
theorem edit {f : AddrMap} (h : Memory c (os₁ ++ t :: os₂) shared rest ps)
    (he : Edited c.phys s t.pml4 f) (ht : t'.pml4 = t.pml4)
    (hr : Records t' shared c.phys.pmm.Tracked f)
    (hp : (t'.userPages.map PageRecord.phys ++ rest').Perm
      (t.userPages.map PageRecord.phys ++ rest)) :
    Change c.phys s t t' shared (c.heap.frames ++ rest) (c.heap.frames ++ rest') := by
  refine he.change h.spaces ht hr ?_
  refine (List.perm_append_comm_assoc ..).trans ((hp.append_left _).trans ?_)
  exact List.perm_append_comm_assoc ..

/-- A new owner. -/
theorem add (h : Memory c os shared rest ps) (hc : Created c.phys s a) (ha : a ≠ 0)
    (ht : t.pml4 = a) (hp : t.userPages = []) :
    Memory (c.setPhys s) (t :: os) shared rest ps ∧ ∀ u ∈ os, Unaffected c.phys s u := by
  obtain ⟨hs, hun⟩ := h.spaces.add hc ha ht hp
  exact ⟨h.setPhys hs hc.kernel fun g hg => hc.taken.mem_used (h.kernel_used hg), hun⟩

end Memory

end GenOS
