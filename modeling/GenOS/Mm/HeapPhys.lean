import GenOS.Mm.HeapSafety
import GenOS.Mm.HeapStep
import GenOS.Mm.Spaces

/-!
# The kernel heap and physical memory

What a heap call does to the frames: `kmalloc` may take new tables for the kernel half and the
frames `F` behind the new pages, and keeps them also when it fails (`HeapGrown`); `kfree` does
nothing. Frames in use elsewhere are left alone.
-/

namespace GenOS

open Pmm Phys HeapBlock FirstFit

/-- The kernel's tables grew, and the frames `F` are taken. -/
structure Phys.KernelGrown (s s' : Phys) (F : List Nat) : Prop where
  kernel : s'.kernelPml4 = s.kernelPml4
  tree : s'.KernelTree
  moves : Moves s.pmm s'.pmm s.kernelTables (s'.kernelTables ++ F)
  nodup : (s'.kernelTables ++ F).Nodup
  used : ∀ f ∈ F, ¬ s'.pmm.FreeAt f
  /-- Frames in use elsewhere stay so, with their contents. -/
  others : ∀ g, g ∉ s.kernelTables → ¬ s.pmm.FreeAt g →
    s'.mem g = s.mem g ∧ g ∉ s'.kernelTables ++ F ∧ ¬ s'.pmm.FreeAt g
  /-- No table of the kernel goes. -/
  keeps : ∀ g ∈ s.kernelTables, g ∈ s'.kernelTables

/-- The frames behind the heap. -/
def Heap.frames (h : Heap) : List Nat :=
  (List.range ((h.fin - heapStart) / 4096)).filterMap fun i =>
    (h.phys.translate h.phys.kernelPml4 (heapStart + i * 4096)).map fun x => x.1.toNat

/-- What holds of the heap beside `Tiled`. -/
structure HeapPages (h : Heap) : Prop where
  aligned : h.fin % 65536 = 0
  tree : h.phys.KernelTree

/-- The heap grew by the frames `F`. -/
structure HeapGrown (h h' : Heap) (F : List Nat) : Prop where
  phys : h.phys.KernelGrown h'.phys F
  aligned : h'.fin % 65536 = 0
  frames : h'.frames = h.frames ++ F

variable {s s' s'' : Phys} {F F' : List Nat} {h h' h'' : Heap} {l : List Block} {want n r : Nat}

/-! ## Physical memory -/

theorem Phys.KernelGrown.refl (hk : s.KernelTree) : s.KernelGrown s [] := by
  refine ⟨rfl, hk, ?_, ?_, nofun, fun g hg hf => ⟨rfl, ?_, hf⟩, fun _ hg => hg⟩
  · rw [List.append_nil]
    exact .refl hk.tree.inv
  · rw [List.append_nil]
    exact hk.tree.nodup_tables
  · rwa [List.append_nil]

theorem Phys.KernelGrown.trans (h : s.KernelGrown s' F) (h' : s'.KernelGrown s'' F') :
    s.KernelGrown s'' (F ++ F') := by
  obtain ⟨-, hF, hdis⟩ := List.nodup_append.mp h.nodup
  have hkeep : ∀ f ∈ F, f ∉ s''.kernelTables ++ F' ∧ ¬ s''.pmm.FreeAt f := fun f hf =>
    (h'.others f (fun hk => hdis f hk f hf rfl) (h.used f hf)).2
  have hperm : (s''.kernelTables ++ F' ++ F).Perm (s''.kernelTables ++ (F ++ F')) := by
    rw [List.append_assoc]
    exact List.perm_append_comm.append_left _
  refine ⟨h'.kernel.trans h.kernel, h'.tree,
    (h.moves.comp (h'.moves.frame F)).perm (.refl _) hperm, hperm.nodup_iff.mp ?_, fun f hf => ?_,
    fun g hg hf => ?_, fun g hg => h'.keeps g (h.keeps g hg)⟩
  · refine List.nodup_append.mpr ⟨h'.nodup, hF, fun a ha b hb he => ?_⟩
    exact (hkeep b hb).1 (he ▸ ha)
  · exact (List.mem_append.mp hf).elim (fun hf => (hkeep f hf).2) (h'.used f)
  · obtain ⟨m1, n1, f1⟩ := h.others g hg hf
    obtain ⟨n1, n1'⟩ := not_or.mp (mt List.mem_append.mpr n1)
    obtain ⟨m2, n2, f2⟩ := h'.others g n1 f1
    obtain ⟨n2, n2'⟩ := not_or.mp (mt List.mem_append.mpr n2)
    refine ⟨m2.trans m1, fun hm => ?_, f2⟩
    rcases List.mem_append.mp hm with hm | hm
    · exact n2 hm
    · exact (List.mem_append.mp hm).elim n1' n2'

/-- What the kernel has now it had before, or it was free. -/
theorem Phys.KernelGrown.origin (h : s.KernelGrown s' F) {g : Nat}
    (hg : g ∈ s'.kernelTables ++ F) : g ∈ s.kernelTables ∨ s.pmm.FreeAt g := by
  by_contra hc
  obtain ⟨h1, h2⟩ := not_or.mp hc
  exact (h.others g h1 h2).2.1 hg

theorem Phys.Grew.kernelGrown {base : Nat} (h : Grew base s s' F []) (h₀ : s.KernelTree) :
    s.KernelGrown s' F := by
  have hm := h.moves
  have hn := h.nodup
  have hu := h.used
  have ho := h.others
  rw [List.append_nil] at hm hn hu ho
  exact ⟨h.kernel, h.tree, hm, hn, hu, ho, fun _ hg => h.keeps h₀ hg⟩

/-- **The owners do not notice**: their tables and pages are frames in use elsewhere. -/
theorem Phys.Spaces.grow {os : List Owner} {shared rest : List Nat} (h : Spaces s os shared rest)
    (hg : s.KernelGrown s' F) : Spaces s' os shared (F ++ rest) ∧ ∀ u ∈ os, Unaffected s s' u := by
  have hnd := List.nodup_append.mp h.tables
  have htable : ∀ u ∈ os, ∀ g ∈ s.tables u.pml4 lowerHalf,
      s'.mem g = s.mem g ∧ g ∉ s'.kernelTables ++ F ∧ ¬ s'.pmm.FreeAt g := fun u hu g hgu =>
    hg.others g (fun hk => hnd.2.2 g hk g (List.mem_flatMap.mpr ⟨u, hu, hgu⟩) rfl)
      ((h.owner u hu).tree.used_table hgu)
  have htab : ∀ u ∈ os, s'.tables u.pml4 lowerHalf = s.tables u.pml4 lowerHalf := fun u hu =>
    tables_of_mem fun g hgu => (htable u hu g hgu).1
  have hall : os.flatMap (fun t => s'.tables t.pml4 lowerHalf) =
      os.flatMap fun t => s.tables t.pml4 lowerHalf := List.flatMap_congr htab
  have hknd := List.nodup_append.mp hg.nodup
  refine ⟨⟨hg.tree, fun u hu => ?_, ?_, fun g hgt => ?_, fun a ha => ?_⟩, fun u hu =>
    ⟨fun va hva => translate_of_mem (fun g hgu => (htable u hu g hgu).1) hva,
      fun va hva p flags hp => ?_⟩⟩
  · exact (h.owner u hu).of_mem (fun g hgu => (htable u hu g hgu).1) hg.moves.inv hg.moves.total
      (fun g hgu => (htable u hu g hgu).2.2) fun a ha => hg.moves.tracked.mpr ha
  · unfold allTables
    rw [hall]
    refine List.nodup_append.mpr ⟨hg.tree.tree.nodup_tables, hnd.2.1, fun g hk g' hu he => ?_⟩
    subst he
    obtain ⟨u, hu, hgu⟩ := List.mem_flatMap.mp hu
    exact (htable u hu g hgu).2.1 (List.mem_append_left _ hk)
  · unfold allTables at hgt
    rw [hall] at hgt
    have hF : g ∉ F := by
      rcases List.mem_append.mp hgt with hk | hu
      · exact fun hf => hknd.2.2 g hk g hf rfl
      · obtain ⟨u, hu, hgu⟩ := List.mem_flatMap.mp hu
        exact fun hf => (htable u hu g hgu).2.1 (List.mem_append_right _ hf)
    have hold : g ∉ shared ++ rest ∧ ∀ u ∈ os, g ∉ u.userPages.map PageRecord.phys := by
      rcases List.mem_append.mp hgt with hk | hu
      · rcases hg.origin (List.mem_append_left _ hk) with hk | hf
        · exact h.apart g (List.mem_append_left _ hk)
        · exact ⟨fun ho => h.not_free (mem_held_others ho) hf, fun u hu hgu =>
            h.not_free (mem_held_page hu hgu) hf⟩
      · exact h.apart g (List.mem_append_right _ hu)
    refine ⟨fun hm => ?_, hold.2⟩
    rcases List.mem_append.mp hm with hm | hm
    · exact hold.1 (List.mem_append_left _ hm)
    · exact (List.mem_append.mp hm).elim hF fun hm => hold.1 (List.mem_append_right _ hm)
  · have hrefs := hg.moves.refs a (hg.moves.tracked.mp ha)
    have hold := h.refs a (hg.moves.tracked.mp ha)
    have hown : os.flatMap (owned s') = os.flatMap (owned s) := List.flatMap_congr fun u hu => by
      unfold owned
      rw [htab u hu]
    unfold held at hold ⊢
    rw [hown]
    simp only [List.count_append] at hrefs hold ⊢
    omega
  · obtain ⟨h1, h2⟩ := h.leaf_frame hu hva hp
    exact (hg.others _ (fun hk => h2 (List.mem_append_left _ hk)) h1).1

/-! ## Growth -/

theorem HeapGrown.refl (hp : HeapPages h) (bytes : Bytes.Mem) :
    HeapGrown h { h with bytes } [] :=
  ⟨.refl hp.tree, hp.aligned, (List.append_nil _).symm⟩

theorem HeapGrown.trans (h₁ : HeapGrown h h' F) (h₂ : HeapGrown h' h'' F') :
    HeapGrown h h'' (F ++ F') :=
  ⟨h₁.phys.trans h₂.phys, h₂.aligned, by rw [h₂.frames, h₁.frames, List.append_assoc]⟩

theorem HeapGrown.pages (h₁ : HeapGrown h h' F) : HeapPages h' := ⟨h₁.aligned, h₁.phys.tree⟩

/-- The step that starts at the heap's end. -/
theorem growBase (ht : Tiled h l) (hp : HeapPages h) (hlt : h.fin ≤ 2 ^ 64 - 1 - 65536) :
    GrowBase h.fin :=
  ⟨by have := ht.fin; simp only [heapStart] at this; omega, hp.aligned, by omega⟩

/-- The pages below the step keep their frames. -/
theorem Phys.Grew.frame_below {base : Nat} (hg : Grew base s s' F []) (hb : GrowBase base)
    (hF : F.length ≤ 16) {va : Nat} (hva : heapStart ≤ va) (hlt : va + 4096 ≤ base)
    (ha : va % 4096 = 0) : s'.translate s'.kernelPml4 va = s.translate s.kernelPml4 va := by
  have hc : canonical va = true := by
    rw [canonical_iff]
    simp only [heapStart] at hva
    have := hb.lt
    omega
  rw [hg.kernel]
  refine translate_congr (hg.view _ (inRange_indexAt va) fun i hi hat => ?_)
  have := atPage_inj hat (atPage_self va) (hb.canonical (by omega)) hc hb.page ha
  omega

/-- The pages of the step have the new frames. -/
theorem Phys.Grew.frame_new {base : Nat} (hg : Grew base s s' F []) (hb : GrowBase base)
    (hF : F.length ≤ 16) {i : Nat} (hi : i < F.length) :
    (s'.translate s'.kernelPml4 (base + i * 4096)).map (fun x => x.1.toNat) = F[i]? := by
  obtain ⟨es, hes, -, hl⟩ := hg.leaf i F[i] (List.getElem?_eq_getElem hi)
  obtain ⟨-, ha, hlt⟩ := hg.small F[i] (List.mem_append_left _ (List.getElem_mem hi))
  have hbuilt : Word.Built (BitVec.ofNat 64 F[i] ||| heapFlags) (BitVec.ofNat 64 F[i]) heapFlags :=
    Word.built (Word.address_ofNat ha hlt) (by decide)
  rw [hg.kernel, translate_of_leaf (hb.canonical (by omega)) hes hbuilt hl,
    List.getElem?_eq_getElem hi]
  exact congrArg some (Word.toNat_ofNat hlt)

theorem filterMap_getElem? (l : List Nat) : (List.range l.length).filterMap (l[·]?) = l := by
  induction l with
  | nil => rfl
  | cons a l ih =>
    rw [List.length_cons, List.range_succ_eq_map, List.filterMap_cons, List.filterMap_map]
    exact congrArg (a :: ·) ih

/-- A step that succeeded adds its frames at the end. -/
theorem Phys.Grew.frames {base : Nat} (ht : Tiled h l) (hp : HeapPages h) (hb : base = h.fin)
    (hlt : h.fin ≤ 2 ^ 64 - 1 - 65536) (hg : Grew base h.phys s' F []) (hF : F.length = 16)
    (bytes : Bytes.Mem) :
    Heap.frames { h with phys := s', bytes, fin := h.fin + 65536 } = h.frames ++ F := by
  subst hb
  have hbase := growBase ht hp hlt
  have hfin : heapStart ≤ h.fin := by
    have := ht.fin
    omega
  have ha := hp.aligned
  have hst : heapStart % 65536 = 0 := by decide
  obtain ⟨m, hm⟩ : ∃ m, h.fin = heapStart + m * 4096 := ⟨(h.fin - heapStart) / 4096, by omega⟩
  unfold Heap.frames
  simp only
  have h1 : (h.fin + 65536 - heapStart) / 4096 = m + 16 := by omega
  have h2 : (h.fin - heapStart) / 4096 = m := by
    rw [hm, Nat.add_sub_cancel_left, Nat.mul_div_cancel _ (by decide)]
  rw [h1, h2, List.range_add, List.filterMap_append, List.filterMap_map]
  congr 1
  · refine List.filterMap_congr fun i hi => ?_
    have hi := List.mem_range.mp hi
    rw [hg.frame_below hbase (by omega) (by omega) (by omega) (by omega)]
  · have hnew : ∀ i ∈ List.range 16, ((fun i => (s'.translate s'.kernelPml4
        (heapStart + i * 4096)).map fun x => x.1.toNat) ∘ (m + ·)) i = F[i]? := fun i hi => by
      have hi := List.mem_range.mp hi
      have hva : heapStart + (m + i) * 4096 = h.fin + i * 4096 := by omega
      show (s'.translate s'.kernelPml4 (heapStart + (m + i) * 4096)).map _ = _
      rw [hva]
      exact hg.frame_new hbase (by omega) (by omega)
    rw [List.filterMap_congr hnew, ← hF]
    exact filterMap_getElem? F

/-! ## The calls -/

theorem heapGrow_tiled (ht : Tiled h l) {grown : Bool} (he : h.heapGrow = some (grown, h')) :
    ∃ l', Tiled h' l' := by
  rcases heapGrow_cases ht with ⟨-, hc⟩ | ⟨i, s, -, -, hc⟩ | ⟨s, bytes, -, -, hc, ht', -⟩
  · rw [hc] at he
    cases he
    exact ⟨l, ht⟩
  · rw [hc] at he
    cases he
    exact ⟨l, ht.head, ht.seg, ht.fin, ht.lt, ht.good, ht.cons⟩
  · rw [hc] at he
    cases he
    exact ⟨_, ht'⟩

theorem heapGrow_grown (ht : Tiled h l) (hp : HeapPages h) {grown : Bool}
    (he : h.heapGrow = some (grown, h')) : ∃ F, HeapGrown h h' F := by
  rcases heapGrow_cases ht with ⟨-, hc⟩ | ⟨i, s, hlt, hl, hc⟩ | ⟨s, bytes, hlt, hl, hc, -, -⟩
  · rw [hc] at he
    cases he
    exact ⟨[], .refl hp h.bytes⟩
  · have hb := growBase ht hp hlt
    obtain ⟨r, F, s', hl', hg, hle, -, -, hr⟩ := growLoop_spec hp.tree hb
    rw [hl] at hl'
    cases hl'
    have hi := (hr i rfl).1
    -- the rollback gives the frames back
    obtain ⟨hg', -⟩ := growRollback_spec hb hi.symm (by omega) hg
    rw [hc] at he
    cases he
    refine ⟨[], hg'.kernelGrown hp.tree, hp.aligned, ?_⟩
    rw [List.append_nil]
    refine List.filterMap_congr fun j hj => ?_
    have hj := List.mem_range.mp hj
    have hfin := ht.fin
    simp only at hj ⊢
    rw [hg'.frame_below hb (Nat.zero_le _) (Nat.le_add_right _ _) ?_ ?_]
    · have := hp.aligned
      omega
    · have : heapStart % 4096 = 0 := rfl
      omega
  · have hb := growBase ht hp hlt
    obtain ⟨r, F, s', hl', hg, -, -, hr, -⟩ := growLoop_spec hp.tree hb
    rw [hl] at hl'
    cases hl'
    have hlen := (hr rfl).1
    rw [hc] at he
    cases he
    refine ⟨F, hg.kernelGrown hp.tree, ?_, hg.frames ht hp rfl hlt hlen bytes⟩
    have := hp.aligned
    simp only
    omega

theorem kmallocLoop_grown : ∀ {n : Nat} {h : Heap} {l : List Block}, Tiled h l → HeapPages h →
    Heap.kmallocLoop want n h = some (r, h') → ∃ F, HeapGrown h h' F
  | 0, _, _, _, _, he => by cases he
  | n + 1, h, l, ht, hp, he => by
    rw [Heap.kmallocLoop] at he
    obtain ⟨curr, -, he⟩ := Option.bind_eq_some_iff.mp he
    split at he
    · cases he
      exact ⟨[], .refl hp _⟩
    · obtain ⟨⟨grown, h₁⟩, hgr, he⟩ := Option.bind_eq_some_iff.mp he
      obtain ⟨F, hF⟩ := heapGrow_grown ht hp hgr
      dsimp only at he
      split at he
      · obtain ⟨l₁, ht₁⟩ := heapGrow_tiled ht hgr
        obtain ⟨F', hF'⟩ := kmallocLoop_grown ht₁ hF.pages he
        exact ⟨F ++ F', hF.trans hF'⟩
      · cases he
        exact ⟨F, hF⟩

/-- **`kmalloc`**, for physical memory. -/
theorem kmalloc_grown (ht : Tiled h l) (hp : HeapPages h) {size : Nat}
    (he : h.kmalloc size = some (r, h')) : ∃ F, HeapGrown h h' F := by
  unfold Heap.kmalloc at he
  split at he
  · cases he
    exact ⟨[], .refl hp h.bytes⟩
  · exact kmallocLoop_grown ht hp he

/-- `kfree` writes to the heap only. -/
theorem kfree_bytes {ptr : Nat} (he : h.kfree ptr = some h') : ∃ bytes, h' = { h with bytes } := by
  unfold Heap.kfree at he
  split at he
  · cases he
    exact ⟨h.bytes, rfl⟩
  · obtain ⟨prev, -, he⟩ := Option.bind_eq_some_iff.mp he
    cases he
    exact ⟨_, rfl⟩

/-! ## The client -/

namespace HeapClient

variable {c c' : HeapClient} {ps ps' : List Nat} {p size : Nat}

/-- `kmalloc`, with the blocks handed out. -/
def kmalloc (c : HeapClient) (size : Nat) : Option (Nat × HeapClient) := c.call (.kmalloc size)

/-- `kfree`. -/
def kfree (c : HeapClient) (ptr : Nat) : Option HeapClient := (c.call (.kfree ptr)).map Prod.snd

def phys (c : HeapClient) : Phys := c.heap.phys

/-- The same heap, over other physical memory. -/
def setPhys (c : HeapClient) (s : Phys) : HeapClient := { c with heap := { c.heap with phys := s } }

@[simp] theorem phys_setPhys (c : HeapClient) (s : Phys) : (c.setPhys s).phys = s := rfl

/-- The heap is sound, and `ps` are different live blocks of it. -/
structure Holding (c : HeapClient) (ps : List Nat) : Prop where
  owned : ∃ l, Owned c l
  pages : HeapPages c.heap
  nodup : ps.Nodup
  held : ∀ p ∈ ps, ∃ n, (p, n) ∈ c.live

namespace Holding

theorem perm (h : Holding c ps) (hp : ps.Perm ps') : Holding c ps' :=
  ⟨h.owned, h.pages, hp.nodup_iff.mp h.nodup, fun p hm => h.held p (hp.mem_iff.mpr hm)⟩

theorem setPhys (h : Holding c ps) {s : Phys} (hs : s.KernelTree) : Holding (c.setPhys s) ps := by
  obtain ⟨l, ho⟩ := h.owned
  have ht := ho.tiled
  exact ⟨⟨l, ⟨ht.head, ht.seg, ht.fin, ht.lt, ht.good, ht.cons⟩, ho.holds⟩,
    ⟨h.pages.aligned, hs⟩, h.nodup, h.held⟩

/-- **`kmalloc`**: a block the client does not hold, or none. -/
theorem kmalloc (h : Holding c ps) (size : Nat) : ∃ r c' F, c.kmalloc size = some (r, c') ∧
    HeapGrown c.heap c'.heap F ∧ Holding c' (if r = 0 then ps else r :: ps) := by
  obtain ⟨l, ho⟩ := h.owned
  obtain ⟨r, c', l', he, ho', -⟩ := kmalloc_step ho size
  have hcall := call_kmalloc c size
  obtain ⟨⟨r₀, h₀⟩, hm⟩ : ∃ x, c.heap.kmalloc size = some x := by
    cases hm : c.heap.kmalloc size with
    | none =>
      rw [he, hm] at hcall
      cases hcall
    | some x => exact ⟨x, rfl⟩
  rw [he, hm] at hcall
  cases hcall
  obtain ⟨F, hF⟩ := kmalloc_grown ho.tiled h.pages hm
  refine ⟨r₀, _, F, he, hF, ?_⟩
  dsimp only at ho' ⊢
  by_cases hr : r₀ = 0
  · rw [if_pos hr] at ho'
    rw [if_pos hr, if_pos hr]
    exact ⟨⟨l', ho'⟩, hF.pages, h.nodup, h.held⟩
  · rw [if_neg hr] at ho'
    rw [if_neg hr, if_neg hr]
    have hnd := List.nodup_cons.mp ho'.holds.nodup
    refine ⟨⟨l', ho'⟩, hF.pages, List.nodup_cons.mpr ⟨fun hm => ?_, h.nodup⟩, fun p hp => ?_⟩
    · obtain ⟨n, hn⟩ := h.held _ hm
      exact hnd.1 (List.mem_map.mpr ⟨_, hn, rfl⟩)
    · rcases List.mem_cons.mp hp with rfl | hp
      · exact ⟨size, List.mem_cons_self⟩
      · obtain ⟨n, hn⟩ := h.held p hp
        exact ⟨n, List.mem_cons_of_mem _ hn⟩

/-- **`kfree`** of a block the client holds. -/
theorem kfree (h : Holding c (p :: ps)) : ∃ c', c.kfree p = some c' ∧ c'.phys = c.phys ∧
    c'.heap.fin = c.heap.fin ∧ Holding c' ps := by
  obtain ⟨l, ho⟩ := h.owned
  obtain ⟨r, c', l', he, ho', -⟩ := kfree_step ho (.inr (h.held p List.mem_cons_self))
  have hcall := call_kfree c p
  obtain ⟨h₀, hm⟩ : ∃ x, c.heap.kfree p = some x := by
    cases hm : c.heap.kfree p with
    | none =>
      rw [he, hm] at hcall
      cases hcall
    | some x => exact ⟨x, rfl⟩
  obtain ⟨bytes, rfl⟩ := kfree_bytes hm
  rw [he, hm] at hcall
  cases hcall
  obtain ⟨hnot, hnd⟩ := List.nodup_cons.mp h.nodup
  refine ⟨⟨{ c.heap with bytes }, drop c.live p⟩, by rw [HeapClient.kfree, he]; rfl, rfl, rfl,
    ⟨l', ho'⟩, ⟨h.pages.aligned, h.pages.tree⟩, hnd, fun q hq => ?_⟩
  obtain ⟨n, hn⟩ := h.held q (List.mem_cons_of_mem _ hq)
  refine ⟨n, mem_drop.mpr ⟨hn, ?_⟩⟩
  rintro rfl
  exact hnot hq

end Holding

end HeapClient

end GenOS
