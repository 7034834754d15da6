import GenOS.Mm.Heap
import GenOS.Mm.KernelTree
import GenOS.Mm.VmmCount

/-!
# One growth step of the kernel heap

`Grew base s₀ s F X`: since `s₀` the first pages from `base` on were mapped to the frames `F`, the
frames `X` are held but not mapped, and nothing else a lookup can see has changed. Each statement of
the loop of `heap_grow`, and of its rollback, moves one frame between the allocator, `X` and `F`.
-/

namespace GenOS.Phys

open Radix Pmm

/-- The page table entries the heap makes: present and writable. -/
abbrev heapFlags : Word := 3#64

structure Grew (base : Nat) (s₀ s : Phys) (F X : List Nat) : Prop where
  kernel : s.kernelPml4 = s₀.kernelPml4
  deny : s.deny = s₀.deny
  tree : s.KernelTree
  moves : Moves s₀.pmm s.pmm s₀.kernelTables (s.kernelTables ++ (F ++ X))
  nodup : (s.kernelTables ++ (F ++ X)).Nodup
  used : ∀ f ∈ F ++ X, ¬ s.pmm.FreeAt f
  small : ∀ f ∈ F ++ X, f ≠ 0 ∧ f % 4096 = 0 ∧ f < 2 ^ 52
  /-- Frames in use elsewhere stay so, with their contents. -/
  others : ∀ g, g ∉ s₀.kernelTables → ¬ s₀.pmm.FreeAt g →
    s.mem g = s₀.mem g ∧ g ∉ s.kernelTables ++ (F ++ X) ∧ ¬ s.pmm.FreeAt g
  leaf : ∀ i f, F[i]? = some f → ∃ es, es.length = 3 ∧ (∀ e ∈ es, refused heapFlags e = false) ∧
    s.lookup s₀.kernelPml4 (indexAt (base + i * 4096)) =
      some (es ++ [BitVec.ofNat 64 f ||| heapFlags])
  view : ∀ k, pageShape.InRange k → (∀ i < F.length, ¬ AtPage k (base + i * 4096)) →
    s.lookup s₀.kernelPml4 k = s₀.lookup s₀.kernelPml4 k
  fresh : ∀ i < F.length, s₀.lookup s₀.kernelPml4 (indexAt (base + i * 4096)) = none
  root : ∀ i < 512, (i = indexAt base 3 →
      (s₀.mem s₀.kernelPml4 (indexAt base 3)).has ptePresent = true) →
    pageShape.Same (s₀.mem s₀.kernelPml4 i) (s.mem s₀.kernelPml4 i)
  top : (s₀.mem s₀.kernelPml4 (indexAt base 3)).has ptePresent = false →
    (s.mem s₀.kernelPml4 (indexAt base 3)).has ptePresent = false ∨
    ∃ c, pageShape.child (s.mem s₀.kernelPml4 (indexAt base 3)) = some c ∧ s₀.pmm.FreeAt c

/-- The 16 pages of a growth step lie in the kernel half, behind one entry of the root. -/
structure GrowBase (base : Nat) : Prop where
  upper : 0xFFFF800000000000 ≤ base
  aligned : base % 65536 = 0
  lt : base + 65536 ≤ 2 ^ 64

variable {base i f n : Nat} {s₀ s s' : Phys} {F X : List Nat} {p : Pmm}

namespace GrowBase

theorem canonical (h : GrowBase base) (hi : i < 16) : canonical (base + i * 4096) = true := by
  have h1 := h.upper
  have h2 := h.lt
  rw [canonical_iff]
  omega

theorem page (h : GrowBase base) : (base + i * 4096) % 4096 = 0 := by
  have := h.aligned
  omega

theorem index (h : GrowBase base) (hi : i < 16) {l : Nat} (hl : 1 ≤ l) (hl' : l ≤ 3) :
    indexAt (base + i * 4096) l = indexAt base l := by
  have := h.aligned
  simp only [indexAt]
  obtain rfl | rfl | rfl : l = 1 ∨ l = 2 ∨ l = 3 := by omega
  · omega
  · omega
  · omega

/-- Different pages of a step have different indices. -/
theorem apart (h : GrowBase base) {j : Nat} (hi : i < 16) (hj : j < 16) {k : Nat → Nat}
    (h1 : AtPage k (base + i * 4096)) (h2 : AtPage k (base + j * 4096)) : i = j := by
  have := atPage_inj h1 h2 (h.canonical hi) (h.canonical hj) h.page h.page
  omega

end GrowBase

/-- A lookup that ends in a 4 KiB leaf. -/
theorem reaches_of_lookup {r va : Nat} {es : List Word} {w : Word}
    (h : s.lookup r (indexAt va) = some (es ++ [w])) (hes : es.length = 3) :
    ∃ t, s.Reaches r va 0 t es ∧ s.mem t (indexAt va 0) = w ∧ w.has ptePresent = true := by
  obtain ⟨j, t, hw⟩ := walk_of_path (List.cons_ne_nil w []) h
  have hj := hw.length
  obtain rfl : j = 0 := by omega
  refine ⟨t, hw, ?_⟩
  rw [lookup, hw.path_eq, path_zero] at h
  split at h
  · rename_i hl
    simp only [Option.map_some, Option.some.injEq, List.append_cancel_left_eq, List.cons.injEq,
      and_true] at h
    rw [h] at hl
    exact ⟨h, hl⟩
  · cases h

namespace Grew

theorem refl (h : s.KernelTree) : Grew base s s [] [] := by
  refine ⟨rfl, rfl, h, ?_, ?_, by simp, by simp, fun g hg hf => ⟨rfl, ?_, hf⟩,
    fun i f hi => by simp at hi,
    fun _ _ _ => rfl, fun i hi => absurd hi (Nat.not_lt_zero i), fun _ _ _ => .inl rfl,
    fun hd => .inl hd⟩
  · rw [List.append_nil, List.append_nil]
    exact .refl h.tree.inv
  · rw [List.append_nil, List.append_nil]
    exact h.tree.nodup_tables
  · rwa [List.append_nil, List.append_nil]

/-- A request for a frame that failed. -/
theorem tick (h : Grew base s₀ s F X) (n : Nat) : Grew base s₀ { s with asked := n } F X :=
  ⟨h.kernel, h.deny,
    h.tree.of_pmm (Moves.refl (A := []) h.tree.tree.inv) (fun _ _ => Nat.le_refl _) n, h.moves,
    h.nodup, h.used, h.small, h.others, h.leaf, h.view, h.fresh, h.root, h.top⟩

/-- A frame was obtained. -/
theorem alloc (h : Grew base s₀ s F X) (h0 : f ≠ 0) (hf : s.pmm.FreeAt f)
    (hm : Moves s.pmm p [] [f]) (n : Nat) :
    Grew base s₀ { s with pmm := p, asked := n } F (X ++ [f]) := by
  have hfT : f ∉ s.kernelTables ++ (F ++ X) := fun hg => by
    rcases List.mem_append.mp hg with hg | hg
    · exact h.tree.tree.used_table hg hf
    · exact h.used f hg hf
  have hsm := freeAt_lt h.tree.tree.small hf
  have hkeep : ∀ g, ¬ s.pmm.FreeAt g → ¬ p.FreeAt g := fun g hg => hm.not_freeAt hg (Nat.zero_le _)
  have htab : ({ s with pmm := p, asked := n } : Phys).kernelTables = s.kernelTables := rfl
  refine ⟨h.kernel, h.deny, h.tree.of_pmm hm (fun _ _ => Nat.zero_le _) n, ?_, ?_, fun g hg => ?_,
    fun g hg => ?_, fun g hg hu => ?_, h.leaf, h.view, h.fresh, h.root, h.top⟩
  · rw [htab, ← List.append_assoc F, ← List.append_assoc]
    have := h.moves.trans hm
    rwa [List.append_nil] at this
  · rw [htab, ← List.append_assoc F, ← List.append_assoc]
    exact List.nodup_append.mpr ⟨h.nodup, List.nodup_singleton f, fun a ha b hb hab =>
      hfT (by rw [← List.mem_singleton.mp hb, ← hab]; exact ha)⟩
  · rw [← List.append_assoc] at hg
    rcases List.mem_append.mp hg with hg | hg
    · exact hkeep g (h.used g hg)
    · rw [List.mem_singleton.mp hg]
      intro hc
      have h1 := hm.refs f hf.1
      rw [List.count_singleton_self, List.count_nil, hc.2] at h1
      omega
  · rw [← List.append_assoc] at hg
    rcases List.mem_append.mp hg with hg | hg
    · exact h.small g hg
    · rw [List.mem_singleton.mp hg]
      exact ⟨h0, hsm⟩
  · obtain ⟨h1, h2, h3⟩ := h.others g hg hu
    refine ⟨h1, fun hc => ?_, hkeep g h3⟩
    rw [htab, ← List.append_assoc F, ← List.append_assoc] at hc
    rcases List.mem_append.mp hc with hc | hc
    · exact h2 hc
    · rw [List.mem_singleton.mp hc] at h3
      exact h3 hf

/-- A frame that is held but not mapped goes back. -/
theorem free (h : Grew base s₀ s F (X ++ [f])) : Grew base s₀ (s.freeFrame f) F X := by
  have hnd := h.nodup
  rw [← List.append_assoc F, ← List.append_assoc] at hnd
  obtain ⟨hnd, -, hdis⟩ := List.nodup_append.mp hnd
  have hne : ∀ g ∈ s.kernelTables ++ (F ++ X),
    g ≠ f := fun g hg => hdis g hg f (List.mem_singleton_self f)
  have hm := freePage_moves h.tree.tree.inv (h.used f (by simp))
  have hcount : ∀ g, g ≠ f → [f].count g ≤ ([] : List Nat).count g := fun g hg => by
    rw [List.count_singleton, beq_eq_false_iff_ne.mpr hg.symm]
    exact Nat.le_refl 0
  have hsub : ∀ g, g ∈ F ++ X → g ∈ F ++ (X ++ [f]) := fun g hg => by
    rw [← List.append_assoc]
    exact List.mem_append_left _ hg
  have htab : (s.freeFrame f).kernelTables = s.kernelTables := rfl
  refine ⟨h.kernel, h.deny,
    h.tree.of_pmm hm (fun g hg => hcount g (hne g (List.mem_append_left _ hg)))
    s.asked, ?_, hnd, fun g hg => ?_, fun g hg => h.small g (hsub g hg), fun g hg hu => ?_, h.leaf,
    h.view, h.fresh, h.root, h.top⟩
  · have h1 := h.moves
    rw [← List.append_assoc F, ← List.append_assoc] at h1
    have h2 := hm.frame (s.kernelTables ++ (F ++ X))
    exact h1.comp (h2.perm List.perm_append_comm (.refl _))
  · exact hm.not_freeAt (h.used g (hsub g hg)) (hcount g (hne g (List.mem_append_right _ hg)))
  · obtain ⟨h1, h2, h3⟩ := h.others g hg hu
    rw [← List.append_assoc F, ← List.append_assoc, List.mem_append, not_or,
      List.mem_singleton] at h2
    exact ⟨h1, h2.1, hm.not_freeAt h3 (hcount g h2.2)⟩

/-- A call on the tree that keeps the root's old entries; the lookups are left open. -/
theorem step (h : Grew base s₀ s F X) (he : Eff s.kernelPml4 wholeTree s [] s' [])
    (ht : s'.KernelTree) :
    s'.kernelPml4 = s₀.kernelPml4 ∧ s'.deny = s₀.deny ∧
    Moves s₀.pmm s'.pmm s₀.kernelTables (s'.kernelTables ++ (F ++ X)) ∧
    (s'.kernelTables ++ (F ++ X)).Nodup ∧ (∀ f ∈ F ++ X, ¬ s'.pmm.FreeAt f) ∧
    ∀ g, g ∉ s₀.kernelTables → ¬ s₀.pmm.FreeAt g →
      s'.mem g = s₀.mem g ∧ g ∉ s'.kernelTables ++ (F ++ X) ∧ ¬ s'.pmm.FreeAt g := by
  have hk := he.kernel
  have htab : s'.tables s.kernelPml4 wholeTree = s'.kernelTables := by rw [kernelTables, hk]
  have hmv : Moves s.pmm s'.pmm s.kernelTables s'.kernelTables := by
    have := he.moves
    rwa [List.append_nil, List.append_nil, htab] at this
  -- a frame in use outside the tree stays outside, and in use
  have hkeep : ∀ g, g ∉ s.kernelTables → ¬ s.pmm.FreeAt g → g ∉ s'.kernelTables ∧
      ¬ s'.pmm.FreeAt g :=
    fun g hg hf => by
      have := @Eff.used _ _ _ _ _ _ he g (by rw [List.append_nil]; exact hg) hf
      rwa [List.append_nil, htab] at this
  obtain ⟨hn1, hn2, hn3⟩ := List.nodup_append.mp h.nodup
  have hO : ∀ f ∈ F ++ X, f ∉ s'.kernelTables ∧ ¬ s'.pmm.FreeAt f := fun f hf =>
    hkeep f (fun hc => hn3 f hc f hf rfl) (h.used f hf)
  refine ⟨hk.trans h.kernel, he.deny.trans h.deny, h.moves.comp (hmv.frame _),
    List.nodup_append.mpr ⟨ht.tree.nodup_tables, hn2, fun a ha b hb hab => (hO b hb).1 (hab ▸ ha)⟩,
    fun f hf => (hO f hf).2, fun g hg hu => ?_⟩
  obtain ⟨h1, h2, h3⟩ := h.others g hg hu
  rw [List.mem_append, not_or] at h2
  obtain ⟨h4, h5⟩ := hkeep g h2.1 h3
  refine ⟨(he.mem g (by rw [List.append_nil]; exact h2.1) h3).trans h1, fun hc => ?_, h5⟩
  rcases List.mem_append.mp hc with hc | hc
  · exact h4 hc
  · exact h2.2 hc

/-- A call that failed. -/
theorem unchanged (h : Grew base s₀ s F X) (hu : Unchanged s.kernelPml4 wholeTree s [] s') :
    Grew base s₀ s' F X := by
  have ht := h.tree.unchanged hu
  obtain ⟨h1, h2, h3, h4, h5, h6⟩ := h.step hu.eff ht
  have hk := h.kernel
  have hword : ∀ i, pageShape.Same (s.mem s₀.kernelPml4 i) (s'.mem s₀.kernelPml4 i) := fun i => by
    rw [← hk]
    exact hu.words _ (root_mem s _ _) i
  have hview : ∀ k, pageShape.InRange k → s'.lookup s₀.kernelPml4 k = s.lookup s₀.kernelPml4 k :=
    fun k hkr => by
      rw [← hk]
      exact hu.view k hkr (mem_wholeTree.mpr (hkr 3))
  refine ⟨h1, h2, ht, h3, h4, h5, h.small, h6, fun i f hi => ?_, fun k hkr hp => ?_, h.fresh,
    fun i hi hs => (h.root i hi hs).trans (hword i), fun hd => ?_⟩
  · rw [hview _ (inRange_indexAt _)]
    exact h.leaf i f hi
  · rw [hview k hkr]
    exact h.view k hkr hp
  · rw [(hword _).child]
    refine (h.top hd).imp_left fun hd' => ?_
    exact (hword _).live.trans hd'

/-- Behind a new entry of the root nothing is mapped yet. -/
theorem empty_of_dead (h : Grew base s₀ s F X) (hb : GrowBase base)
    (hd : (s.mem s₀.kernelPml4 (indexAt base 3)).has ptePresent = false) : F = [] := by
  cases F with
  | nil => rfl
  | cons f F =>
    obtain ⟨es, -, -, hl⟩ := h.leaf 0 f rfl
    have hnone : s.lookup s₀.kernelPml4 (indexAt (base + 0 * 4096)) = none := path_of_dead (by
      rw [hb.index (by decide) (by decide) (by decide)]
      exact hd)
    rw [hnone] at hl
    cases hl

/-- As long as nothing is mapped, a free frame was free before. -/
theorem freeAt (h : Grew base s₀ s [] X) (h₀ : s₀.KernelTree) (hf : s.pmm.FreeAt f) :
    s₀.pmm.FreeAt f := by
  by_contra hc
  by_cases hT : f ∈ s₀.kernelTables
  · -- the tables are those of `s₀`
    have hv : SameView s₀.kernelPml4 wholeTree s₀ s := fun k hk _ => h.view k hk fun i hi => by
      cases hi
    rcases kernelTables_perm h₀ h.tree h.kernel (indexAt_lt base 3) hv h.root h.top with
      ⟨hp, -⟩ | ⟨c, -, -, hp⟩
    · exact h.tree.tree.used_table (hp.mem_iff.mpr hT) hf
    · exact h.tree.tree.used_table (hp.mem_iff.mpr (List.mem_cons_of_mem c hT)) hf
  · exact (h.others f hT hc).2.2 hf

/-- No table of the kernel goes: a lookup that found something before the step finds it still. -/
theorem keeps (h : Grew base s₀ s F X) (h₀ : s₀.KernelTree) {g : Nat} (hg : g ∈ s₀.kernelTables) :
    g ∈ s.kernelTables := by
  have hk := h.kernel
  rcases KernelTree.mem_kernelTables.mp hg with rfl | ⟨i, hi, hgi⟩
  · rw [← hk]
    exact root_mem s _ _
  have hsame : pageShape.Same (s₀.mem s₀.kernelPml4 i) (s.mem s₀.kernelPml4 i) :=
    h.root i hi fun he => by
      cases hc : pageShape.child (s₀.mem s₀.kernelPml4 i) with
      | none =>
        rw [sub_of_none _ hc] at hgi
        cases hgi
      | some c => exact he ▸ (child_eq_some hc).1
  have hsub := h₀.sub_subset hi hsame (fun k hk' hne => h.view k hk' fun j hj hat => hne ?_) hgi
  · exact KernelTree.mem_kernelTables.mpr (.inr ⟨i, hi, hk ▸ hsub⟩)
  · rw [hat.lookup]
    exact h.fresh j hj

/-- A held frame was mapped at the next page. -/
theorem page {es : List Word} (h : Grew base s₀ s F [f]) (h₀ : s₀.KernelTree) (hb : GrowBase base)
    (hF : F.length < 16)
    (hm : Mapped s.kernelPml4 wholeTree s [] s' (base + F.length * 4096) (BitVec.ofNat 64 f)
      heapFlags es)
    (hother : ∀ i, i ≠ indexAt base 3 → s'.mem s.kernelPml4 i = s.mem s.kernelPml4 i) :
    Grew base s₀ s' (F ++ [f]) [] := by
  have ht := h.tree.mapped hm
  obtain ⟨h1, h2, h3, h4, h5, h6⟩ := h.step hm.eff ht
  have hk := h.kernel
  rw [hk] at hm hother
  have hva := inRange_indexAt (base + F.length * 4096)
  -- the earlier pages are other pages
  have hapart : ∀ i < F.length, ¬ AtPage (indexAt (base + F.length * 4096)) (base + i * 4096) :=
    fun i hi hp => by
      have := hb.apart (by omega) hF hp (atPage_self _)
      omega
  have hview : ∀ k, pageShape.InRange k → ¬ AtPage k (base + F.length * 4096) →
      s'.lookup s₀.kernelPml4 k = s.lookup s₀.kernelPml4 k := fun k hkr hp =>
    (hm.view k hkr (mem_wholeTree.mpr (hkr 3))).trans (if_neg hp)
  refine ⟨h1, h2, ht, by rw [List.append_nil]; exact h3, by rw [List.append_nil]; exact h4,
    by rw [List.append_nil]; exact h5, by rw [List.append_nil]; exact h.small,
    by rw [List.append_nil]; exact h6, fun i g hi => ?_, fun k hkr hp => ?_, fun i hi => ?_,
    fun i hi hs => ?_, fun hd => ?_⟩
  · by_cases hil : i < F.length
    · rw [List.getElem?_append_left hil] at hi
      rw [hview _ (inRange_indexAt _) fun hp => ?_]
      · exact h.leaf i g hi
      · have := hb.apart (by omega) hF (atPage_self _) hp
        omega
    · have hlen : i = F.length := by
        have := (List.getElem?_eq_some_iff.mp hi).1
        simp only [List.length_append, List.length_singleton] at this
        omega
      subst hlen
      rw [List.getElem?_concat_length] at hi
      cases hi
      refine ⟨es, hm.length, hm.permits, ?_⟩
      rw [hm.view _ hva (index_whole _), if_pos fun l _ => rfl]
  · rw [List.length_append, List.length_singleton] at hp
    rw [hview k hkr (hp _ (Nat.lt_succ_self _))]
    exact h.view k hkr fun i hi => hp i (by omega)
  · rw [List.length_append, List.length_singleton] at hi
    by_cases hil : i < F.length
    · exact h.fresh i hil
    · obtain rfl : i = F.length := by omega
      rw [← h.view _ hva hapart]
      exact hm.before
  · by_cases his : i = indexAt base 3
    · refine (h.root i hi hs).trans (.inl (hm.live _ (root_mem s _ _) i ?_).symm)
      subst his
      exact (h.root _ hi hs).live.trans (hs rfl)
    · exact (h.root i hi hs).trans (.inl (hother i his).symm)
  · have hidx := hb.index hF (l := 3) (by decide) (by decide)
    rcases h.top hd with hd' | ⟨c, hc, hf⟩
    · obtain rfl := h.empty_of_dead hb hd'
      have hfree := h.freeAt h₀ (hm.top (by rw [hidx]; exact hd'))
      have hl := hm.view _ hva (index_whole _)
      rw [if_pos fun l _ => rfl] at hl
      obtain ⟨t, hw, -, -⟩ := reaches_of_lookup hl hm.length
      cases hw with
      | @down _ _ c _ _ _ hc _ =>
        rw [(child_eq_some hc).2.2] at hfree
        rw [hidx] at hc
        exact .inr ⟨c, hc, hfree⟩
    · refine .inr ⟨c, ?_, hf⟩
      rw [hm.live _ (root_mem s _ _) _ (child_eq_some hc).1]
      exact hc

/-- The last page was unmapped; its frame is held again. -/
theorem unpage (h : Grew base s₀ s (F ++ [f]) []) (hb : GrowBase base) (hF : F.length < 16) :
    (s.vmmUnmapPage (base + F.length * 4096)).1 = BitVec.ofNat 64 f ∧
    Grew base s₀ (s.vmmUnmapPage (base + F.length * 4096)).2 F [f] ∧
    (s.vmmUnmapPage (base + F.length * 4096)).2.mem s.kernelPml4 = s.mem s.kernelPml4 := by
  have hva := inRange_indexAt (base + F.length * 4096)
  have hk := h.kernel
  obtain ⟨es, hes, -, hl⟩ := h.leaf F.length f List.getElem?_concat_length
  obtain ⟨t, hw, hword, hpres⟩ := reaches_of_lookup hl hes
  obtain ⟨-, ha, hlt⟩ := h.small f (by simp)
  have hupper : 0xFFFF800000000000 ≤ base + F.length * 4096 := Nat.le_add_right_of_le hb.upper
  unfold vmmUnmapPage
  rw [hk]
  have ht := h.tree.tree
  rw [hk] at ht
  rcases vmmUnmapPageIn_spec ht (hk ▸ h.tree.root) (hb.canonical hF) hb.page (index_whole _) with
    ⟨-, hn⟩ | ⟨t', es', hw', -, hphys, hu, hroot⟩
  · rw [← hword, hn t es hw] at hpres
    cases hpres
  generalize s.vmmUnmapPageIn s₀.kernelPml4 (base + F.length * 4096) = res at hphys hu hroot ⊢
  have hmem := hroot hupper
  have ht' : res.2.KernelTree := h.tree.unmapped (hk ▸ hu) (hk ▸ hmem)
  have hstep := h.step (hk ▸ hu.eff) ht'
  rw [List.append_nil] at hstep
  obtain ⟨h1, h2, h3, h4, h5, h6⟩ := hstep
  have hsmall := h.small
  rw [List.append_nil] at hsmall
  refine ⟨?_,
    ⟨h1, h2, ht', h3, h4, h5, hsmall, h6, fun i g hi => ?_, fun k hkr hp => ?_, fun i hi => ?_,
    fun i hi hs => ?_, fun hd => ?_⟩, hmem⟩
  · obtain ⟨rfl, -⟩ := Walk.unique hw hw'
    rw [hphys, hword]
    exact (Word.built (Word.address_ofNat ha hlt) (by decide)).address
  · have hil := (List.getElem?_eq_some_iff.mp hi).1
    rw [hu.view _ (inRange_indexAt _) (index_whole _) fun hc => ?_]
    · exact h.leaf i g (by rw [List.getElem?_append_left hil]; exact hi)
    · have := hb.apart (by omega) hF (atPage_self _) hc.1
      omega
  · by_cases hat : AtPage k (base + F.length * 4096)
    · have hT : s.HasTable s₀.kernelPml4 k := ⟨t, es, Walk.agree hw fun l _ hl => hat l hl⟩
      rw [hu.gone k hkr (mem_wholeTree.mpr (hkr 3)) hat hT, hat.lookup]
      exact (h.fresh F.length (by simp)).symm
    · rw [hu.view k hkr (mem_wholeTree.mpr (hkr 3)) fun hc => hat hc.1]
      refine h.view k hkr fun i hi => ?_
      rw [List.length_append, List.length_singleton] at hi
      by_cases hil : i < F.length
      · exact hp i hil
      · obtain rfl : i = F.length := by omega
        exact hat
  · exact h.fresh i (by rw [List.length_append]; omega)
  · rw [hmem]
    exact h.root i hi hs
  · rw [hmem]
    exact h.top hd

end Grew

/-! ## The loops -/

/-- Other entries of the root are not touched by `map_page`. -/
theorem mapPage_root (h : s.KernelTree) (va : Nat) (phys flags : Word) {j : Nat}
    (hj : j ≠ indexAt va 3) :
    (s.mapPage s.kernelPml4 va phys flags).2.mem s.kernelPml4 j = s.mem s.kernelPml4 j := by
  let I : Slots := ⟨[indexAt va 3], List.nodup_singleton _, fun i hi => by
    rw [List.mem_singleton.mp hi]
    exact indexAt_lt va 3⟩
  have hsub : (s.tables s.kernelPml4 I).Sublist (s.tables s.kernelPml4 wholeTree) := by
    rw [tables_half, tables_half]
    refine List.Sublist.cons_cons _ (List.Sublist.flatMap ?_ _)
    exact List.singleton_sublist.mpr (index_whole va)
  have hI : indexAt va 3 ∈ I.idx := List.mem_singleton_self _
  have hj' : j ∉ I.idx := fun hc => hj (List.mem_singleton.mp hc)
  rcases mapPage_spec (h.tree.sublist hsub) h.root hI phys flags with ⟨s', he, hu⟩ |
    ⟨s', es, he, hm⟩
  · rw [he]
    exact hu.eff.root j hj'
  · rw [he]
    exact hm.eff.root j hj'

theorem mapArgs_heap {va : Nat} (hc : canonical va = true) (ha : va % 4096 = 0)
    (hf : f % 4096 = 0) (hlt : f < 2 ^ 52) : MapArgs va (BitVec.ofNat 64 f) heapFlags :=
  ⟨hc, ha, Word.address_ofNat hf hlt, by decide, by decide, fun hu => absurd hu (by decide)⟩

/-- One round of the loop of `heap_grow`: a page more, for which all requests were granted, or a
failure that leaves no trace. -/
theorem growRound (h : Grew base s₀ s F []) (h₀ : s₀.KernelTree) (hb : GrowBase base)
    (hF : F.length < 16) (left : Nat) :
    (∃ s', Heap.growLoop base (left + 1) F.length s = (some F.length, s') ∧ Grew base s₀ s' F [] ∧
      Moves s.pmm s'.pmm [] [] ∧
      ∀ n, s.tablesMissing heapFlags (base + F.length * 4096) 3 s.kernelPml4 = some n →
        s.lookup s.kernelPml4 (indexAt (base + F.length * 4096)) = none →
        ∃ j < n + 1, ¬ s.Granted j) ∨
    ∃ f s' n, Heap.growLoop base (left + 1) F.length s = Heap.growLoop base left (F.length + 1) s' ∧
      Grew base s₀ s' (F ++ [f]) [] ∧
      s.tablesMissing heapFlags (base + F.length * 4096) 3 s.kernelPml4 = some n ∧
      s.lookup s.kernelPml4 (indexAt (base + F.length * 4096)) = none ∧
      (∀ j < n + 1, s.Granted j) ∧ Spent s s' (n + 1) := by
  rw [Heap.growLoop]
  rcases allocFrame_count h.tree.tree.inv with ⟨hno, ha⟩ | ⟨hg, f, p, ha, hf0, hf, hm, hcount⟩
  · rw [ha]
    exact .inl ⟨_, rfl, h.tick _, .refl h.tree.tree.inv, fun n _ _ => ⟨0, Nat.succ_pos n, hno⟩⟩
  · rw [ha]
    simp only [hf0, ↓reduceIte]
    have h1 := h.alloc hf0 hf hm (s.asked + 1)
    obtain ⟨hfa, hflt⟩ := freeAt_lt h.tree.tree.small hf
    -- the tables are the same; the requests move up by one
    have hmiss : ∀ va, Phys.tablesMissing { s with pmm := p, asked := s.asked + 1 } heapFlags va 3
        s.kernelPml4 = s.tablesMissing heapFlags va 3 s.kernelPml4 := fun _ => rfl
    have hlook : ∀ k, Phys.lookup { s with pmm := p, asked := s.asked + 1 } s.kernelPml4 k =
        s.lookup s.kernelPml4 k := fun _ => rfl
    have hshift :=
      fun k => @granted_succ s { s with pmm := p, asked := s.asked + 1 } 1 rfl rfl hcount k
    have hspent : Spent s { s with pmm := p, asked := s.asked + 1 } 1 := ⟨rfl, rfl, hcount⟩
    have hkernel : ({ s with pmm := p, asked := s.asked + 1 } : Phys).kernelPml4 =
      s.kernelPml4 := rfl
    have hmoves : Moves s.pmm ({ s with pmm := p, asked := s.asked + 1 } : Phys).pmm [] [f] := hm
    generalize ({ s with pmm := p, asked := s.asked + 1 } : Phys) = s₁ at *
    have hroot := @mapPage_root s₁ h1.tree (base + F.length * 4096) (BitVec.ofNat 64 f) 3#64
    have hargs := @mapArgs_heap f _ (hb.canonical hF) hb.page hfa hflt
    have hI := index_whole (base + F.length * 4096)
    have hserved := mapPage_count h1.tree.tree h1.tree.root hI hargs
    rw [hkernel, hmiss, hlook] at hserved
    rcases mapPage_spec h1.tree.tree h1.tree.root hI (BitVec.ofNat 64 f) 3#64 with
      ⟨s₂, he, hu⟩ | ⟨s₂, es, he, hmap⟩
    · rw [hkernel] at he
      have he' : s₁.vmmMapPage (base + F.length * 4096) (BitVec.ofNat 64 f) 3#64 = (false, s₂) := by
        unfold vmmMapPage vmmMapPageIn
        rw [hkernel, he]
      have h2 := h1.unchanged hu
      have hfree : Moves s₂.pmm (s₂.freeFrame f).pmm [f] [] :=
        freePage_moves h2.tree.tree.inv (h2.used f (by simp))
      rw [he']
      refine .inl ⟨_, rfl, h2.free, (hmoves.trans hu.refs).comp hfree, fun n hn hl => ?_⟩
      rcases hserved with ⟨-, hno⟩ | ⟨-, htrue, -⟩
      · obtain ⟨k, hk, hnk⟩ := hno n hn hl
        exact ⟨1 + k, by omega, fun hc => hnk ((hshift k).mpr hc)⟩
      · rw [he] at htrue
        cases htrue
    · rw [hkernel] at he
      have he' : s₁.vmmMapPage (base + F.length * 4096) (BitVec.ofNat 64 f) 3#64 = (true, s₂) := by
        unfold vmmMapPage vmmMapPageIn
        rw [hkernel, he]
      rw [he']
      rcases hserved with ⟨hfalse, -⟩ | ⟨n, -, hn, hl, hall, hasked, hleft⟩
      · rw [he] at hfalse
        cases hfalse
      rw [he] at hasked hleft
      refine .inr ⟨f, s₂, n, rfl, h1.page h₀ hb hF hmap fun j hj => ?_, hn, hl, fun j hj => ?_, ?_⟩
      · have := @hroot j (by
          rw [hb.index hF (by decide) (by decide)]
          exact hj)
        rwa [hkernel, he, ← hkernel] at this
      · cases j with
        | zero => exact hg
        | succ j =>
          rw [Nat.add_comm]
          exact (hshift j).mp (hall j (by omega))
      · have hleft : s₂.pmm.freePages + n = s₁.pmm.freePages := hleft
        have hfree := hspent.free
        exact ⟨by rw [hasked, hspent.asked]; omega, hmap.eff.deny.trans hspent.deny, by omega⟩

/-- **The rollback** unmaps and frees every page of the step. -/
theorem growRollback_spec (hb : GrowBase base) :
    ∀ {n : Nat} {F : List Nat} {s : Phys}, F.length = n → n ≤ 16 → Grew base s₀ s F [] →
      Grew base s₀ (Heap.growRollback base n s) [] [] ∧
      (Heap.growRollback base n s).mem s.kernelPml4 = s.mem s.kernelPml4
  | 0, F, s, hF, _, h => by
    obtain rfl := List.length_eq_zero_iff.mp hF
    exact ⟨h, rfl⟩
  | n + 1, F, s, hF, hle, h => by
    obtain ⟨F, f, rfl⟩ : ∃ k f, F = k ++ [f] := by
      rcases List.eq_nil_or_concat F with rfl | ⟨k, f, rfl⟩
      · cases hF
      · exact ⟨k, f, List.concat_eq_append⟩
    obtain rfl : n = F.length := by simpa using hF.symm
    obtain ⟨hphys, h', hmem⟩ := h.unpage hb (by omega)
    obtain ⟨hf0, ha, hlt⟩ := h.small f (by simp)
    have hnz : BitVec.ofNat 64 f ≠ 0#64 := fun hc => hf0 (by
      have := congrArg BitVec.toNat hc
      rwa [Word.toNat_ofNat hlt] at this)
    have hk : (s.vmmUnmapPage (base + F.length * 4096)).2.kernelPml4 = s.kernelPml4 :=
      h'.kernel.trans h.kernel.symm
    rw [Heap.growRollback]
    generalize s.vmmUnmapPage (base + F.length * 4096) = res at hphys h' hmem hk
    obtain ⟨phys, s₁⟩ := res
    simp only at hphys h' hmem hk
    simp only [hphys, hnz, ne_eq, not_false_eq_true, ↓reduceIte, Word.toNat_ofNat hlt]
    obtain ⟨g1, g2⟩ := growRollback_spec hb (n := F.length) rfl (by omega) (Grew.free (X := []) h')
    exact ⟨g1,
      by rw [← hk]; rw [show (s₁.freeFrame f).kernelPml4 = s₁.kernelPml4 from rfl] at g2; rw [g2,
        hk]; exact hmem⟩

end GenOS.Phys
