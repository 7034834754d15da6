import GenOS.Mm.VmmRange

/-!
# Mapping ranges, and whole address spaces

`vmm_map_pages_in` either maps every page (`RangeMapped`) or fails (`Failed`): it unmaps what it had
mapped, and since the lookups of a tree without empty tables determine its tables, the lower half is
left with the tables it had. `vmm_create_address_space` makes a tree of one table and
`vmm_destroy_address_space` gives every table of the lower half back.
-/

namespace GenOS.Phys

open Radix Pmm

variable {s s' s₁ : Phys} {r : Nat} {I : Slots} {va : Nat → Nat} {base : Nat} {flags : Word}

/-! ## Range mapping -/

/-- The pages at `va 0`, `va 1`, … were mapped to `pages`, and no other lookup changed. -/
structure RangeMapped (r : Nat) (I : Slots) (s s' : Phys) (va : Nat → Nat) (pages : List Word)
    (flags : Word) : Prop where
  args : ∀ i p, pages[i]? = some p → MapArgs (va i) p flags
  eff : Eff r I s [] s' []
  before : ∀ i < pages.length, s.lookup r (indexAt (va i)) = none
  mapped : ∀ i p, pages[i]? = some p → ∃ es : List Word, es.length = 3 ∧
    (∀ e ∈ es, refused flags e = false) ∧
    ∀ k, pageShape.InRange k → AtPage k (va i) → s'.lookup r k = some (es ++ [p ||| flags])
  other : ∀ k, pageShape.InRange k → k 3 ∈ I.idx → (∀ i < pages.length, ¬ AtPage k (va i)) →
    s'.lookup r k = s.lookup r k
  full : ∀ E, s.Full r I E → s'.Full r I E

/-- The part of the root an operation works on has no kernel slot. -/
def LowerOnly (I : Slots) : Prop :=
  ∀ va, 0xFFFF800000000000 ≤ va → va < 2 ^ 64 → indexAt va 3 ∉ I.idx

theorem lowerOnly_lowerHalf : LowerOnly lowerHalf := fun va h1 h2 h3 => by
  have := mem_lowerHalf.mp h3
  simp only [indexAt] at this
  omega

theorem LowerOnly.top (h : LowerOnly I) {E : Nat → Prop} (hE : E r) : Top s r I E :=
  ⟨hE, fun va _ _ h1 h2 h3 _ => absurd h3 (h va h1 h2)⟩

/-- A failed call: every lookup as before and, in the lower half, every count as before. -/
structure Failed (r : Nat) (I : Slots) (s s' : Phys) : Prop where
  eff : Eff r I s [] s' []
  view : SameView r I s s'
  refs : LowerOnly I → s.Full r I (· = r) → Moves s.pmm s'.pmm [] []
  full : LowerOnly I → ∀ E, E r → s.Full r I E → s'.Full r I E

theorem RangeMapped.nil (ht : s.Tree r I []) : RangeMapped r I s s va [] flags :=
  ⟨fun _ _ h => by simp at h, .refl ht, fun _ h => absurd h (Nat.not_lt_zero _),
    fun _ _ h => by simp at h, fun _ _ _ _ => rfl, fun _ h => h⟩

theorem RangeMapped.cons {p : Word} {pages es : List Word}
    (h : Mapped r I s [] s₁ (va 0) p flags es)
    (h' : RangeMapped r I s₁ s' (fun j => va (j + 1)) pages flags)
    (hI : ∀ i < pages.length + 1, indexAt (va i) 3 ∈ I.idx)
    (hinj : ∀ i < pages.length + 1, ∀ j < pages.length + 1, ∀ k, AtPage k (va i) →
      AtPage k (va j) → i = j) :
    RangeMapped r I s s' va (p :: pages) flags := by
  refine ⟨fun i q hq => ?_, h.eff.trans h'.eff, fun i hi => ?_, fun i q hq => ?_,
    fun k hk hkI hne => ?_, fun E hE => h'.full E (h.full E hE)⟩
  · cases i with
    | zero =>
      obtain rfl : p = q := Option.some.inj (by simpa using hq)
      exact h.args
    | succ i => exact h'.args i q (by simpa using hq)
  · cases i with
    | zero => exact h.before
    | succ i =>
      have hi' : i < pages.length := Nat.lt_of_succ_lt_succ hi
      have := h'.before i hi'
      rw [h.view _ (inRange_indexAt _) (hI (i + 1) hi)] at this
      split at this
      · cases this
      · exact this
  · cases i with
    | zero =>
      obtain rfl : p = q := Option.some.inj (by simpa using hq)
      refine ⟨es, h.length, h.permits, fun k hk hat => ?_⟩
      have hkI : k 3 ∈ I.idx := by
        rw [hat 3 (by decide)]
        exact hI 0 (Nat.succ_pos _)
      rw [h'.other k hk hkI fun i hi hat' => ?_, h.view k hk hkI]
      · exact if_pos hat
      have := hinj 0 (Nat.succ_pos _) (i + 1) (Nat.succ_lt_succ hi) k hat hat'
      omega
    | succ i => exact h'.mapped i q (by simpa using hq)
  · rw [h'.other k hk hkI fun i hi => hne (i + 1) (Nat.succ_lt_succ hi), h.view k hk hkI]
    exact if_neg (hne 0 (Nat.succ_pos _))

/-- The loop of `vmm_map_pages_in` maps all pages, or some and then fails on one. -/
theorem mapLoop_spec (hr : r ≠ 0) :
    ∀ {pages : List Word} {i : Nat} {s : Phys}, s.Tree r I [] →
      (∀ j < pages.length, canonical (base + (i + j) * 4096) = true ∧
        (base + (i + j) * 4096) % 4096 = 0 ∧ indexAt (base + (i + j) * 4096) 3 ∈ I.idx) →
      (∃ s', mapLoop r base flags pages i s = (none, s') ∧
        RangeMapped r I s s' (fun j => base + (i + j) * 4096) pages flags) ∨
      ∃ m s₁ s', m < pages.length ∧ mapLoop r base flags pages i s = (some (i + m), s') ∧
        RangeMapped r I s s₁ (fun j => base + (i + j) * 4096) (pages.take m) flags ∧
        Unchanged r I s₁ [] s'
  | [], i, s, ht, _ => .inl ⟨s, rfl, .nil ht⟩
  | p :: pages, i, s, ht, hp => by
    have hI0 : indexAt (base + i * 4096) 3 ∈ I.idx := (hp 0 (Nat.succ_pos _)).2.2
    have hshift : (fun j => base + (i + 1 + j) * 4096) = fun j => base + (i + (j + 1)) * 4096 := by
      funext j
      congr 2
      omega
    have hinj : ∀ n ≤ pages.length, ∀ a < n + 1, ∀ b < n + 1, ∀ k,
      AtPage k (base + (i + a) * 4096) →
        AtPage k (base + (i + b) * 4096) → a = b := fun n hn a ha b hb k h1 h2 => by
      have ha := hp a (by simp only [List.length_cons]; omega)
      have hb := hp b (by simp only [List.length_cons]; omega)
      have := atPage_inj h1 h2 ha.1 hb.1 ha.2.1 hb.2.1
      omega
    simp only [mapLoop]
    rcases mapPage_spec ht hr hI0 p flags with ⟨s', he, hu⟩ | ⟨s₁, es, he, hm⟩
    · rw [he]
      exact .inr ⟨0, s, s', Nat.succ_pos _, rfl, .nil ht, hu⟩
    · rw [he]
      simp only [↓reduceIte]
      rcases @mapLoop_spec hr pages (i + 1) s₁ hm.eff.tree fun j hj => by
          rw [show i + 1 + j = i + (j + 1) by omega]
          exact hp (j + 1) (Nat.succ_lt_succ hj) with ⟨s', he', hrm⟩ |
            ⟨m, s₂, s', hlt, he', hrm, hu⟩
      · rw [hshift] at hrm
        exact .inl ⟨s', he', .cons hm hrm (fun j hj => (hp j hj).2.2) (hinj _ (Nat.le_refl _))⟩
      · rw [hshift] at hrm
        refine .inr ⟨m + 1, s₂, s', Nat.succ_lt_succ hlt, ?_, ?_, hu⟩
        · rw [he', show i + 1 + m = i + (m + 1) by omega]
        · have hlen : (pages.take m).length = m := by
            rw [List.length_take]
            omega
          rw [List.take_succ_cons]
          refine .cons hm hrm (fun j hj => (hp j ?_).2.2) ?_
          · rw [hlen] at hj
            simp only [List.length_cons]
            omega
          · rw [hlen]
            exact hinj m (by omega)

/-! ## Lookups determine the tables -/

theorem Tree.occupied_of_full (ht : s.Tree r I []) (hf : s.Full r I (· = r)) {g j : Nat}
    {k : Nat → Nat} {es : List Word} (hk : pageShape.InRange k) (hkI : k 3 ∈ I.idx) (hj : j < 3)
    (hw : Walk pageShape s.mem k 3 r j g es) :
    ∀ x ∈ Radix.tables pageShape s.mem j (List.range 512) g, pageShape.Occupied s.mem x := by
  intro x hx
  have hx := hw.tables_subset hk hj x hx
  refine (hf x (Radix.mem_tables.mpr (.inr ⟨k 3, hkI, hx⟩))).resolve_left fun he => ?_
  exact (Radix.nodup_tables ht.nodup_tables).1 (k 3) hkI (he ▸ hx)

theorem tables_perm_of_view (ht : s.Tree r I []) (ht' : s'.Tree r I []) (hf : s.Full r I (· = r))
    (hf' : s'.Full r I (· = r)) (hv : SameView r I s s') :
    (s'.tables r I).Perm (s.tables r I) := by
  refine (List.perm_ext_iff_of_nodup ht'.nodup_tables ht.nodup_tables).mpr fun g => ⟨fun hg => ?_,
    fun hg => ?_⟩
  · exact mem_tables_of_path (by decide) I.lt
      (fun _ _ _ h1 h2 h3 h4 => ht'.occupied_of_full hf' h1 h2 h3 h4)
      (fun k hk hkI _ => (hv k hk hkI).symm) hg
  · exact mem_tables_of_path (by decide) I.lt
      (fun _ _ _ h1 h2 h3 h4 => ht.occupied_of_full hf h1 h2 h3 h4)
      (fun k hk hkI _ => hv k hk hkI) hg

theorem Failed.of_view (h : Eff r I s [] s' []) (ht : s.Tree r I []) (hv : SameView r I s s')
    (hf : LowerOnly I → ∀ E, E r → s.Full r I E → s'.Full r I E) : Failed r I s s' := by
  refine ⟨h, hv, fun hl hfull => ?_, hf⟩
  have hp := tables_perm_of_view ht h.tree hfull (hf hl _ rfl hfull) hv
  refine h.moves.congr fun a _ => ?_
  rw [(hp.append_right []).count_eq]

/-- What `vmm_map_pages_in` does on a valid range. -/
theorem vmmMapPagesIn_spec (ht : s.Tree r I []) (hr : r ≠ 0) {pages : List Word}
    (hc : pages.length < 2 ^ 32) (hv : validRange base pages.length = true)
    (hI : ∀ a, base ≤ a → a ≤ base + (pages.length - 1) * 4096 → indexAt a 3 ∈ I.idx)
    (flags : Word) :
    (∃ s', s.vmmMapPagesIn r base pages flags = (false, s') ∧ Failed r I s s') ∨
    ∃ s', s.vmmMapPagesIn r base pages flags = (true, s') ∧
      RangeMapped r I s s' (fun i => base + i * 4096) pages flags := by
  unfold vmmMapPagesIn
  simp only [hr, hv, decide_false, Bool.not_true, Bool.or_self, Bool.false_eq_true, ↓reduceIte]
  have hz : (fun j => base + (0 + j) * 4096) = fun j => base + j * 4096 := by
    funext j
    rw [Nat.zero_add]
  rcases @mapLoop_spec r I base flags hr pages 0 s ht fun j hj => by
      rw [Nat.zero_add]
      obtain ⟨h1, h2⟩ := validRange_page hc hv hj
      exact ⟨h1, h2, hI _ (by omega) (by omega)⟩ with ⟨s', he, hm⟩ | ⟨m, s₁, s', hlt, he, hm, hu⟩
  · rw [he]
    rw [hz] at hm
    exact .inr ⟨s', rfl, hm⟩
  · rw [he]
    rw [hz] at hm
    simp only [Nat.zero_add]
    have hlen : (pages.take m).length = m := by
      rw [List.length_take]
      omega
    by_cases h0 : m = 0
    · subst h0
      simp only [↓reduceIte]
      refine .inl ⟨s', rfl, .of_view (hm.eff.trans hu.eff) ht (fun k hk hkI => ?_)
        fun _ E _ hf => hu.full (hm.full E hf)⟩
      rw [hu.view k hk hkI, hm.other k hk hkI fun i hi => absurd hi (Nat.not_lt_zero _)]
    · simp only [h0, ↓reduceIte]
      have hvm := validRange_prefix hc hv (Nat.le_of_lt hlt) h0
      have hun := vmmUnmapPagesIn_spec hu.eff.tree hr (by omega) hvm
        fun a h1 h2 => hI a h1 (Nat.le_trans h2 (Nat.add_le_add_left
          (Nat.mul_le_mul_right _ (Nat.sub_le_sub_right (Nat.le_of_lt hlt) 1)) base))
      refine .inl ⟨_, rfl, .of_view ((hm.eff.trans hu.eff).trans hun.eff) ht (fun k hk hkI => ?_)
        fun hl E hE hf => hun.full E (hl.top hE) (hu.full (hm.full E hf))⟩
      by_cases hin : InPages base m k
      · -- a page this call had mapped: it is gone again, and was not mapped before
        obtain ⟨i, hi, hat⟩ := hin
        have hbefore := hm.before i (by omega)
        obtain ⟨es, hes, -, hmap⟩ := hm.mapped i _ (List.getElem?_eq_getElem (by omega))
        have hlook := hmap k hk hat
        rw [← hu.view k hk hkI] at hlook
        have hT : s'.HasTable r k := by
          obtain ⟨j, u, hw⟩ := walk_of_path (by simp) hlook
          have hj := hw.length
          rw [hes] at hj
          obtain rfl : j = 0 := by omega
          exact ⟨u, es, hw⟩
        rw [hun.gone k hk hkI ⟨i, hi, hat⟩ hT, hat.lookup, hbefore]
      · rw [hun.view k hk hkI fun h => hin h.1, hu.view k hk hkI, hm.other k hk hkI fun i hi hat =>
          hin ⟨i, by omega, hat⟩]

/-! ## Address spaces -/

/-- The order in which `free_tables` frees a tree. -/
def freeOrder (m : Nat → Nat → Word) : Nat → List Nat → Nat → List Nat
  | 0, _, t => [t]
  | l + 1, I, t => (I.flatMap fun i =>
      (pageShape.child (m t i)).elim [] fun c => freeOrder m l (List.range 512) c) ++ [t]

theorem freeOrder_perm (m : Nat → Nat → Word) :
    ∀ (l : Nat) (I : List Nat) (t : Nat), (freeOrder m l I t).Perm (Radix.tables pageShape m l I t)
  | 0, _, _ => .refl _
  | l + 1, I, t => by
    refine List.perm_append_comm.trans (.cons t (List.Perm.flatMap_left _ fun i _ => ?_))
    cases pageShape.child (m t i) with
    | none => exact .refl _
    | some c => exact freeOrder_perm m l (List.range 512) c

theorem freeTables_eq : ∀ (l n t : Nat) (s : Phys),
    freeTables l n t s = (freeOrder s.mem l (List.range n) t).foldl freeFrame s
  | 0, _, _, _ => rfl
  | l + 1, n, t, s => by
    have key : ∀ (J : List Nat) (x : Phys), x.mem = s.mem →
        J.foldl (fun s i => if !(s.mem t i).has ptePresent || (s.mem t i).has pteLarge then s
          else freeTables l 512 (tableAt (s.mem t i)) s) x =
        (J.flatMap fun i => (pageShape.child (s.mem t i)).elim [] fun c =>
          freeOrder s.mem l (List.range 512) c).foldl freeFrame x := by
      intro J
      induction J with
      | nil => exact fun _ _ => rfl
      | cons i J ih =>
        intro x hx
        rw [List.foldl_cons, List.flatMap_cons, List.foldl_append, hx]
        split
        · rename_i hskip
          have hc : pageShape.child (s.mem t i) = none := by
            cases hc : pageShape.child (s.mem t i) with
            | none => rfl
            | some c =>
              obtain ⟨h1, h2, -⟩ := child_eq_some hc
              simp [h1, h2] at hskip
          rw [hc, ih x hx]
          rfl
        · rename_i hgo
          simp only [Bool.or_eq_true, Bool.not_eq_true', not_or, Bool.not_eq_false,
            Bool.not_eq_true] at hgo
          rw [child_of_present hgo.1 hgo.2, freeTables_eq l 512 _ x, hx, ih _ (by simpa using hx)]
          rfl
    rw [freeTables, key (List.range n) s rfl, freeOrder, List.foldl_append]
    rfl

/-- **`vmm_destroy_address_space`** returns every table of the lower half, and the root, once. -/
theorem vmmDestroyAddressSpace_spec (ht : s.Tree r lowerHalf []) (hr : r ≠ 0)
    (hk : r ≠ s.kernelPml4) :
    Moves s.pmm (s.vmmDestroyAddressSpace r).pmm (s.tables r lowerHalf) [] ∧
    (s.vmmDestroyAddressSpace r).mem = s.mem ∧
    (s.vmmDestroyAddressSpace r).kernelPml4 = s.kernelPml4 ∧
    (s.vmmDestroyAddressSpace r).deny = s.deny := by
  unfold vmmDestroyAddressSpace
  rw [if_pos ⟨hr, hk⟩, freeTables_eq]
  have hp := freeOrder_perm s.mem 3 (List.range 256) r
  rw [← lowerHalf_idx] at hp ⊢
  have hm := freePages_moves ht.inv (hp.nodup_iff.mpr ht.nodup_tables) fun a ha =>
    ht.used_table (hp.mem_iff.mp ha)
  refine ⟨?_, foldl_freeFrame_mem _ _, foldl_freeFrame_kernel _ _, foldl_freeFrame_deny _ _⟩
  rw [foldl_freeFrame_pmm]
  exact hm.perm hp (.refl _)

/-- What a new address space is: one free frame, empty in the lower half. -/
structure Created (s s' : Phys) (a : Nat) : Prop where
  free : s.pmm.FreeAt a
  moves : Moves s.pmm s'.pmm [] [a]
  mem : ∀ g, g ≠ a → s'.mem g = s.mem g
  empty : ∀ i < 256, s'.mem a i = 0#64
  upper : ∀ i, 256 ≤ i → s'.mem a i = s.mem s.kernelPml4 i
  kernel : s'.kernelPml4 = s.kernelPml4
  deny : s'.deny = s.deny

theorem vmmCreateAddressSpace_spec (h : s.pmm.Inv) :
    s.vmmCreateAddressSpace = (0, { s with asked := s.asked + 1 }) ∨
    ∃ a s', s.vmmCreateAddressSpace = (a, s') ∧ a ≠ 0 ∧ Created s s' a := by
  unfold vmmCreateAddressSpace
  rcases allocFrame_cases h with he | ⟨f, p, he, h0, hf, hm⟩
  · rw [he]
    exact .inl rfl
  · rw [he]
    simp only [h0, ↓reduceIte]
    refine .inr ⟨f, _, rfl, h0, hf, hm, fun g hg => Cells.set_of_ne hg _ _, fun i hi => ?_,
      fun i hi => ?_, rfl, rfl⟩
    · simp only [Cells.set_self, hi, ↓reduceIte]
    · simp only [Cells.set_self, Nat.not_lt.mpr hi, ↓reduceIte]

theorem Created.tables {a : Nat} (h : Created s s' a) : s'.tables a lowerHalf = [a] :=
  tables_of_dead fun i hi => by
    rw [h.empty i (mem_lowerHalf.mp hi)]
    exact dead_zero

end GenOS.Phys
