import GenOS.Mm.VmmTree

/-!
# Unmapping

Both unmappers clear leaves and then prune upwards from each last-level table they touched.
`prune_spec` is one such climb; the range unmapper is a sequence of leaf stores (`clearRun`)
followed by one climb for each 2 MiB of the range (`pruneRun`). `Cut` records that words were only
cleared and that every table cut off was empty.
-/

namespace GenOS.Phys

open Radix Pmm

variable {s s' s'' : Phys} {r : Nat} {I : Slots} {P : List Nat} {va : Nat}

theorem emptyTable_iff (s : Phys) (t : Nat) :
    s.emptyTable t = true ↔ ¬ pageShape.Occupied s.mem t := by
  unfold emptyTable
  rw [List.all_eq_true]
  constructor
  · rintro h ⟨i, hi, hl⟩
    have := h i (List.mem_range.mpr hi)
    have hl : (s.mem t i).has ptePresent = true := hl
    rw [hl] at this
    cases this
  · intro h i hi
    by_contra hc
    have hl : (s.mem t i).has ptePresent = true := by simpa using hc
    exact h ⟨i, List.mem_range.mp hi, hl⟩

/-! ## Cutting -/

/-- Words were only cleared, and the tables cut off are empty. -/
structure Cut (r : Nat) (I : Slots) (s s' : Phys) : Prop where
  sub : ∀ g ∈ s'.tables r I, g ∈ s.tables r I
  gone : ∀ g ∈ s.tables r I, g ∉ s'.tables r I → ¬ pageShape.Occupied s'.mem g
  words : ∀ g i, s'.mem g i = s.mem g i ∨ s'.mem g i = 0#64

namespace Cut

theorem refl : Cut r I s s := ⟨fun _ h => h, fun _ h h' => absurd h h', fun _ _ => .inl rfl⟩

theorem live (h : Cut r I s s') {g i : Nat} (hl : (s'.mem g i).has ptePresent = true) :
    s'.mem g i = s.mem g i := by
  rcases h.words g i with he | he
  · exact he
  · rw [he, Word.has_zero] at hl
    cases hl

theorem occupied (h : Cut r I s s') {g : Nat} (ho : pageShape.Occupied s'.mem g) :
    pageShape.Occupied s.mem g := by
  obtain ⟨i, hi, hl⟩ := ho
  exact ⟨i, hi, h.live hl ▸ hl⟩

theorem trans (h : Cut r I s s') (h' : Cut r I s' s'') : Cut r I s s'' := by
  refine ⟨fun g hg => h.sub g (h'.sub g hg), fun g hg hg'' => ?_, fun g i => ?_⟩
  · by_cases hg' : g ∈ s'.tables r I
    · exact h'.gone g hg' hg''
    · exact fun ho => h.gone g hg hg' (h'.occupied ho)
  · rcases h'.words g i with he | he
    · rw [he]
      exact h.words g i
    · exact .inr he

/-- What can still be reached could be reached before. -/
theorem walk (h : Cut r I s s') {k : Nat → Nat} {L t j u : Nat} {es : List Word}
    (hw : Walk pageShape s'.mem k L t j u es) : Walk pageShape s.mem k L t j u es := by
  induction hw with
  | refl => exact .refl _ _
  | @down L t c j u es hc _ ih =>
    have he := h.live (child_eq_some hc).1
    rw [he] at hc ⊢
    exact .down hc ih

/-- A change of the allocator alone cuts nothing. -/
theorem of_mem (h : s'.mem = s.mem) : Cut r I s s' :=
  ⟨fun _ hg => (tables_congr_mem h) ▸ hg,
    fun _ hg hg' => absurd ((tables_congr_mem h).symm ▸ hg) hg',
    fun g i => .inl (by rw [h])⟩

theorem of_store {t i : Nat} (hsub : ∀ g ∈ (s.store t i 0#64).tables r I, g ∈ s.tables r I)
    (hgone : ∀ g ∈ s.tables r I, g ∉ (s.store t i 0#64).tables r I →
      ¬ pageShape.Occupied s.mem g) : Cut r I s (s.store t i 0#64) := by
  have hwords : ∀ g j, (s.store t i 0#64).mem g j = s.mem g j ∨
      (s.store t i 0#64).mem g j = 0#64 := by
    intro g j
    by_cases hg : g = t
    · subst hg
      by_cases hj : j = i
      · subst hj
        exact .inr (put_self _ _ _ _)
      · exact .inl (put_ne_word hj)
    · exact .inl (congrFun (put_ne_table hg) j)
  refine ⟨hsub, fun g hg hg' ⟨j, hj, hl⟩ => hgone g hg hg' ⟨j, hj, ?_⟩, hwords⟩
  rcases hwords g j with he | he
  · rwa [he] at hl
  · rw [he, dead_zero] at hl
    cases hl

end Cut

/-- The tables allowed to be empty include the root and, in the kernel half, the tables right below
it. -/
def Top (s : Phys) (r : Nat) (I : Slots) (E : Nat → Prop) : Prop :=
  E r ∧ ∀ va t es, 0xFFFF800000000000 ≤ va → va < 2 ^ 64 → indexAt va 3 ∈ I.idx →
    s.Reaches r va 2 t es → E t

theorem Top.cut {E : Nat → Prop} (h : Top s r I E) (hc : Cut r I s s') : Top s' r I E :=
  ⟨h.1, fun va t es h1 h2 h3 hw => h.2 va t es h1 h2 h3 (hc.walk hw)⟩

theorem Top.mono {E E' : Nat → Prop} (h : Top s r I E) (hE : ∀ g, E g → E' g) : Top s r I E' :=
  ⟨hE r h.1, fun va t es h1 h2 h3 hw => hE t (h.2 va t es h1 h2 h3 hw)⟩

theorem top_lowerHalf {E : Nat → Prop} (h : E r) : Top s r lowerHalf E := by
  refine ⟨h, fun va t es h1 h2 h3 _ => ?_⟩
  have : indexAt va 3 < 256 := mem_lowerHalf.mp h3
  simp only [indexAt] at this
  omega

/-! ## Following an address down -/

/-- The slots above level `j` on the way of `va`, the lowest first. -/
def Trail (s : Phys) (r va : Nat) : Nat → List (Nat × Nat) → Prop
  | j, [] => j = 3
  | j, (t, i) :: slots =>
    i = indexAt va (j + 1) ∧ (∃ es, s.Reaches r va (j + 1) t es) ∧ Trail s r va (j + 1) slots

theorem Trail.mono {j : Nat} {slots : List (Nat × Nat)} (h : Trail s r va j slots)
    (hw : ∀ l t es, j < l → s.Reaches r va l t es → s'.Reaches r va l t es) :
    Trail s' r va j slots := by
  induction slots generalizing j with
  | nil => exact h
  | cons c slots ih =>
    obtain ⟨h1, ⟨es, h2⟩, h3⟩ := h
    exact ⟨h1, ⟨es, hw _ _ es (Nat.lt_succ_self j) h2⟩,
      ih h3 fun l t es hl => hw l t es (Nat.lt_of_succ_lt hl)⟩

/-- Two tables of one walk on neighbouring levels. -/
theorem Reaches.child {j t u : Nat} {es es' : List Word} (h : s.Reaches r va j u es)
    (h' : s.Reaches r va (j + 1) t es') :
      pageShape.child (s.mem t (indexAt va (j + 1))) = some u := by
  obtain ⟨c, es₁, es₂, h1, h2, -⟩ := Walk.split h (Nat.le_succ j) h'.le
  obtain ⟨rfl, -⟩ := Walk.unique h' h1
  cases h2 with
  | down hc hw =>
    cases hw with
    | refl => exact hc
    | down _ hw => have := hw.le; omega

/-- `descend` finds the last-level table of `va`, or there is none. -/
theorem descend_spec :
    ∀ {level table : Nat} {slots : List (Nat × Nat)} {es : List Word},
      s.Reaches r va level table es → Trail s r va level slots →
      (s.descend va level table slots = none ∧ ∀ t es', ¬ s.Reaches r va 0 t es') ∨
      ∃ t slots' es', s.descend va level table slots = some (t, slots') ∧
        s.Reaches r va 0 t es' ∧ Trail s r va 0 slots'
  | 0, table, slots, es, hw, ht => .inr ⟨table, slots, es, rfl, hw, ht⟩
  | level + 1, table, slots, es, hw, ht => by
    simp only [descend]
    split
    · rename_i hstop
      refine .inl ⟨rfl, fun t es' hw' => ?_⟩
      obtain ⟨c, es₁, es₂, h1, h2, -⟩ := Walk.split hw' (Nat.zero_le level)
        (Nat.le_trans (Nat.le_succ level) hw.le)
      obtain ⟨h3, h4, -⟩ := child_eq_some (Reaches.child h1 hw)
      simp [h3, h4] at hstop
    · rename_i hgo
      have hgo := hgo
      simp only [Bool.or_eq_true, Bool.not_eq_true', not_or, Bool.not_eq_false,
        Bool.not_eq_true] at hgo
      exact descend_spec (Walk.snoc hw (child_of_present hgo.1 hgo.2)) ⟨rfl, ⟨es, hw⟩, ht⟩

theorem descend_root (s : Phys) (r va : Nat) :
    (s.descend va 3 r [] = none ∧ ∀ t es', ¬ s.Reaches r va 0 t es') ∨
    ∃ t slots' es', s.descend va 3 r [] = some (t, slots') ∧
      s.Reaches r va 0 t es' ∧ Trail s r va 0 slots' :=
  descend_spec (.refl 3 r) rfl

/-- `vmm_pte_in` finds the slot of a present leaf, or there is none. -/
theorem vmmPteIn_spec (s : Phys) (hr : r ≠ 0) (hc : canonical va = true) :
    (s.vmmPteIn r va = none ∧
      ∀ t es, s.Reaches r va 0 t es → (s.mem t (indexAt va 0)).has ptePresent = false) ∨
    ∃ t es, s.vmmPteIn r va = some (t, indexAt va 0) ∧ s.Reaches r va 0 t es ∧
      (s.mem t (indexAt va 0)).has ptePresent = true := by
  unfold vmmPteIn
  simp only [hr, hc, decide_false, Bool.not_true, Bool.or_self, Bool.false_eq_true, ↓reduceIte]
  rcases descend_root s r va with ⟨he, hn⟩ | ⟨t, slots, es, he, hw, -⟩
  · rw [he]
    exact .inl ⟨rfl, fun t es hw => absurd hw (hn t es)⟩
  · rw [he]
    simp only
    split
    · rename_i hl
      exact .inr ⟨t, es, rfl, hw, hl⟩
    · rename_i hl
      refine .inl ⟨rfl, fun t' es' hw' => ?_⟩
      obtain ⟨rfl, -⟩ := Walk.unique hw hw'
      simpa using hl

/-! ## The climb -/

/-- Retiring a table keeps it out of the tree until it is freed, and touches no memory. -/
structure Pusher (r : Nat) (I : Slots) {β : Type} (push : Nat → β → Phys → β × Phys)
    (buf : β → List Nat) : Prop where
  eff : ∀ {c : Nat} {b : β} {s : Phys}, s.Tree r I (c :: buf b) →
    Eff r I s (c :: buf b) (push c b s).2 (buf (push c b s).1)
  mem : ∀ (c : Nat) (b : β) (s : Phys), (push c b s).2.mem = s.mem

theorem pusher_cons (r : Nat) (I : Slots) :
    Pusher r I (fun frame (retired : List Nat) s => (frame :: retired, s)) id :=
  ⟨fun ht => .refl ht, fun _ _ _ => rfl⟩

theorem pusher_retireTable (r : Nat) (I : Slots) : Pusher r I retireTable Subtype.val := by
  refine ⟨fun {c b s} ht => ?_, fun c b s => ?_⟩
  · unfold retireTable
    split
    · have := @Tree.releaseAll s r I [] (c :: b.1) (by rwa [List.append_nil])
      rwa [List.append_nil] at this
    · exact .refl ht
  · unfold retireTable
    split
    · exact foldl_freeFrame_mem _ _
    · rfl

/-- What one climb does. `E` are the tables that may stay empty. -/
structure Climb (r : Nat) (I : Slots) (va u : Nat) (s : Phys) (P : List Nat) (s' : Phys)
    (P' : List Nat) : Prop where
  eff : Eff r I s P s' P'
  view : SameView r I s s'
  cut : Cut r I s s'
  full : ∀ E : Nat → Prop, Top s r I E → s.Full r I (fun g => E g ∨ g = u) → s'.Full r I E
  /-- The page tables of other 2 MiB blocks are still reached. -/
  others : ∀ k, pageShape.InRange k → k 3 ∈ I.idx → (∃ l, 1 ≤ l ∧ l ≤ 3 ∧ k l ≠ indexAt va l) →
    ∀ g es, Walk pageShape s.mem k 3 r 0 g es → Walk pageShape s'.mem k 3 r 0 g es
  /-- In the kernel half the root table stays as it is. -/
  root : 0xFFFF800000000000 ≤ va → s'.mem r = s.mem r

theorem Climb.stop {u : Nat} (ht : s.Tree r I P)
    (hu : ∀ E : Nat → Prop, Top s r I E → E u ∨ pageShape.Occupied s.mem u) :
    Climb r I va u s P s P := by
  refine ⟨.refl ht, .refl, .refl, fun E hE hf g hg => ?_, fun _ _ _ _ _ _ h => h, fun _ => rfl⟩
  rcases hf g hg with (h | rfl) | h
  · exact .inl h
  · exact hu E hE
  · exact .inr h

theorem prune_spec {β : Type} {push : Nat → β → Phys → β × Phys} {buf : β → List Nat}
    (hp : Pusher r I push buf) (hI : indexAt va 3 ∈ I.idx) (hva : va < 2 ^ 64) :
    ∀ {slots : List (Nat × Nat)} {j u : Nat} {b : β} {s : Phys} {es : List Word},
      s.Tree r I (buf b) → s.Reaches r va j u es → Trail s r va j slots →
      Climb r I va u s (buf b) (Phys.prune push va slots b s).2
        (buf (Phys.prune push va slots b s).1)
  | [], j, u, b, s, es, ht, hw, htr => by
    refine .stop ht fun E hE => .inl ?_
    obtain rfl : j = 3 := htr
    cases hw with
    | refl => exact hE.1
    | down _ hw => have := hw.le; omega
  | (t, i) :: slots, j, u, b, s, es, ht, hw, htr => by
    obtain ⟨rfl, ⟨es', hw'⟩, htr⟩ := htr
    have hc := hw.child hw'
    have hat : tableAt (s.mem t (indexAt va (j + 1))) = u := (child_eq_some hc).2.2
    rw [Phys.prune, hat]
    split
    · -- a table right below the root, in the kernel half
      rename_i hk
      simp only [Bool.and_eq_true, List.isEmpty_iff, decide_eq_true_eq] at hk
      obtain ⟨rfl, hk⟩ := hk
      obtain rfl : j = 2 := Nat.succ.inj htr
      exact .stop ht fun E hE => .inl (hE.2 va u es hk hva hI hw)
    · rename_i hk
      have htroot : 0xFFFF800000000000 ≤ va → t ≠ r := fun h => by
        cases slots with
        | nil => simp [h] at hk
        | cons c slots =>
          have := htr.2.1.choose_spec.le
          exact ht.ne_root hw' hI (by omega)
      split
      · rename_i ho
        refine .stop ht fun _ _ => .inr ?_
        by_contra hz
        rw [(emptyTable_iff s u).mpr hz] at ho
        cases ho
      · rename_i hz
        have hz : ¬ pageShape.Occupied s.mem u := (emptyTable_iff s u).mp (by simpa using hz)
        have hk := inRange_indexAt va
        obtain ⟨h1, h2, h3⟩ := ht.prune hw' hI hc hz
        let s₁ := s.store t (indexAt va (j + 1)) 0#64
        have hpush := hp.eff h1.tree
        have hmem : (push u b s₁).2.mem = s₁.mem := hp.mem u b s₁
        -- everything at or above the cleared slot is still reached
        have hkeep : ∀ l c ds, j + 1 ≤ l → s.Reaches r va l c ds →
            (push u b s₁).2.Reaches r va l c ds := fun l c ds hl hr => by
          have := Walk.put_survives hw' hr 0#64 hk hI ht.nodup_tables hk hI (.inl hl)
          unfold Reaches
          rw [hmem]
          exact this
        have hcut :
          Cut r I s s₁ := .of_store (fun g hg => h3.mem_iff.mp (List.mem_cons_of_mem _ hg))
          fun g hg hg' => by
            rcases List.mem_cons.mp (h3.mem_iff.mpr hg) with rfl | h
            · exact hz
            · exact absurd h hg'
        have hcut : Cut r I s (push u b s₁).2 := hcut.trans (.of_mem hmem)
        obtain ⟨g1, g2, g3, g4, g5, g6⟩ := @prune_spec β push buf hp hI hva slots (j + 1) t
          (push u b s₁).1 (push u b s₁).2 es' hpush.tree (hkeep _ _ _ (Nat.le_refl _) hw')
          (htr.mono fun l c ds hl => hkeep l c ds (Nat.le_of_lt hl))
        have hview : SameView r I s (push u b s₁).2 := fun k hk hkI => by
          rw [lookup, hmem]
          exact h2 k hk hkI
        refine ⟨(h1.trans hpush).trans g1, hview.trans g2, hcut.trans g3, fun E hE hf => ?_,
          fun k hk' hkI hne g ds hwg => ?_, fun h => ?_⟩
        · refine g4 E (hE.cut hcut) fun g hg => ?_
          rw [tables_congr_mem hmem] at hg
          have hnd := h3.nodup_iff.mpr ht.nodup_tables
          have hgu : g ≠ u := fun h => (List.nodup_cons.mp hnd).1 (h ▸ hg)
          rcases hf g (h3.mem_iff.mp (List.mem_cons_of_mem _ hg)) with (h | rfl) | ⟨i, hi, hl⟩
          · exact .inl (.inl h)
          · exact absurd rfl hgu
          · by_cases hgt : g = t
            · exact .inl (.inr hgt)
            · refine .inr ⟨i, hi, ?_⟩
              rw [hmem]
              show pageShape.live (put s.mem t _ 0#64 g i) = true
              rwa [put_ne_table hgt]
        · refine g5 k hk' hkI hne g ds ?_
          rw [hmem]
          -- a walk through the cleared slot would go on through the empty table `u`
          refine Walk.put_survives hw' hwg 0#64 hk hI ht.nodup_tables hk' hkI (.inr ?_)
          by_contra hsame
          push Not at hsame
          have hu : Walk pageShape s.mem k 3 r j u es :=
            Walk.agree hw fun l h1 h2 => hsame l (by omega) h2
          obtain ⟨d, es₁, es₂, h4, h5, -⟩ := Walk.split hwg (Nat.zero_le j) hw.le
          obtain ⟨rfl, -⟩ := Walk.unique hu h4
          have hj := (h5.not_occupied_end hk' hz).1
          obtain ⟨l, h6, h7, h8⟩ := hne
          exact h8 (hsame l (by omega) h7)
        · rw [g6 h, hmem]
          exact put_ne_table (htroot h).symm

end GenOS.Phys
