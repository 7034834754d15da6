import GenOS.Mm.VmmTree

/-!
# Mapping one page

`map_page` makes up to three tables on its way down and takes them back if it fails. `Grown` is
what the walk has done so far, `rollback_unchanged` undoes it, and `mapPage_spec` is the result:
either nothing a lookup or the allocator can see has changed (`Unchanged`), or exactly one page is
mapped (`Mapped`).
-/

namespace GenOS.Phys

open Radix Pmm

/-- The walk made the tables `F`, one behind each slot of `C`. -/
structure Grown (r : Nat) (I : Slots) (s s' : Phys) (C : List (Nat × Nat)) (F : List Nat) :
    Prop where
  view : SameView r I s s'
  perm : (s'.tables r I).Perm (F ++ s.tables r I)
  free : ∀ f ∈ F, s.pmm.FreeAt f
  slots : C.map (fun c => tableAt (s'.mem c.1 c.2)) = F
  live : ∀ c ∈ C, (s'.mem c.1 c.2).has ptePresent = true
  nodup : C.Nodup
  inTree : ∀ c ∈ C, c.1 ∈ s'.tables r I ∧ (c.1 = r → c.2 ∈ I.idx)
  dead : ∀ c ∈ C, ¬ s.pmm.FreeAt c.1 → (s.mem c.1 c.2).has ptePresent = false
  words : ∀ g, ¬ s.pmm.FreeAt g → ∀ i, (g, i) ∉ C → s'.mem g i = s.mem g i

/-- A call that failed: the same counts, and words that no lookup can tell from the old ones. -/
structure Unchanged (r : Nat) (I : Slots) (s : Phys) (P : List Nat) (s' : Phys) : Prop where
  eff : Eff r I s P s' P
  words : ∀ g ∈ s.tables r I, ∀ i, pageShape.Same (s.mem g i) (s'.mem g i)
  refs : Moves s.pmm s'.pmm [] []

/-- The arguments `map_page` accepts. -/
structure MapArgs (va : Nat) (phys flags : Word) : Prop where
  canonical : canonical va = true
  aligned : va % 4096 = 0
  address : phys &&& ~~~pteAddrMask = 0#64
  flag : flags &&& ~~~pteFlagMask = 0#64
  present : flags.has ptePresent = true
  user : flags.has pteUser = true → va < 0x800000000000

/-- A page was mapped, and no other lookup changed. `es` are the table entries above the leaf. -/
structure Mapped (r : Nat) (I : Slots) (s : Phys) (P : List Nat) (s' : Phys) (va : Nat)
    (phys flags : Word) (es : List Word) : Prop where
  args : MapArgs va phys flags
  eff : Eff r I s P s' P
  length : es.length = 3
  permits : ∀ e ∈ es, refused flags e = false
  before : s.lookup r (indexAt va) = none
  view : ∀ k, pageShape.InRange k → k 3 ∈ I.idx → s'.lookup r k =
    if ∀ l ≤ 3, k l = indexAt va l then some (es ++ [phys ||| flags]) else s.lookup r k
  full : ∀ E, s.Full r I E → s'.Full r I E
  /-- No entry that was present has changed. -/
  live : ∀ g ∈ s.tables r I, ∀ i, (s.mem g i).has ptePresent = true → s'.mem g i = s.mem g i
  /-- A new table right below the root was free. -/
  top : (s.mem r (indexAt va 3)).has ptePresent = false →
    s.pmm.FreeAt (tableAt (s'.mem r (indexAt va 3)))

variable {s s' s₁ : Phys} {r : Nat} {I : Slots} {P : List Nat}

/-! ## Failure -/

namespace Unchanged

theorem agree (h : Unchanged r I s P s') : Agree pageShape s.mem s'.mem 3 I.idx r :=
  .of_tables I.lt fun g hg i _ => h.words g hg i

theorem tables (h : Unchanged r I s P s') : s'.tables r I = s.tables r I := tables_congr h.agree

theorem view (h : Unchanged r I s P s') : SameView r I s s' :=
  fun _ hk hI => path_congr h.agree hk hI

theorem full (h : Unchanged r I s P s') {E : Nat → Prop} (hf : s.Full r I E) : s'.Full r I E := by
  intro g hg
  rw [h.tables] at hg
  refine (hf g hg).imp_right fun ⟨i, hi, hl⟩ => ⟨i, hi, ?_⟩
  rw [(h.words g hg i).live]
  exact hl

theorem refl (h : s.Tree r I P) : Unchanged r I s P s :=
  ⟨.refl h, fun _ _ _ => .inl rfl, .refl h.inv⟩

end Unchanged

/-! ## The walk -/

namespace Grown

theorem refl : Grown r I s s [] [] :=
  ⟨.refl, .refl _, by simp, rfl, by simp, .nil, by simp, by simp, fun _ _ _ _ => rfl⟩

/-- The first table of a walk, then the others. -/
theorem trans {c : Nat × Nat} {f : Nat} {C : List (Nat × Nat)} {F : List Nat}
    (he : Eff r I s P s₁ P) (h : Grown r I s s₁ [c] [f]) (h' : Grown r I s₁ s' C F) :
    Grown r I s s' (C ++ [c]) (F ++ [f]) := by
  have hlive := h.live c List.mem_cons_self
  have hat : tableAt (s₁.mem c.1 c.2) = f := List.singleton_inj.mp h.slots
  have hcT := h.inTree c List.mem_cons_self
  have hcu : ¬ s₁.pmm.FreeAt c.1 := he.tree.used_table hcT.1
  have hcC : c ∉ C := fun hm => by
    rw [h'.dead c hm hcu] at hlive
    cases hlive
  have hc' : s'.mem c.1 c.2 = s₁.mem c.1 c.2 := h'.words c.1 hcu c.2 hcC
  have hused : ∀ g, ¬ s.pmm.FreeAt g → ¬ s₁.pmm.FreeAt g := fun g hg => by
    refine he.moves.not_freeAt hg ?_
    rw [(h.perm.append_right P).count_eq, List.append_assoc]
    exact (List.sublist_append_right [f] _).count_le g
  refine ⟨h.view.trans h'.view, ?_, fun g hg => ?_, ?_, fun d hd => ?_, ?_, fun d hd => ?_,
    fun d hd hu => ?_, fun g hg i hi => ?_⟩
  · rw [List.append_assoc]
    exact h'.perm.trans (h.perm.append_left F)
  · rcases List.mem_append.mp hg with hg | hg
    · by_contra hc
      exact hused g hc (h'.free g hg)
    · exact h.free g hg
  · rw [List.map_append, h'.slots, List.map_singleton, hc', hat]
  · rcases List.mem_append.mp hd with hd | hd
    · exact h'.live d hd
    · rw [List.mem_singleton.mp hd, hc']
      exact hlive
  · refine List.nodup_append.mpr ⟨h'.nodup, List.nodup_singleton c, fun a ha b hb hab => hcC ?_⟩
    rw [← List.mem_singleton.mp hb, ← hab]
    exact ha
  · rcases List.mem_append.mp hd with hd | hd
    · exact h'.inTree d hd
    · rw [List.mem_singleton.mp hd]
      exact ⟨h'.perm.mem_iff.mpr (List.mem_append_right _ hcT.1), hcT.2⟩
  · rcases List.mem_append.mp hd with hd | hd
    · have hdc : d ∉ [c] := fun hm => hcC (List.mem_singleton.mp hm ▸ hd)
      rw [← h.words d.1 hu d.2 hdc]
      exact h'.dead d hd (hused _ hu)
    · exact h.dead d hd hu
  · rw [List.mem_append, not_or] at hi
    rw [h'.words g (hused g hg) i hi.1, h.words g hg i hi.2]

end Grown

theorem Grafted.grown {u slot f : Nat} (hg : Grafted r I s s' u slot f) (ht : s.Tree r I P)
    (hu : u ∈ s.tables r I) (hr : u = r → slot ∈ I.idx) : Grown r I s s' [(u, slot)] [f] := by
  obtain ⟨ha, hlt⟩ := freeAt_lt ht.small hg.free
  refine ⟨hg.view, hg.perm, by simpa using hg.free, ?_, ?_, List.nodup_singleton _, ?_, ?_,
    fun g hgu i hi => ?_⟩
  · rw [List.map_singleton, hg.entry, tableAt_tableEntry ha hlt]
  · intro c hc
    rw [List.mem_singleton.mp hc, hg.entry]
    exact (tableEntry_flags ha hlt).1
  · intro c hc
    rw [List.mem_singleton.mp hc]
    exact ⟨hg.perm.mem_iff.mpr (List.mem_cons_of_mem _ hu), hr⟩
  · intro c hc _
    rw [List.mem_singleton.mp hc]
    exact hg.dead
  · refine hg.words g i (fun h => hgu (h ▸ hg.free)) fun h => hi ?_
    rw [h.1, h.2]
    exact List.mem_singleton_self _

theorem Grafted.full {u slot f : Nat} (hg : Grafted r I s s' u slot f) (ht : s.Tree r I P)
    (hslot : slot < 512) {E : Nat → Prop} (h : s.Full r I fun g => E g ∨ g = u) :
    s'.Full r I fun g => E g ∨ g = f := by
  obtain ⟨ha, hlt⟩ := freeAt_lt ht.small hg.free
  have hu : pageShape.Occupied s'.mem u := ⟨slot, hslot, by
    rw [hg.entry]
    exact (tableEntry_flags ha hlt).1⟩
  intro g hgT
  rcases List.mem_cons.mp (hg.perm.mem_iff.mp hgT) with rfl | hgT
  · exact .inl (.inr rfl)
  · have hgf : g ≠ f := fun he => ht.used_table hgT (he ▸ hg.free)
    rcases h g hgT with (he | rfl) | ⟨i, hi, hl⟩
    · exact .inl (.inl he)
    · exact .inr hu
    · by_cases hgu : g = u
      · exact .inr (hgu ▸ hu)
      · refine .inr ⟨i, hi, ?_⟩
        rw [hg.words g i hgf fun h => hgu h.1]
        exact hl

/-- **The walk of `map_page`.** Whatever it returns, it has only added tables; if it reaches a last
table, every entry above it permits the flags, and no table but that one can be new and empty. -/
theorem mapWalk_spec {va : Nat} {flags : Word} (hI : indexAt va 3 ∈ I.idx) :
    ∀ {level table : Nat} {created : List (Nat × Nat)} {s : Phys} {es : List Word},
      s.Tree r I P → s.Reaches r va level table es → (∀ e ∈ es, refused flags e = false) →
      ∃ C F s' t?, mapWalk va flags level table created s = (t?, C ++ created, s') ∧
        Eff r I s P s' P ∧ Grown r I s s' C F ∧
        ∀ t, t? = some t → ∃ es', s'.Reaches r va 0 t es' ∧ (∀ e ∈ es', refused flags e = false) ∧
          ∀ E : Nat → Prop, s.Full r I (fun g => E g ∨ g = table) → s'.Full r I fun g => E g ∨ g = t
  | 0, table, created, s, es, ht, hw, hes => by
    refine ⟨[], [], s, some table, rfl, .refl ht, .refl, fun t h => ?_⟩
    obtain rfl := Option.some.inj h
    exact ⟨es, hw, hes, fun E h => h⟩
  | level + 1, table, created, s, es, ht, hw, hes => by
    simp only [mapWalk]
    have hslot := indexAt_lt va (level + 1)
    split
    · rename_i hpres
      split
      · exact ⟨[], [], s, none, rfl, .refl ht, .refl, fun t h => by cases h⟩
      · -- an existing table that permits the flags
        rename_i hok
        have hok : refused flags (s.mem table (indexAt va (level + 1))) =
          false := by simpa using hok
        have hlarge : (s.mem table (indexAt va (level + 1))).has pteLarge = false := by
          simp only [refused, Bool.or_eq_false_iff] at hok
          exact hok.1.1.1
        have hw' := Walk.snoc hw (child_of_present hpres hlarge)
        obtain ⟨C, F, s', t?, he, heff, hg, hres⟩ :=
          @mapWalk_spec va flags hI level _ created s _ ht hw'
          fun e hm => (List.mem_append.mp hm).elim (hes e) fun h => List.mem_singleton.mp h ▸ hok
        refine ⟨C, F, s', t?, he, heff, hg, fun t h => ?_⟩
        obtain ⟨es', h1, h2, h3⟩ := hres t h
        refine ⟨es', h1, h2, fun E hE => h3 E fun g hgT => ?_⟩
        rcases hE g hgT with (he | rfl) | ho
        · exact .inl (.inl he)
        · exact .inr ⟨_, hslot, hpres⟩
        · exact .inr ho
    · rename_i hdead
      have hdead : (s.mem table (indexAt va (level + 1))).has ptePresent =
        false := by simpa using hdead
      rcases allocFrame_cases ht.inv with ha | ⟨f, p, ha, hf0, hf, hm⟩
      · rw [ha]
        refine ⟨[], [], _, none, rfl, ht.tick _, ?_, fun t h => by cases h⟩
        exact ⟨fun _ _ _ => rfl, .refl _, by simp, rfl, by simp, .nil, by simp, by simp,
          fun _ _ _ _ => rfl⟩
      · -- a new table, then on from there
        rw [ha]
        simp only [hf0, ↓reduceIte]
        obtain ⟨heff, hgr, hw'⟩ := ht.graft hw hI hdead hf hm rfl
        have hu := hw.mem_tables hI
        have hroot : table = r → indexAt va (level + 1) ∈ I.idx := fun h => by
          rcases Nat.lt_or_eq_of_le hw.le with hlt | heq
          · exact absurd h (ht.ne_root hw hI hlt)
          · rw [heq]
            exact hI
        obtain ⟨ha', hlt⟩ := freeAt_lt ht.small hf
        have hentry : refused flags (tableEntry f) = false := by
          obtain ⟨-, h2, h3, h4, h5⟩ := tableEntry_flags ha' hlt
          simp [refused, h2, h3, h4, h5]
        have hat : ∀ x : Phys, x.mem table (indexAt va (level + 1)) = tableEntry f →
            tableAt (x.mem table (indexAt va (level + 1))) = f := fun x hx => by
          rw [hx]
          exact tableAt_tableEntry ha' hlt
        rw [hat _ hgr.entry]
        obtain ⟨C, F, s', t?, he, heff', hg, hres⟩ := @mapWalk_spec va flags hI level _
          ((table, indexAt va (level + 1)) :: created) _ _ heff.tree hw'
          fun e hm => (List.mem_append.mp hm).elim (hes e) fun h => List.mem_singleton.mp h ▸ hentry
        refine ⟨C ++ [(table, indexAt va (level + 1))], F ++ [f], s', t?, ?_, heff.trans heff',
          (hgr.grown ht hu hroot).trans heff hg, fun t h => ?_⟩
        · rw [he, List.append_assoc]
          rfl
        · obtain ⟨es', h1, h2, h3⟩ := hres t h
          exact ⟨es', h1, h2, fun E hE => h3 E (hgr.full ht hslot hE)⟩

/-! ## Rollback -/

/-- The first loop of the rollback collects the new tables and clears their slots. -/
theorem clearCreated_spec :
    ∀ {C : List (Nat × Nat)} (acc : List Nat) (s : Phys), C.Nodup →
      ∃ m, clearCreated C acc s =
          ((C.map fun c => tableAt (s.mem c.1 c.2)).reverse ++ acc, { s with mem := m }) ∧
        ∀ g i, m g i = if (g, i) ∈ C then 0#64 else s.mem g i
  | [], acc, s, _ => ⟨s.mem, rfl, by simp⟩
  | (t, i) :: C, acc, s, hd => by
    rw [List.nodup_cons] at hd
    have hoff : ∀ g j, (g, j) ≠ (t, i) → (s.store t i 0#64).mem g j = s.mem g j := fun g j hne => by
      by_cases h1 : g = t
      · subst h1
        exact put_ne_word fun h2 => hne (by rw [h2])
      · exact congrFun (put_ne_table h1) j
    have hmap : (C.map fun c => tableAt ((s.store t i 0#64).mem c.1 c.2)) =
        C.map fun c => tableAt (s.mem c.1 c.2) := List.map_congr_left fun c hc => by
      rw [hoff c.1 c.2 fun h => hd.1 (h ▸ hc)]
    obtain ⟨m, he, hm⟩ := clearCreated_spec (tableAt (s.mem t i) :: acc) (s.store t i 0#64) hd.2
    refine ⟨m, ?_, fun g j => ?_⟩
    · rw [clearCreated, he, hmap, List.map_cons, List.reverse_cons, List.append_assoc]
      rfl
    · rw [hm]
      by_cases h1 : (g, j) = (t, i)
      · cases h1
        simp [store]
      · rw [hoff g j h1]
        simp only [List.mem_cons, h1, false_or]

/-- **The rollback** undoes the walk. -/
theorem rollback_unchanged {C : List (Nat × Nat)} {F : List Nat} (ht : s.Tree r I P)
    (he : Eff r I s P s' P) (hg : Grown r I s s' C F) :
    Unchanged r I s P (s'.rollback C) := by
  obtain ⟨m, hc, hm⟩ := clearCreated_spec [] s' hg.nodup
  rw [hg.slots, List.append_nil] at hc
  have hs : s'.rollback C = F.reverse.foldl freeFrame { s' with mem := m } := by
    simp only [rollback, hc]
  have hmem : (s'.rollback C).mem = m := by rw [hs, foldl_freeFrame_mem]
  have hF : F.Nodup := (List.nodup_append.mp (hg.perm.nodup_iff.mp he.tree.nodup_tables)).1
  -- the counts: the walk took `F`, the rollback gives it back
  have hm1 : Moves s.pmm s'.pmm [] F := he.moves.congr fun a _ => by
    rw [(hg.perm.append_right P).count_eq, List.append_assoc]
    simp only [List.count_append, List.count_nil]
    omega
  have hm2 : Moves s'.pmm (s'.rollback C).pmm F [] := by
    have := freePages_moves he.tree.inv (List.nodup_reverse.mpr hF) fun a ha =>
      he.tree.used_table (hg.perm.mem_iff.mpr (List.mem_append_left _ (List.mem_reverse.mp ha)))
    rw [hs, foldl_freeFrame_pmm]
    exact this.perm (List.reverse_perm F) (.refl _)
  have hrefs := hm1.comp hm2
  have hwords : ∀ g ∈ s.tables r I, ∀ i, pageShape.Same (s.mem g i) ((s'.rollback C).mem g i) := by
    intro g hgT i
    have hgu := ht.used_table hgT
    rw [hmem, hm]
    split
    · rename_i hi
      exact .inr ⟨hg.dead _ hi hgu, dead_zero⟩
    · rename_i hi
      exact .inl (hg.words g hgu i hi).symm
  have htab : (s'.rollback C).tables r I = s.tables r I :=
    tables_congr (.of_tables I.lt fun g hgT i _ => hwords g hgT i)
  refine ⟨⟨⟨hrefs.inv, ?_, ?_, ?_⟩, ?_, ?_, ?_, ?_, ?_, ?_⟩, hwords, hrefs⟩
  · rw [hrefs.total]
    exact ht.small
  · rw [htab]
    exact ht.nodup
  · rw [htab]
    exact fun g hgT => hrefs.not_freeAt (ht.used g hgT) (Nat.le_refl _)
  · rw [htab]
    simpa using hrefs.frame (s.tables r I ++ P)
  · intro g hgT hgu
    funext i
    rw [hmem, hm, if_neg fun hi => ?_, he.mem g hgT hgu]
    rcases List.mem_append.mp (hg.perm.mem_iff.mp (hg.inTree _ hi).1) with h | h
    · exact hgu (hg.free g h)
    · exact hgT (List.mem_append_left _ h)
  · intro i hi
    rw [hmem, hm, if_neg fun h => hi ((hg.inTree _ h).2 rfl), he.root i hi]
  · rw [htab]
    exact fun g hgT => .inl hgT
  · rw [hs, foldl_freeFrame_kernel]
    exact he.kernel
  · rw [hs, foldl_freeFrame_deny]
    exact he.deny

/-! ## `map_page` -/

theorem mapArgs_iff {va : Nat} {phys flags : Word} {pml4 : Nat} (hr : pml4 ≠ 0) :
    (pml4 = 0 || !canonical va || va % 4096 != 0 || phys.has (~~~pteAddrMask) ||
      !flags.has ptePresent || flags.has (~~~pteFlagMask) ||
      (flags.has pteUser && decide (0x800000000000 ≤ va))) = false ↔ MapArgs va phys flags := by
  have hp : phys.has (~~~pteAddrMask) = false ↔ phys &&& ~~~pteAddrMask = 0#64 := by
    simp [Word.has]
  have hf : flags.has (~~~pteFlagMask) = false ↔ flags &&& ~~~pteFlagMask = 0#64 := by
    simp [Word.has]
  simp only [hr, decide_false, Bool.false_or, Bool.or_eq_false_iff, Bool.not_eq_false', hp, hf,
    bne_eq_false_iff_eq, Bool.and_eq_false_iff, decide_eq_false_iff_not]
  constructor
  · rintro ⟨⟨⟨⟨⟨h1, h2⟩, h3⟩, h4⟩, h5⟩, h6⟩
    refine ⟨h1, h2, h3, h5, h4, fun hu => ?_⟩
    rcases h6 with h6 | h6
    · rw [hu] at h6
      cases h6
    · omega
  · rintro ⟨h1, h2, h3, h5, h4, h6⟩
    refine ⟨⟨⟨⟨⟨h1, h2⟩, h3⟩, h4⟩, h5⟩, ?_⟩
    cases hu : flags.has pteUser with
    | false => exact .inl rfl
    | true => exact .inr (by have := h6 hu; omega)

/-- **`map_page`, case by case.** -/
theorem mapPage_spec (ht : s.Tree r I P) (hr : r ≠ 0) {va : Nat} (hI : indexAt va 3 ∈ I.idx)
    (phys flags : Word) :
    (∃ s', s.mapPage r va phys flags = (false, s') ∧ Unchanged r I s P s') ∨
    ∃ s' es, s.mapPage r va phys flags = (true, s') ∧ Mapped r I s P s' va phys flags es := by
  unfold mapPage
  split
  · exact .inl ⟨s, rfl, .refl ht⟩
  · rename_i hargs
    have hargs := (mapArgs_iff hr).mp (by simpa only [Bool.not_eq_true] using hargs)
    obtain ⟨C, F, s', t?, he, heff, hg, hres⟩ := @mapWalk_spec r I P va flags hI 3 r [] s []
      ht (.refl _ _) (by simp)
    rw [List.append_nil] at he
    rw [he]
    cases t? with
    | none => exact .inl ⟨_, rfl, rollback_unchanged ht heff hg⟩
    | some t =>
      obtain ⟨es, hw, hes, hfull⟩ := hres t rfl
      simp only
      split
      · exact .inl ⟨_, rfl, rollback_unchanged ht heff hg⟩
      · rename_i hdead
        have hdead : (s'.mem t (indexAt va 0)).has ptePresent = false := by simpa using hdead
        obtain ⟨heff', hperm, hview⟩ := heff.tree.setLeaf hw hI (phys ||| flags)
        have hb := Word.built hargs.address hargs.flag
        have hpres : (phys ||| flags).has ptePresent = true := by
          rw [Word.has_present, hb.bit 0 (by decide), ← Word.has_present]
          exact hargs.present
        have hbefore : s.lookup r (indexAt va) = none := by
          rw [← hg.view _ (inRange_indexAt va) hI, lookup, Walk.path_eq hw,
            path_of_dead (L := 0) hdead]
          rfl
        have hput : ∀ g i, (s'.mem g i).has ptePresent = true →
            (s'.store t (indexAt va 0) (phys ||| flags)).mem g i = s'.mem g i := by
          intro g i hl
          show put s'.mem t (indexAt va 0) (phys ||| flags) g i = s'.mem g i
          by_cases hgt : g = t
          · subst hgt
            refine put_ne_word fun h => ?_
            rw [h, hdead] at hl
            cases hl
          · rw [put_ne_table hgt]
        refine .inr ⟨_, es, rfl, hargs, heff.trans heff', by simpa using hw.length, hes, hbefore,
          fun k hk hkI => ?_, fun E hE => ?_, fun g hgT i hl => ?_, fun hd => ?_⟩
        · rw [hview k hk hkI, hpres, hg.view k hk hkI]
          rfl
        · intro g hgT
          rcases hfull E (fun g hg => (hE g hg).imp_left .inl) g (hperm.mem_iff.mp hgT) with
            (h | rfl) | ⟨i, hi, hl⟩
          · exact .inl h
          · exact .inr ⟨indexAt va 0, indexAt_lt va 0, by
              show (put s'.mem g (indexAt va 0) (phys ||| flags) g (indexAt va 0)).has ptePresent =
                true
              rwa [put_self]⟩
          · exact .inr ⟨i, hi, by rw [hput g i hl]; exact hl⟩
        · have hsame : s'.mem g i = s.mem g i := by
            refine hg.words g (ht.used_table hgT) i fun hc => ?_
            rw [hg.dead _ hc (ht.used_table hgT)] at hl
            cases hl
          rw [hput g i (by rw [hsame]; exact hl), hsame]
        · -- the walk reached the last table, so it has made the missing slot of the root
          have hpres : (s'.mem r (indexAt va 3)).has ptePresent = true := by
            cases hw with
            | down hc _ => exact (child_eq_some hc).1
          have hc : (r, indexAt va 3) ∈ C := by
            by_contra hc
            rw [hg.words r (ht.used_table (root_mem s r I)) _ hc, hd] at hpres
            cases hpres
          rw [hput r _ hpres]
          refine hg.free _ ?_
          rw [← hg.slots]
          exact List.mem_map_of_mem (f := fun c : Nat × Nat => tableAt (s'.mem c.1 c.2)) hc

end GenOS.Phys
