import GenOS.Mm.VmmCount
import GenOS.Mm.VmmSpace

/-!
# Trees of user pages

In the lower half `map_page` is the only writer of table entries, and the ones it makes permit
everything. In such a tree (`Plain`) no entry ever refuses a page, so what a mapping needs depends
on the mapped pages only: a table is missing when no page below it is mapped (`tablesMissing_spec`).
-/

namespace GenOS.Phys

open Radix Pmm

/-- The entry is no obstacle to any page. -/
def Permissive (e : Word) : Prop := ∀ flags, refused flags e = false

/-- The leaves of the lower half are pages, behind entries that permit everything. -/
def Plain (s : Phys) (r : Nat) : Prop :=
  ∀ k, pageShape.InRange k → k 3 ∈ lowerHalf.idx → ∀ es, s.lookup r k = some es →
    ∃ above leaf, es = above ++ [leaf] ∧ above.length = 3 ∧ ∀ e ∈ above, Permissive e

/-- No page is mapped that has the indices of `va` from level `l` on. -/
def NoneBelow (s : Phys) (r va l : Nat) : Prop :=
  ∀ k, pageShape.InRange k → k 3 ∈ lowerHalf.idx → (∀ j, l ≤ j → j ≤ 3 → k j = indexAt va j) →
    s.lookup r k = none

variable {s s' : Phys} {r va : Nat} {I : Slots} {P : List Nat} {phys flags : Word}

theorem permissive_tableEntry {f : Nat} (ha : f % 4096 = 0) (hlt : f < 2 ^ 52) :
    Permissive (tableEntry f) := fun flags => by
  obtain ⟨-, h2, h3, h4, h5⟩ := tableEntry_flags ha hlt
  simp [refused, h2, h3, h4, h5]

theorem Permissive.large {e : Word} (h : Permissive e) : e.has pteLarge = false := by
  have := h 0#64
  simp only [refused, Bool.or_eq_false_iff] at this
  exact this.1.1.1

/-! ## Missing tables -/

/-- A lookup that goes on below a live word of a plain tree. -/
theorem Plain.down (hp : s.Plain r) (ht : s.Tree r lowerHalf []) (hf : s.Full r lowerHalf (· = r))
    (hI : indexAt va 3 ∈ lowerHalf.idx) {level table : Nat} {es : List Word}
    (hw : s.Reaches r va (level + 1) table es)
    (hl : (s.mem table (indexAt va (level + 1))).has ptePresent = true) :
    Permissive (s.mem table (indexAt va (level + 1))) ∧ ¬ s.NoneBelow r va (level + 1) := by
  have hlen := hw.length
  have hk := inRange_indexAt va
  -- a leaf would be too short a lookup
  have hlarge : (s.mem table (indexAt va (level + 1))).has pteLarge = false := by
    by_contra hc
    have hnone : pageShape.child (s.mem table (indexAt va (level + 1))) = none := by
      simp only [pageShape, Bool.not_eq_false] at hc ⊢
      simp [hc]
    have hlive : pageShape.live (s.mem table (indexAt va (level + 1))) = true := hl
    have hlook : s.lookup r (indexAt va) = some (es ++ [s.mem table (indexAt va (level + 1))]) := by
      rw [lookup, hw.path_eq, path_of_none hnone, if_pos hlive]
      rfl
    obtain ⟨above, leaf, he, h3, -⟩ := hp _ hk hI _ hlook
    have := congrArg List.length he
    simp only [List.length_append, List.length_singleton] at this
    omega
  have hc := child_of_present hl hlarge
  have hw' := Walk.snoc hw hc
  obtain ⟨k₂, hk₂, p, hpath, hpne⟩ := exists_path (ht.occupied_of_full hf hk hI
    (by have := hw.le; omega) hw')
  -- follow `va` down to the child, then a lookup that exists below it
  let k₃ : Nat → Nat := fun l => if l ≤ level then k₂ l else indexAt va l
  have hk₃ : pageShape.InRange k₃ := fun l => by
    simp only [k₃]
    split
    · exact hk₂ l
    · exact hk l
  have hkI₃ : k₃ 3 ∈ lowerHalf.idx := by
    have := hw.le
    simp only [k₃, if_neg (by omega : ¬ 3 ≤ level)]
    exact hI
  have hw₃ : Walk pageShape s.mem k₃ 3 r level
      (tableAt (s.mem table (indexAt va (level + 1))))
      (es ++ [s.mem table (indexAt va (level + 1))]) :=
    hw'.agree fun l h1 _ => by simp only [k₃, if_neg (by omega : ¬ l ≤ level)]
  have hlook : s.lookup r k₃ = some (es ++ [s.mem table (indexAt va (level + 1))] ++ p) := by
    rw [lookup, hw₃.path_eq, path_key (k := k₂) fun l hl => by simp only [k₃, if_pos hl], hpath]
    rfl
  refine ⟨?_, fun hn => ?_⟩
  · obtain ⟨above, leaf, he, -, hall⟩ := hp _ hk₃ hkI₃ _ hlook
    refine hall _ ?_
    rcases List.eq_nil_or_concat p with rfl | ⟨q, x, rfl⟩
    · exact absurd rfl hpne
    · rw [List.concat_eq_append, ← List.append_assoc] at he
      rw [← (List.append_inj' he rfl).1]
      simp
  · rw [hn k₃ hk₃ hkI₃ fun j h1 _ => by simp only [k₃, if_neg (by omega : ¬ j ≤ level)]] at hlook
    cases hlook

/-- **The missing tables** on the way to a page: those with no page below them. -/
theorem tablesMissing_spec (hp : s.Plain r) (ht : s.Tree r lowerHalf [])
    (hf : s.Full r lowerHalf (· = r)) (hI : indexAt va 3 ∈ lowerHalf.idx) :
    ∀ {level table : Nat} {es : List Word}, s.Reaches r va level table es →
      ∃ n ≤ level, (∀ flags, s.tablesMissing flags va level table = some n) ∧
        ∀ l, 1 ≤ l → l ≤ level → (l ≤ n ↔ s.NoneBelow r va l)
  | 0, _, _, _ => ⟨0, Nat.le_refl 0, fun _ => rfl, fun l h1 h2 => by omega⟩
  | level + 1, table, es, hw => by
    cases hl : (s.mem table (indexAt va (level + 1))).has ptePresent with
    | false =>
      refine ⟨level + 1, Nat.le_refl _, fun flags => ?_, fun l _ h2 => iff_of_true h2 ?_⟩
      · rw [tablesMissing, hl]
        rfl
      · intro k hk hkI hagree
        have hw' : Walk pageShape s.mem k 3 r (level + 1) table es :=
          hw.agree fun j h1 h3 => hagree j (by omega) h3
        have hdead : pageShape.live (s.mem table (k (level + 1))) = false := by
          rw [hagree (level + 1) h2 hw.le]
          exact hl
        rw [lookup, hw'.path_eq, path_of_dead hdead]
        rfl
    | true =>
      obtain ⟨hperm, hsome⟩ := hp.down ht hf hI hw hl
      obtain ⟨n, hn, hmiss, hiff⟩ := tablesMissing_spec hp ht hf hI
        (Walk.snoc hw (child_of_present hl hperm.large))
      refine ⟨n, by omega, fun flags => ?_, fun l h1 h2 => ?_⟩
      · rw [tablesMissing, hl, if_pos rfl, hperm flags]
        exact hmiss flags
      · rcases Nat.lt_or_eq_of_le h2 with hlt | rfl
        · exact hiff l h1 (by omega)
        · exact iff_of_false (by omega) hsome

/-! ## A mapping keeps the tree plain -/

/-- The walk of `map_page` meets and makes entries that permit everything. -/
theorem mapWalk_permissive (hI : indexAt va 3 ∈ I.idx) :
    ∀ {level table : Nat} {created : List (Nat × Nat)} {s : Phys} {es : List Word},
      s.Tree r I P → s.Reaches r va level table es → (∀ e ∈ es, Permissive e) →
      (∀ fl, s.tablesMissing fl va level table ≠ none) →
      ∀ {t : Nat} {C : List (Nat × Nat)} {s' : Phys},
      mapWalk va flags level table created s = (some t, C, s') →
      ∀ es', s'.Reaches r va 0 t es' → ∀ e ∈ es', Permissive e
  | 0, table, created, s, es, ht, hw, hes, hway, t, C, s', he, es', hw' => by
    cases he
    rwa [(hw.unique hw').2]
  | level + 1, table, created, s, es, ht, hw, hes, hway, t, C, s', he, es', hw' => by
    simp only [mapWalk] at he
    have hway : ∀ fl, (if (s.mem table (indexAt va (level + 1))).has ptePresent then
        if refused fl (s.mem table (indexAt va (level + 1))) then none
        else s.tablesMissing fl va level (tableAt (s.mem table (indexAt va (level + 1))))
        else some (level + 1)) ≠ none := hway
    split at he
    · next hpres =>
      have hperm : Permissive (s.mem table (indexAt va (level + 1))) := fun fl => by
        have := hway fl
        rw [if_pos hpres] at this
        by_contra hc
        exact this (if_pos (by simpa using hc))
      split at he
      · cases he
      · refine mapWalk_permissive hI ht (Walk.snoc hw (child_of_present hpres hperm.large))
          (fun e hm => (List.mem_append.mp hm).elim (hes e) fun h =>
            List.mem_singleton.mp h ▸ hperm)
          (fun fl => ?_) he es' hw'
        have := hway fl
        rwa [if_pos hpres, if_neg (by rw [hperm fl]; exact Bool.false_ne_true)] at this
    · next hdead =>
      have hdead : (s.mem table (indexAt va (level + 1))).has ptePresent =
        false := by simpa using hdead
      rcases allocFrame_cases ht.inv with ha | ⟨f, p, ha, hf0, hf, hm⟩
      · rw [ha] at he
        cases he
      · rw [ha] at he
        simp only [hf0, ↓reduceIte] at he
        obtain ⟨heff, hgr, hwf⟩ := ht.graft hw hI hdead hf hm rfl
        obtain ⟨ha', hlt⟩ := freeAt_lt ht.small hf
        have hentry := permissive_tableEntry ha' hlt
        have hat : ∀ x : Phys, x.mem table (indexAt va (level + 1)) = tableEntry f →
            tableAt (x.mem table (indexAt va (level + 1))) = f := fun x hx => by
          rw [hx]
          exact tableAt_tableEntry ha' hlt
        rw [hat _ hgr.entry] at he
        exact mapWalk_permissive hI heff.tree hwf
          (fun e hm => (List.mem_append.mp hm).elim (hes e) fun h =>
            List.mem_singleton.mp h ▸ hentry)
          (fun fl => by
            rw [tablesMissing_empty hgr.empty]
            exact Option.some_ne_none _) he es' hw'

theorem mapPage_permissive (ht : s.Tree r I P) (hI : indexAt va 3 ∈ I.idx)
    (hway : ∀ fl, s.tablesMissing fl va 3 r ≠ none) (he : s.mapPage r va phys flags = (true, s'))
    {es : List Word} (hm : Mapped r I s P s' va phys flags es) : ∀ e ∈ es, Permissive e := by
  unfold mapPage at he
  split at he
  · cases he
  obtain ⟨C, F, s₁, t?, hwalk, heff, hg, hres⟩ := @mapWalk_spec r I P va flags hI 3 r [] s []
    ht (.refl _ _) (by simp)
  rw [hwalk] at he
  cases t? with
  | none => cases he
  | some t =>
    obtain ⟨es₁, hw, -, -⟩ := hres t rfl
    have hperm := mapWalk_permissive hI ht (.refl _ _) nofun hway hwalk es₁ hw
    simp only at he
    split at he
    · cases he
    · next hdead =>
      cases he
      -- the lookup of the new page reads the entries of the walk
      obtain ⟨-, -, hview⟩ := heff.tree.setLeaf hw hI (phys ||| flags)
      have h1 := hview _ (inRange_indexAt va) hI
      have h2 := hm.view _ (inRange_indexAt va) hI
      rw [if_pos fun _ _ => rfl] at h1 h2
      rw [h2] at h1
      split at h1
      · have h3 := Option.some.inj h1
        rwa [(List.append_inj' h3 rfl).1]
      · cases h1

theorem Mapped.plain {es : List Word} (h : Mapped r lowerHalf s P s' va phys flags es)
    (hp : s.Plain r) (hes : ∀ e ∈ es, Permissive e) : s'.Plain r := by
  intro k hk hkI es' he
  rw [h.view k hk hkI] at he
  split at he
  · cases he
    exact ⟨es, _, rfl, h.length, hes⟩
  · exact hp k hk hkI es' he

/-- Lookups that are the same. -/
theorem Plain.of_view (hp : s.Plain r) (h : SameView r lowerHalf s s') : s'.Plain r :=
  fun k hk hkI es he => hp k hk hkI es ((h k hk hkI).symm.trans he)

/-- **A mapping in a plain tree succeeds** when the frames for the missing tables are there. -/
theorem Plain.mapPage_count (hp : s.Plain r) (ht : s.Tree r lowerHalf [])
    (hf : s.Full r lowerHalf (· = r)) (hr : r ≠ 0) (hI : indexAt va 3 ∈ lowerHalf.idx)
    (hargs : MapArgs va phys flags) (hnone : s.lookup r (indexAt va) = none) :
    ∃ n ≤ 3, (∀ l, 1 ≤ l → l ≤ 3 → (l ≤ n ↔ s.NoneBelow r va l)) ∧
      (((s.mapPage r va phys flags).1 = false ∧ ∃ k < n, ¬ s.Granted k) ∨
        (s.mapPage r va phys flags).1 = true ∧ (∀ k < n, s.Granted k) ∧
        (s.mapPage r va phys flags).2.asked = s.asked + n ∧
        (s.mapPage r va phys flags).2.pmm.freePages + n = s.pmm.freePages) := by
  obtain ⟨n, hn, hmiss, hiff⟩ := tablesMissing_spec hp ht hf hI (.refl 3 r)
  refine ⟨n, hn, hiff, ?_⟩
  rcases Phys.mapPage_count ht hr hI hargs with ⟨h1, h2⟩ | ⟨m, h1, h2, -, h4, h5, h6⟩
  · exact .inl ⟨h1, h2 n (hmiss flags) hnone⟩
  · rw [hmiss flags] at h2
    cases h2
    exact .inr ⟨h1, h4, h5, h6⟩

end GenOS.Phys
