import GenOS.Mm.Spaces
import Mathlib.Tactic.Ring

/-!
# Visiting the pages of an address space

`visit_table` meets the pages below a table in the order of their addresses (`entries`). As long as
the callback leaves the visited tables alone, the traversal is a loop over this list
(`visitTable_eq`), and an invariant of that loop is one of the traversal (`visitTable_rule`).
-/

namespace GenOS.Phys

open Radix

/-! ## A loop that stops -/

section Loop

variable {α σ : Type} (f : α → σ → Bool × σ)

/-- Call `f` on the elements, up to the first that it rejects; `none` ends the loop as well. -/
def visitAll : List (Option α) → σ → Bool × σ
  | [], x => (true, x)
  | none :: _, x => (false, x)
  | some a :: l, x => if (f a x).1 then visitAll l (f a x).2 else (false, (f a x).2)

/-- `A` holds wherever the loop is. -/
def Along (A : σ → Prop) : List (Option α) → σ → Prop
  | [], x => A x
  | none :: _, x => A x
  | some a :: l, x => A x ∧ ((f a x).1 = true → Along A l (f a x).2)

variable {f} {A : σ → Prop}

theorem visitAll_some (a : α) (l : List (Option α)) (x : σ) : visitAll f (some a :: l) x =
    if (f a x).1 then visitAll f l (f a x).2 else (false, (f a x).2) := rfl

theorem visitAll_append : ∀ (l l' : List (Option α)) (x : σ), visitAll f (l ++ l') x =
    if (visitAll f l x).1 then visitAll f l' (visitAll f l x).2 else (false, (visitAll f l x).2)
  | [], _, _ => rfl
  | none :: _, _, _ => rfl
  | some a :: l, l', x => by
    rw [List.cons_append, visitAll_some, visitAll_some]
    by_cases hf : (f a x).1 = true
    · rw [if_pos hf, if_pos hf]
      exact visitAll_append l l' _
    · rw [if_neg hf, if_neg hf]
      rfl

theorem visitAll_true {l : List (Option α)} {x : σ} (h : (visitAll f l x).1 = true) :
    visitAll f l x = (true, (visitAll f l x).2) := by rw [← h]

theorem visitAll_false {l : List (Option α)} {x : σ} (h : ¬ (visitAll f l x).1 = true) :
    visitAll f l x = (false, (visitAll f l x).2) := by rw [← Bool.eq_false_of_not_eq_true h]

theorem Along.here : ∀ {l : List (Option α)} {x : σ}, Along f A l x → A x
  | [], _, h => h
  | none :: _, _, h => h
  | some _ :: _, _, h => h.1

theorem Along.split : ∀ {l l' : List (Option α)} {x : σ}, Along f A (l ++ l') x →
    Along f A l x ∧ ((visitAll f l x).1 = true → Along f A l' (visitAll f l x).2)
  | [], _, _, h => ⟨h.here, fun _ => h⟩
  | none :: _, _, _, h => ⟨h, nofun⟩
  | some a :: l, l', x, h => by
    refine ⟨⟨h.1, fun hf => (h.2 hf).split.1⟩, fun hv => ?_⟩
    rw [visitAll_some] at hv ⊢
    by_cases hf : (f a x).1 = true
    · rw [if_pos hf] at hv ⊢
      exact (h.2 hf).split.2 hv
    · rw [if_neg hf] at hv
      cases hv

/-- A loop over `J` whose turns are loops over the pieces of a list. -/
theorem foldl_visitAll {e : Nat → List (Option α)} {g : Bool × σ → Nat → Bool × σ}
    (hstop : ∀ x i, g (false, x) i = (false, x)) :
    ∀ {J : List Nat} {x : σ}, Along f A (J.flatMap e) x →
      (∀ i ∈ J, ∀ y, Along f A (e i) y → g (true, y) i = visitAll f (e i) y) →
      J.foldl g (true, x) = visitAll f (J.flatMap e) x
  | [], _, _, _ => rfl
  | i :: J, x, h, hg => by
    rw [List.flatMap_cons] at h ⊢
    obtain ⟨h1, h2⟩ := h.split
    rw [List.foldl_cons, hg i List.mem_cons_self x h1, visitAll_append]
    by_cases hv : (visitAll f (e i) x).1 = true
    · rw [if_pos hv, visitAll_true hv]
      exact foldl_visitAll hstop (h2 hv) fun j hj => hg j (List.mem_cons_of_mem _ hj)
    · rw [if_neg hv, visitAll_false hv]
      exact List.foldl_fixed' (hstop _) J

/-- What a turn keeps, the loop keeps: `P` is about the elements accepted so far. -/
theorem visitAll_rule {P : List α → σ → Prop} {Q : σ → Prop} :
    ∀ {l : List (Option α)} {L : List α} {x : σ}, P L x → (∀ M y, P M y → Q y) →
      (∀ M a R y, l = M.map some ++ some a :: R → P (L ++ M) y →
        ((f a y).1 = true → P (L ++ M ++ [a]) (f a y).2) ∧ ((f a y).1 = false → Q (f a y).2)) →
      (∃ M, l = M.map some ∧ (visitAll f l x).1 = true ∧ P (L ++ M) (visitAll f l x).2) ∨
        ((visitAll f l x).1 = false ∧ Q (visitAll f l x).2)
  | [], L, x, h, _, _ => .inl ⟨[], rfl, rfl, by rwa [List.append_nil]⟩
  | none :: _, L, x, h, hQ, _ => .inr ⟨rfl, hQ L x h⟩
  | some a :: l, L, x, h, hQ, hf => by
    obtain ⟨h1, h2⟩ := hf [] a l x rfl (by rwa [List.append_nil])
    rw [List.append_nil] at h1
    rw [visitAll_some]
    by_cases hfa : (f a x).1 = true
    · rw [if_pos hfa]
      have ih := visitAll_rule (h1 hfa) hQ fun M b R y hl hy => by
        have := hf (a :: M) b R y (congrArg (some a :: ·) hl) (by rwa [List.append_assoc] at hy)
        rwa [List.append_assoc L [a] M]
      refine ih.imp_left fun ⟨M, hl, hv, hP⟩ => ⟨a :: M, by rw [hl]; rfl, hv, ?_⟩
      rwa [List.append_assoc] at hP
    · rw [if_neg hfa]
      exact .inr ⟨rfl, h2 (Bool.eq_false_of_not_eq_true hfa)⟩

/-- Where `P` implies `A`, so does the whole loop. -/
theorem along_rule {P : List α → σ → Prop} :
    ∀ {l : List (Option α)} {L : List α} {x : σ}, P L x → (∀ M y, P M y → A y) →
      (∀ M a R y, l = M.map some ++ some a :: R → P (L ++ M) y → (f a y).1 = true →
        P (L ++ M ++ [a]) (f a y).2) → Along f A l x
  | [], L, x, h, hA, _ => hA L x h
  | none :: _, L, x, h, hA, _ => hA L x h
  | some a :: l, L, x, h, hA, hf => by
    refine ⟨hA L x h, fun hfa => ?_⟩
    have h1 := hf [] a l x rfl (by rwa [List.append_nil]) hfa
    rw [List.append_nil] at h1
    refine along_rule h1 hA fun M b R y hl hy hb => ?_
    have := hf (a :: M) b R y (by rw [hl]; rfl) (by rwa [List.append_assoc] at hy) hb
    rwa [List.append_assoc L [a] M]

end Loop

/-! ## The entries of a tree -/

/-- What `visit_table` meets below `table`, through the words `I`: the pages with their words, and
`none` for a huge leaf. -/
def entries (m : Nat → Nat → Word) : (level : Nat) → List Nat → (table base : Nat) →
    List (Option (Nat × Word))
  | 0, I, table, base => I.flatMap fun i =>
      if (m table i).has ptePresent then [some (base ||| i * 2 ^ 12, m table i)] else []
  | level + 1, I, table, base => I.flatMap fun i =>
      if !(m table i).has ptePresent then []
      else if (m table i).has pteLarge then [none]
      else entries m level (List.range 512) (tableAt (m table i))
        (base ||| i * 2 ^ (12 + 9 * (level + 1)))

section Visit

variable {σ : Type} {mem : σ → Nat → Nat → Word} {visit : Nat → Word → σ → Bool × σ}
variable {m : Nat → Nat → Word}

/-- The callback, for a page with its word. -/
def visitPage (visit : Nat → Word → σ → Bool × σ) (a : Nat × Word) (x : σ) : Bool × σ :=
  visit a.1 a.2 x

/-- **The traversal is a loop over the entries**, as long as the tables keep their contents. -/
theorem visitTable_eq (T : List Nat) :
    ∀ {level limit table base : Nat} {x : σ}, limit ≤ 512 →
      (∀ g ∈ Radix.tables pageShape m level (List.range limit) table, g ∈ T) →
      Along (visitPage visit) (fun x => ∀ g ∈ T, mem x g = m g)
        (entries m level (List.range limit) table base) x →
      visitTable mem visit level limit table base x =
        visitAll (visitPage visit) (entries m level (List.range limit) table base) x
  | 0, limit, table, base, x, _, hT, h => by
    have ht := hT table (root_mem_tables ..)
    unfold visitTable entries at *
    refine foldl_visitAll (fun _ _ => rfl) h fun i _ y hy => ?_
    have hm : mem y table i = m table i := by rw [hy.here table ht]
    simp only [Bool.not_true, Bool.false_eq_true, ↓reduceIte, hm]
    cases hp : (m table i).has ptePresent with
    | false => rfl
    | true =>
      simp only [Bool.not_true, Bool.false_eq_true, ↓reduceIte]
      rw [visitAll_some]
      unfold visitPage
      split
      · next hv => exact Prod.ext hv rfl
      · next hv => exact Prod.ext (Bool.eq_false_of_not_eq_true hv) rfl
  | level + 1, limit, table, base, x, hlim, hT, h => by
    have ht := hT table (root_mem_tables ..)
    unfold visitTable entries at *
    refine foldl_visitAll (fun _ _ => rfl) h fun i hi y hy => ?_
    have hm : mem y table i = m table i := by rw [hy.here table ht]
    simp only [Bool.not_true, Bool.false_eq_true, ↓reduceIte, hm]
    cases hp : (m table i).has ptePresent with
    | false => rfl
    | true =>
      rw [hp] at hy
      cases hl : (m table i).has pteLarge with
      | true => rfl
      | false =>
        rw [hl] at hy
        simp only [Bool.not_true, Bool.false_eq_true, ↓reduceIte] at hy ⊢
        refine visitTable_eq T (Nat.le_refl _) (fun g hg => hT g ?_) hy
        refine Radix.mem_tables.mpr (.inr ⟨i, hi, ?_⟩)
        rw [sub_of_child pageShape (child_of_present hp hl)]
        exact hg

/-- **An invariant of the traversal**: `P` is about the pages visited so far, `Q` holds where the
traversal ends early. -/
theorem visitTable_rule {level limit table base : Nat} {x : σ} {P : List (Nat × Word) → σ → Prop}
    {Q : σ → Prop} (hlim : limit ≤ 512) (h : P [] x) (hQ : ∀ M y, P M y → Q y)
    (hmem : ∀ M y, P M y → ∀ g ∈ Radix.tables pageShape m level (List.range limit) table,
      mem y g = m g)
    (hvisit : ∀ M va w R y,
      entries m level (List.range limit) table base = M.map some ++ some (va, w) :: R → P M y →
      ((visit va w y).1 = true → P (M ++ [(va, w)]) (visit va w y).2) ∧
        ((visit va w y).1 = false → Q (visit va w y).2)) :
    (∃ M y, visitTable mem visit level limit table base x = (true, y) ∧
      entries m level (List.range limit) table base = M.map some ∧ P M y) ∨
      ∃ y, visitTable mem visit level limit table base x = (false, y) ∧ Q y := by
  have halong := @along_rule _ _ (visitPage visit) (fun x => ∀ g ∈ Radix.tables pageShape m level
    (List.range limit) table, mem x g = m g) P _ [] x h hmem
    fun M a R y hl hy ha => (hvisit M a.1 a.2 R y hl hy).1 ha
  rw [visitTable_eq _ hlim (fun _ hg => hg) halong]
  rcases @visitAll_rule _ _ (visitPage visit) P Q _ [] x h hQ
    (fun M a R y hl hy => hvisit M a.1 a.2 R y hl hy) with ⟨M, hl, hv, hP⟩ | ⟨hv, hq⟩
  · exact .inl ⟨M, _, Prod.ext hv rfl, hl, hP⟩
  · exact .inr ⟨_, Prod.ext hv rfl, hq⟩

end Visit

/-! ## Which pages the entries are -/

section Entries

variable {m : Nat → Nat → Word} {level table base va i : Nat} {I : List Nat} {w : Word}

theorem region_size (level : Nat) : 2 ^ (12 + 9 * (level + 1)) = 512 * 2 ^ (12 + 9 * level) := by
  rw [show 12 + 9 * (level + 1) = 9 + (12 + 9 * level) by omega, Nat.pow_add]

/-- A base of a region, with the index of a smaller region in it. -/
theorem or_index (hb : base % 2 ^ (12 + 9 * (level + 1)) = 0) (hi : i < 512) :
    base ||| i * 2 ^ (12 + 9 * level) = base + i * 2 ^ (12 + 9 * level) := by
  obtain ⟨q, rfl⟩ := Nat.dvd_of_mod_eq_zero hb
  refine (Nat.two_pow_add_eq_or_of_lt ?_ q).symm
  rw [region_size]
  exact Nat.mul_lt_mul_of_pos_right hi (Nat.two_pow_pos _)

/-- The addresses of a region are those of the smaller regions in it. -/
theorem region_split (hb : base % 2 ^ (12 + 9 * (level + 1)) = 0) (hi : i < 512) :
    (base ≤ va ∧ va < base + 2 ^ (12 + 9 * (level + 1))) ∧ indexAt va level = i ↔
      base + i * 2 ^ (12 + 9 * level) ≤ va ∧
        va < base + i * 2 ^ (12 + 9 * level) + 2 ^ (12 + 9 * level) := by
  unfold indexAt
  rw [region_size] at *
  have hB := Nat.two_pow_pos (12 + 9 * level)
  generalize 2 ^ (12 + 9 * level) = B at *
  obtain ⟨q, rfl⟩ := Nat.dvd_of_mod_eq_zero hb
  have h1 : 512 * B * q = 512 * q * B := by ring
  have h2 : 512 * q * B + 512 * B = (512 * q + 512) * B := by ring
  have h3 : 512 * q * B + i * B = (512 * q + i) * B := by ring
  have h4 : (512 * q + i) * B + B = (512 * q + i + 1) * B := by ring
  rw [h1, h2, h3, h4, ← Nat.le_div_iff_mul_le hB, ← Nat.div_lt_iff_lt_mul hB,
    ← Nat.le_div_iff_mul_le hB, ← Nat.div_lt_iff_lt_mul hB]
  omega

/-- **The entries are the pages** that a lookup finds. -/
theorem mem_entries : ∀ {level table base : Nat} {I : List Nat}, (∀ i ∈ I, i < 512) →
    base % 2 ^ (12 + 9 * (level + 1)) = 0 →
    (some (va, w) ∈ entries m level I table base ↔ va % 4096 = 0 ∧
      (base ≤ va ∧ va < base + 2 ^ (12 + 9 * (level + 1))) ∧ indexAt va level ∈ I ∧
      ∃ es, es.length = level ∧ path pageShape m level table (indexAt va) = some (es ++ [w]))
  | 0, table, base, I, hI, hb => by
    unfold entries
    rw [List.mem_flatMap]
    constructor
    · rintro ⟨i, hi, hm⟩
      split at hm
      · next hp =>
        obtain ⟨rfl, rfl⟩ : va = base ||| i * 2 ^ 12 ∧ w = m table i := by simpa using hm
        rw [@or_index 0 _ _ hb (hI i hi)]
        have hva := (@region_split 0 _ (base + i * 2 ^ 12) _ hb (hI i hi)).mpr
          ⟨Nat.le_refl _, Nat.lt_add_of_pos_right (by decide)⟩
        refine ⟨?_, hva.1, hva.2.symm ▸ hi, [], rfl, ?_⟩
        · have : base % 2 ^ 21 = 0 := hb
          omega
        · rw [path_zero, hva.2, if_pos (show pageShape.live (m table i) = true from hp)]
          rfl
      · cases hm
    · rintro ⟨hal, hr, hi, es, hes, hp⟩
      obtain rfl := List.length_eq_zero_iff.mp hes
      rw [path_zero] at hp
      split at hp
      · next hlive =>
        obtain rfl : m table (indexAt va 0) = w := by simpa using hp
        refine ⟨indexAt va 0, hi, ?_⟩
        rw [if_pos (show (m table (indexAt va 0)).has ptePresent = true from hlive),
          List.mem_singleton,
          @or_index 0 _ _ hb (hI _ hi)]
        have := (@region_split 0 _ _ _ hb (hI _ hi)).mp ⟨hr, rfl⟩
        have hb' : base % 2 ^ 21 = 0 := hb
        have h12 : 2 ^ (12 + 9 * 0) = 4096 := rfl
        rw [h12] at this ⊢
        have hva : va = base + indexAt va 0 * 4096 := by omega
        exact congrArg (fun x => some (x, m table (indexAt va 0))) hva
      · cases hp
  | level + 1, table, base, I, hI, hb => by
    have hrange : ∀ i ∈ List.range 512, i < 512 := fun i => List.mem_range.mp
    have hb' : ∀ i < 512,
        (base ||| i * 2 ^ (12 + 9 * (level + 1))) % 2 ^ (12 + 9 * (level + 1)) = 0 :=
      fun i hi => by
        rw [or_index hb hi, Nat.add_mul_mod_self_right]
        rw [region_size] at hb
        exact Nat.mod_eq_zero_of_dvd ((Nat.dvd_mul_left ..).trans (Nat.dvd_of_mod_eq_zero hb))
    unfold entries
    rw [List.mem_flatMap]
    constructor
    · rintro ⟨i, hi, hm⟩
      cases hp : (m table i).has ptePresent with
      | false =>
        rw [hp] at hm
        cases hm
      | true =>
        rw [hp] at hm
        cases hl : (m table i).has pteLarge with
        | true =>
          rw [hl] at hm
          simp at hm
        | false =>
          rw [hl] at hm
          obtain ⟨hal, hr, -, es, hes, hpath⟩ := (mem_entries hrange (hb' i (hI i hi))).mp hm
          rw [or_index hb (hI i hi)] at hr
          obtain ⟨hr', hidx⟩ := (region_split hb (hI i hi)).mpr hr
          refine ⟨hal, hr', hidx.symm ▸ hi, m table i :: es, by rw [List.length_cons, hes], ?_⟩
          rw [path_of_child (c := tableAt (m table i)) (by rw [hidx]; exact child_of_present hp hl),
            hpath,
            hidx]
          rfl
    · rintro ⟨hal, hr, hi, es, hes, hpath⟩
      refine ⟨indexAt va (level + 1), hi, ?_⟩
      cases hc : pageShape.child (m table (indexAt va (level + 1))) with
      | none =>
        rw [path_of_none hc] at hpath
        split at hpath
        · have := congrArg List.length (Option.some.inj hpath)
          rw [List.length_append, hes] at this
          simp at this
        · cases hpath
      | some c =>
        obtain ⟨hp, hl, rfl⟩ := child_eq_some hc
        rw [path_of_child hc] at hpath
        obtain ⟨es', hes', he⟩ := Option.map_eq_some_iff.mp hpath
        rw [hp, hl]
        refine (mem_entries hrange (hb' _ (hI _ hi))).mpr
          ⟨hal, ?_, List.mem_range.mpr (indexAt_lt ..), ?_⟩
        · rw [or_index hb (hI _ hi)]
          exact (region_split hb (hI _ hi)).mp ⟨hr, rfl⟩
        · cases es with
          | nil => cases hes
          | cons e es =>
            rw [List.cons_append, List.cons.injEq] at he
            exact ⟨es, Nat.succ.inj hes, he.2 ▸ hes'⟩

/-- The addresses of entries ascend. -/
def Ascends (x y : Option (Nat × Word)) : Prop := ∀ a b, x = some a → y = some b → a.1 < b.1

theorem entries_cons : entries m level (i :: I) table base =
    entries m level [i] table base ++ entries m level I table base := by
  cases level with
  | zero =>
    unfold entries
    rw [List.flatMap_cons, List.flatMap_singleton]
  | succ level =>
    unfold entries
    rw [List.flatMap_cons, List.flatMap_singleton]

/-- Entries through two words are in the order of the words. -/
theorem entries_apart {x y : Option (Nat × Word)} (hb : base % 2 ^ (12 + 9 * (level + 1)) = 0)
    (hi : i < 512) (hI : ∀ j ∈ I, j < 512) (hij : ∀ j ∈ I, i < j)
    (hx : x ∈ entries m level [i] table base)
    (hy : y ∈ entries m level I table base) : Ascends x y := fun a b ha hb' => by
  subst ha hb'
  obtain ⟨-, hr, hia, -⟩ := (mem_entries (fun j hj => by rwa [List.mem_singleton.mp hj]) hb).mp hx
  obtain ⟨-, hr', hib, -⟩ := (mem_entries hI hb).mp hy
  have h1 := (region_split hb hi).mp ⟨hr, List.mem_singleton.mp hia⟩
  have h2 := (region_split hb (hI _ hib)).mp ⟨hr', rfl⟩
  have hlt := Nat.mul_le_mul_right (2 ^ (12 + 9 * level)) (Nat.succ_le_of_lt (hij _ hib))
  rw [Nat.succ_mul] at hlt
  omega

theorem entries_ascend : ∀ {level table base : Nat} {I : List Nat}, (∀ i ∈ I, i < 512) →
    I.Pairwise (· < ·) → base % 2 ^ (12 + 9 * (level + 1)) = 0 →
    (entries m level I table base).Pairwise Ascends
  | 0, table, base, [], _, _, _ => .nil
  | level + 1, table, base, [], _, _, _ => .nil
  | level, table, base, i :: I, hI, hs, hb => by
    have hi := hI i List.mem_cons_self
    have hI' : ∀ j ∈ I, j < 512 := fun j hj => hI j (List.mem_cons_of_mem _ hj)
    obtain ⟨hlt, hs'⟩ := List.pairwise_cons.mp hs
    rw [entries_cons]
    refine List.pairwise_append.mpr ⟨?_, entries_ascend hI' hs' hb, fun x hx y hy =>
      entries_apart hb hi hI' hlt hx hy⟩
    cases level with
    | zero =>
      unfold entries
      rw [List.flatMap_singleton]
      split
      · exact List.pairwise_singleton ..
      · exact .nil
    | succ level =>
      unfold entries
      rw [List.flatMap_singleton]
      split
      · exact .nil
      split
      · exact List.pairwise_singleton ..
      · refine entries_ascend (fun i => List.mem_range.mp) List.pairwise_lt_range ?_
        rw [or_index hb hi, Nat.add_mul_mod_self_right]
        rw [region_size] at hb
        exact Nat.mod_eq_zero_of_dvd ((Nat.dvd_mul_left ..).trans (Nat.dvd_of_mod_eq_zero hb))
termination_by level _ _ I => (level, I.length)

end Entries

/-! ## The pages of the lower half -/

section Lower

variable {s : Phys} {r va : Nat} {w p flags : Word}

/-- What `visit_table` meets in an address space. -/
def pagesOf (s : Phys) (r : Nat) : List (Option (Nat × Word)) :=
    entries s.mem 3 (List.range 256) r 0

/-- **The pages it meets are those of the map.** -/
theorem mem_pagesOf : some (va, w) ∈ s.pagesOf r ↔ va % 4096 = 0 ∧ va < 0x800000000000 ∧
    ∃ es, es.length = 3 ∧ s.lookup r (indexAt va) = some (es ++ [w]) := by
  unfold pagesOf
  rw [mem_entries (fun i hi => Nat.lt_of_lt_of_le (List.mem_range.mp hi) (by decide)) rfl,
    List.mem_range]
  constructor
  · rintro ⟨h1, h2, h3, h4⟩
    refine ⟨h1, ?_, h4⟩
    unfold indexAt at h3
    have hpow : 2 ^ (12 + 9 * (3 + 1)) = 281474976710656 := rfl
    have hpow' : 2 ^ (12 + 9 * 3) = 549755813888 := rfl
    omega
  · rintro ⟨h1, h2, h4⟩
    refine ⟨h1, ?_, ?_, h4⟩
    · have hpow : 2 ^ (12 + 9 * (3 + 1)) = 281474976710656 := rfl
      omega
    · exact mem_lowerHalf.mp (index_lower h2)

theorem translate_of_pagesOf (h : some (va, w) ∈ s.pagesOf r) :
    s.translate r va = some (vmmPteAddress w, w &&& pteFlagMask) := by
  obtain ⟨-, hlt, es, hes, hp⟩ := mem_pagesOf.mp h
  unfold translate
  obtain ⟨a, b, c, rfl⟩ := List.length_eq_three.mp hes
  rw [canonical_lower hlt, hp]
  rfl

theorem pagesOf_of_translate (ha : va % 4096 = 0) (hva : va < 0x800000000000)
    (h : s.translate r va = some (p, flags)) :
    ∃ w, some (va, w) ∈ s.pagesOf r ∧ p = vmmPteAddress w ∧ flags = w &&& pteFlagMask := by
  unfold translate at h
  rw [canonical_lower hva, if_pos rfl] at h
  unfold leafOf at h
  split at h
  · next a b c leaf hl =>
    cases h
    exact ⟨leaf, mem_pagesOf.mpr ⟨ha, hva, [a, b, c], rfl, hl⟩, rfl, rfl⟩
  · cases h

/-- The pages are met in the order of their addresses. -/
theorem pagesOf_ascend : (s.pagesOf r).Pairwise Ascends :=
  entries_ascend
    (fun _ hi => Nat.lt_of_lt_of_le (List.mem_range.mp hi) (by decide)) List.pairwise_lt_range rfl

/-- No page is met twice. -/
theorem pagesOf_nodup {M R : List (Option (Nat × Word))}
    (h : s.pagesOf r = M ++ some (va, w) :: R) {w' : Word} :
    some (va, w') ∉ M := fun hm => by
  have hp := @pagesOf_ascend s r
  rw [h] at hp
  exact Nat.lt_irrefl va
    ((List.pairwise_append.mp hp).2.2 _ hm _ List.mem_cons_self (va, w') (va, w) rfl rfl)

end Lower

end GenOS.Phys
