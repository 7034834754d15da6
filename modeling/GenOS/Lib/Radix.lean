import Mathlib.Data.List.Basic
import Mathlib.Data.List.Nodup
import Mathlib.Data.List.Count
import Mathlib.Data.List.Flatten
import Mathlib.Data.List.Lattice
import Mathlib.Data.List.Pairwise
import Mathlib.Data.List.Perm.Basic
import GenOS.Lib.Cells

/-!
# Radix trees in memory

A memory `m : Nat → Nat → W` gives the words of each table. A `Shape` says which words are live
and which of those point to a table one level down; a live word without a child is a leaf, at
whatever level it stands. A key gives one index per level.

* `tables m L I t`: the tables of the tree rooted at table `t` of level `L`, through the words `I`
  of the root.
* `path m L t k`: the words a lookup of `k` reads, down to the leaf.
* `Walk m k L t j u es`: following `k` from `t` down to level `j` ends in table `u` and reads `es`.

The tree is well formed when `tables` has no duplicates. `path_put_other` and `tables_put_perm` say
what one store changes; `graft`, `prune` and `setLeaf` are the three stores page-table code makes.
`mem_tables_of_path` says that without empty tables the lookups determine the tables.
-/

namespace Radix

/-- Which words are live, and which of them point to a table. -/
structure Shape (W : Type*) where
  child : W → Option Nat
  live : W → Bool
  width : Nat
  live_of_child : ∀ {w : W} {c : Nat}, child w = some c → live w = true

variable {W : Type*} (S : Shape W)

/-- Store `w` as word `i` of table `t`. -/
def put (m : Nat → Nat → W) (t i : Nat) (w : W) : Nat → Nat → W :=
  Cells.set m t (Cells.set (m t) i w)

@[simp] theorem put_self (m : Nat → Nat → W) (t i : Nat) (w : W) : put m t i w t i = w := by
  simp [put]

theorem put_ne_table {m : Nat → Nat → W} {t u i : Nat} {w : W} (h : u ≠ t) :
    put m t i w u = m u := by
  simp [put, h]

theorem put_ne_word {m : Nat → Nat → W} {t u i j : Nat} {w : W} (h : j ≠ i) :
    put m t i w u j = m u j := by
  by_cases hu : u = t
  · subst hu
    simp [put, h]
  · rw [put_ne_table hu]

namespace Shape

/-- Two words a walk cannot tell apart: equal, or both dead. -/
def Same (a b : W) : Prop := a = b ∨ (S.live a = false ∧ S.live b = false)

/-- A key whose indices fit the tables. -/
def InRange (k : Nat → Nat) : Prop := ∀ l, k l < S.width

/-- A table with a live word. -/
def Occupied (m : Nat → Nat → W) (t : Nat) : Prop := ∃ i < S.width, S.live (m t i) = true

variable {S}

theorem child_of_dead {w : W} (h : S.live w = false) : S.child w = none := by
  cases hc : S.child w with
  | none => rfl
  | some c =>
    rw [S.live_of_child hc] at h
    cases h

theorem Same.child {a b : W} (h : S.Same a b) : S.child b = S.child a := by
  rcases h with rfl | ⟨ha, hb⟩
  · rfl
  · rw [child_of_dead ha, child_of_dead hb]

theorem Same.live {a b : W} (h : S.Same a b) : S.live b = S.live a := by
  rcases h with rfl | ⟨ha, hb⟩
  · rfl
  · rw [ha, hb]

theorem Same.symm {a b : W} (h : S.Same a b) : S.Same b a :=
  h.elim (fun h => .inl h.symm) fun h => .inr h.symm

theorem Same.trans {a b c : W} (h : S.Same a b) (h' : S.Same b c) : S.Same a c := by
  rcases h with rfl | ⟨ha, hb⟩
  · exact h'
  · exact .inr ⟨ha, h'.live.trans hb⟩

theorem Same.eq {a b : W} (h : S.Same a b) (hl : S.live a = true) : b = a := by
  rcases h with rfl | ⟨ha, -⟩
  · rfl
  · rw [ha] at hl
    cases hl

theorem dead_of_not_occupied {m : Nat → Nat → W} {t i : Nat} (h : ¬ S.Occupied m t)
    (hi : i < S.width) : S.live (m t i) = false := by
  by_contra hc
  exact h ⟨i, hi, by simpa using hc⟩

end Shape

open Shape

/-! ## Tables -/

/-- The tables of the tree at `t`, through the words `I` of `t`. -/
def tables (m : Nat → Nat → W) : Nat → List Nat → Nat → List Nat
  | 0, _, t => [t]
  | l + 1, I, t => t :: I.flatMap fun i =>
      (S.child (m t i)).elim [] fun c => tables m l (List.range S.width) c

/-- The tables below word `i` of a table `t` of level `l`. -/
def sub (m : Nat → Nat → W) : Nat → Nat → Nat → List Nat
  | 0, _, _ => []
  | l + 1, t, i => (S.child (m t i)).elim [] fun c => tables S m l (List.range S.width) c

theorem tables_eq (m : Nat → Nat → W) (L : Nat) (I : List Nat) (t : Nat) :
    tables S m L I t = t :: I.flatMap (sub S m L t) := by
  cases L with
  | zero =>
    have : I.flatMap (sub S m 0 t) = [] := List.flatMap_eq_nil_iff.mpr fun _ _ => rfl
    rw [this]
    rfl
  | succ l => rfl

theorem sub_of_child {m : Nat → Nat → W} {l t i c : Nat} (h : S.child (m t i) = some c) :
    sub S m (l + 1) t i = tables S m l (List.range S.width) c := by
  simp [sub, h]

theorem sub_of_none {m : Nat → Nat → W} {l t i : Nat} (h : S.child (m t i) = none) :
    sub S m l t i = [] := by
  cases l with
  | zero => rfl
  | succ l => simp [sub, h]

theorem root_mem_tables (m : Nat → Nat → W) (L : Nat) (I : List Nat) (t : Nat) :
    t ∈ tables S m L I t := by
  rw [tables_eq]
  exact List.mem_cons_self

variable {S}

theorem mem_tables {m : Nat → Nat → W} {L t g : Nat} {I : List Nat} :
    g ∈ tables S m L I t ↔ g = t ∨ ∃ i ∈ I, g ∈ sub S m L t i := by
  rw [tables_eq, List.mem_cons, List.mem_flatMap]

/-- An empty table has no tables below it. -/
theorem tables_of_dead {m : Nat → Nat → W} {L t : Nat} {I : List Nat}
    (h : ∀ i ∈ I, S.live (m t i) = false) : tables S m L I t = [t] := by
  rw [tables_eq, List.flatMap_eq_nil_iff.mpr fun i hi => sub_of_none S (child_of_dead (h i hi))]

variable (S) in
/-- No lookup through the words `I` of `t` can tell `m` from `m'`. -/
def Agree (m m' : Nat → Nat → W) (L : Nat) (I : List Nat) (t : Nat) : Prop :=
  (∀ i ∈ I, S.Same (m t i) (m' t i)) ∧
  ∀ i ∈ I, ∀ g ∈ sub S m L t i, ∀ j < S.width, S.Same (m g j) (m' g j)

theorem Agree.down {m m' : Nat → Nat → W} {l t i c : Nat} {I : List Nat}
    (h : Agree S m m' (l + 1) I t) (hi : i ∈ I) (hc : S.child (m t i) = some c) :
    Agree S m m' l (List.range S.width) c := by
  have h2 := h.2 i hi
  rw [sub_of_child S hc] at h2
  refine ⟨fun j hj => h2 c (root_mem_tables S m _ _ c) j (List.mem_range.mp hj),
    fun j hj g hg => h2 g (mem_tables.mpr (.inr ⟨j, hj, hg⟩))⟩

/-- Memories that agree on every word of every table agree. -/
theorem Agree.of_tables {m m' : Nat → Nat → W} {L t : Nat} {I : List Nat}
    (hI : ∀ i ∈ I, i < S.width)
    (h : ∀ g ∈ tables S m L I t, ∀ i < S.width, S.Same (m g i) (m' g i)) :
    Agree S m m' L I t :=
  ⟨fun i hi => h t (root_mem_tables S m _ _ t) i (hI i hi),
    fun i hi g hg => h g (mem_tables.mpr (.inr ⟨i, hi, hg⟩))⟩

theorem sub_congr {m m' : Nat → Nat → W} :
    ∀ {L t : Nat} {I : List Nat}, Agree S m m' L I t → ∀ i ∈ I, sub S m' L t i = sub S m L t i
  | 0, _, _, _, _, _ => rfl
  | l + 1, t, I, h, i, hi => by
    have hsame := h.1 i hi
    cases hc : S.child (m t i) with
    | none => rw [sub_of_none S hc, sub_of_none S (hsame.child.trans hc)]
    | some c =>
      rw [sub_of_child S hc, sub_of_child S (hsame.child.trans hc), tables_eq, tables_eq]
      congr 1
      exact List.flatMap_congr fun j hj => sub_congr (h.down hi hc) j hj

theorem tables_congr {m m' : Nat → Nat → W} {L t : Nat} {I : List Nat}
    (h : Agree S m m' L I t) : tables S m' L I t = tables S m L I t := by
  rw [tables_eq, tables_eq]
  congr 1
  exact List.flatMap_congr fun i hi => sub_congr h i hi

/-- What well-formedness says one level down. -/
theorem nodup_tables {m : Nat → Nat → W} {L t : Nat} {I : List Nat}
    (h : (tables S m L I t).Nodup) :
    (∀ i ∈ I, t ∉ sub S m L t i) ∧ (∀ i ∈ I, (sub S m L t i).Nodup) ∧
    ∀ i ∈ I, ∀ j ∈ I, i ≠ j → ∀ g ∈ sub S m L t i, g ∉ sub S m L t j := by
  rw [tables_eq, List.nodup_cons, List.nodup_flatMap] at h
  obtain ⟨h1, h2, h3⟩ := h
  refine ⟨fun i hi hm => h1 (List.mem_flatMap.mpr ⟨i, hi, hm⟩), h2,
    fun i hi j hj hne g hg hg' => ?_⟩
  have : Std.Symm (Function.onFun List.Disjoint (sub S m L t)) :=
    ⟨fun _ _ h => List.Disjoint.symm h⟩
  exact h3.forall hi hj hne hg hg'

theorem nodup_child {m : Nat → Nat → W} {l t i c : Nat} {I : List Nat}
    (h : (tables S m (l + 1) I t).Nodup) (hi : i ∈ I) (hc : S.child (m t i) = some c) :
    (tables S m l (List.range S.width) c).Nodup := by
  have := (nodup_tables h).2.1 i hi
  rwa [sub_of_child S hc] at this

/-! ## Lookups -/

/-- The words a lookup of `k` reads from table `t` of level `L`, ending in a leaf. -/
def path (S : Shape W) (m : Nat → Nat → W) : Nat → Nat → (Nat → Nat) → Option (List W)
  | 0, t, k => if S.live (m t (k 0)) then some [m t (k 0)] else none
  | l + 1, t, k =>
    match S.child (m t (k (l + 1))) with
    | some c => (path S m l c k).map (m t (k (l + 1)) :: ·)
    | none => if S.live (m t (k (l + 1))) then some [m t (k (l + 1))] else none

theorem path_zero (m : Nat → Nat → W) (t : Nat) (k : Nat → Nat) :
    path S m 0 t k = if S.live (m t (k 0)) then some [m t (k 0)] else none := rfl

theorem path_of_child {m : Nat → Nat → W} {l t c : Nat} {k : Nat → Nat}
    (h : S.child (m t (k (l + 1))) = some c) :
    path S m (l + 1) t k = (path S m l c k).map (m t (k (l + 1)) :: ·) := by
  simp [path, h]

theorem path_of_none {m : Nat → Nat → W} {l t : Nat} {k : Nat → Nat}
    (h : S.child (m t (k (l + 1))) = none) :
    path S m (l + 1) t k = if S.live (m t (k (l + 1))) then some [m t (k (l + 1))] else none := by
  simp [path, h]

/-- A dead word ends every lookup that reads it. -/
theorem path_of_dead {m : Nat → Nat → W} {L t : Nat} {k : Nat → Nat}
    (h : S.live (m t (k L)) = false) : path S m L t k = none := by
  cases L with
  | zero => simp [path, h]
  | succ l => simp [path_of_none (child_of_dead h), h]

/-- Where the first word is the same and dead below, so is the lookup. -/
theorem path_congr {m m' : Nat → Nat → W} :
    ∀ {L t : Nat} {I : List Nat} {k : Nat → Nat}, Agree S m m' L I t → S.InRange k → k L ∈ I →
      path S m' L t k = path S m L t k
  | 0, t, I, k, h, _, hI => by
    have hs := h.1 (k 0) hI
    simp only [path, hs.live]
    split
    · rename_i hl
      rw [hs.eq hl]
    · rfl
  | l + 1, t, I, k, h, hk, hI => by
    have hs := h.1 (k (l + 1)) hI
    cases hc : S.child (m t (k (l + 1))) with
    | none =>
      rw [path_of_none hc, path_of_none (hs.child.trans hc), hs.live]
      split
      · rename_i hl
        rw [hs.eq hl]
      · rfl
    | some c =>
      rw [path_of_child hc, path_of_child (hs.child.trans hc), hs.eq (S.live_of_child hc),
        path_congr (h.down hI hc) hk (List.mem_range.mpr (hk l))]

/-- A lookup reads the indices up to its level only. -/
theorem path_key {m : Nat → Nat → W} {k k' : Nat → Nat} :
    ∀ {L t : Nat}, (∀ l ≤ L, k' l = k l) → path S m L t k' = path S m L t k
  | 0, t, h => by simp only [path, h 0 (Nat.le_refl 0)]
  | l + 1, t, h => by
    simp only [path, h (l + 1) (Nat.le_refl _)]
    split
    · rw [path_key fun x hx => h x (by omega)]
    · rfl

/-- `k` leads from table `t` of level `L` to table `u` of level `j`, through the words `es`. -/
inductive Walk (S : Shape W) (m : Nat → Nat → W) (k : Nat → Nat) :
    Nat → Nat → Nat → Nat → List W → Prop where
  | refl (L t : Nat) : Walk S m k L t L t []
  | down {L t c j u : Nat} {es : List W} : S.child (m t (k (L + 1))) = some c →
      Walk S m k L c j u es → Walk S m k (L + 1) t j u (m t (k (L + 1)) :: es)

namespace Walk

variable {m : Nat → Nat → W} {k : Nat → Nat} {L t j u : Nat} {es : List W} {I : List Nat}

theorem le (h : Walk S m k L t j u es) : j ≤ L := by
  induction h with
  | refl => exact Nat.le_refl _
  | down _ _ ih => omega

theorem length (h : Walk S m k L t j u es) : es.length + j = L := by
  induction h with
  | refl => simp
  | down _ _ ih => simp only [List.length_cons]; omega

/-- One level further down. -/
theorem snoc {c : Nat} (h : Walk S m k L t (j + 1) u es)
    (hc : S.child (m u (k (j + 1))) = some c) :
    Walk S m k L t j c (es ++ [m u (k (j + 1))]) := by
  generalize hj : j + 1 = i at h
  induction h with
  | refl =>
    subst hj
    exact .down hc (.refl _ _)
  | down hd _ ih => exact .down hd (ih hc hj)

/-- A walk depends on the key above its last level only. -/
theorem agree {k' : Nat → Nat} (h : Walk S m k L t j u es) (hk : ∀ l, j < l → l ≤ L → k' l = k l) :
    Walk S m k' L t j u es := by
  induction h with
  | refl => exact .refl _ _
  | @down L t c j u es hc hw ih =>
    have hj := hw.le
    have hL := hk (L + 1) (by omega) (Nat.le_refl _)
    rw [← hL] at hc ⊢
    exact .down hc (ih fun l h1 h2 => hk l h1 (by omega))

theorem unique {u' : Nat} {es' : List W} (h : Walk S m k L t j u es)
    (h' : Walk S m k L t j u' es') : u' = u ∧ es' = es := by
  induction h generalizing es' with
  | refl =>
    cases h' with
    | refl => exact ⟨rfl, rfl⟩
    | down _ hw => have := hw.le; omega
  | down hc hw ih =>
    cases h' with
    | refl => have := hw.le; omega
    | down hc' hw' =>
      rw [hc] at hc'
      cases hc'
      obtain ⟨rfl, rfl⟩ := ih hw'
      exact ⟨rfl, rfl⟩

/-- A walk passes every level in between. -/
theorem split {l : Nat} (h : Walk S m k L t j u es) (hj : j ≤ l) (hl : l ≤ L) :
    ∃ c es₁ es₂, Walk S m k L t l c es₁ ∧ Walk S m k l c j u es₂ ∧ es = es₁ ++ es₂ := by
  induction h with
  | refl L t =>
    obtain rfl : l = L := by omega
    exact ⟨t, [], [], .refl _ _, .refl _ _, rfl⟩
  | @down L t c j u es hc hw ih =>
    rcases Nat.lt_or_eq_of_le hl with hlt | rfl
    · obtain ⟨d, es₁, es₂, h1, h2, rfl⟩ := ih hj (by omega)
      exact ⟨d, m t (k (L + 1)) :: es₁, es₂, .down hc h1, h2, rfl⟩
    · exact ⟨t, [], _, .refl _ _, .down hc hw, rfl⟩

/-- A walk does not go on through a table without live words. -/
theorem not_occupied_end (h : Walk S m k L t j u es) (hk : S.InRange k)
    (hz : ¬ S.Occupied m t) : j = L ∧ u = t := by
  cases h with
  | refl => exact ⟨rfl, rfl⟩
  | down hc _ => exact absurd ⟨_, hk _, S.live_of_child hc⟩ hz

theorem path_eq (h : Walk S m k L t j u es) :
    path S m L t k = (path S m j u k).map (es ++ ·) := by
  induction h with
  | refl => simp
  | down hc _ ih =>
    rw [path_of_child hc, ih, Option.map_map]
    rfl

/-- The tables below the end of a walk are below the word it starts with. -/
theorem tables_subset (h : Walk S m k L t j u es) (hk : S.InRange k) (hj : j < L) :
    ∀ g ∈ tables S m j (List.range S.width) u, g ∈ sub S m L t (k L) := by
  induction h with
  | refl => omega
  | @down L t c j u es hc hw ih =>
    intro g hg
    rw [sub_of_child S hc]
    rcases Nat.lt_or_eq_of_le hw.le with hlt | rfl
    · exact Radix.mem_tables.mpr (.inr ⟨k L, List.mem_range.mpr (hk L), ih hlt g hg⟩)
    · cases hw with
      | refl => exact hg
      | down _ hw' => have := hw'.le; omega

theorem mem_sub (h : Walk S m k L t j u es) (hk : S.InRange k) (hj : j < L) :
    u ∈ sub S m L t (k L) :=
  h.tables_subset hk hj u (root_mem_tables S m _ _ u)

theorem mem_tables (h : Walk S m k L t j u es) (hk : S.InRange k) (hI : k L ∈ I) :
    u ∈ tables S m L I t := by
  rcases Nat.lt_or_eq_of_le h.le with hj | rfl
  · exact Radix.mem_tables.mpr (.inr ⟨_, hI, h.mem_sub hk hj⟩)
  · cases h with
    | refl => exact root_mem_tables S m _ _ _
    | down _ hw => have := hw.le; omega

/-- Below the root, a well-formed tree has no second way to the root. -/
theorem ne_root (h : Walk S m k L t j u es) (hk : S.InRange k) (hI : k L ∈ I)
    (hd : (tables S m L I t).Nodup) (hj : j < L) : u ≠ t := by
  rintro rfl
  exact (nodup_tables hd).1 _ hI (h.mem_sub hk hj)

/-- A walk only reads the tables above its end. -/
theorem congr {m' : Nat → Nat → W} (h : Walk S m k L t j u es) (ha : Agree S m m' L I t)
    (hk : S.InRange k) (hI : k L ∈ I) : Walk S m' k L t j u es := by
  induction h generalizing I with
  | refl => exact .refl _ _
  | @down L t c j u es hc hw ih =>
    have hs := ha.1 _ hI
    rw [← hs.eq (S.live_of_child hc)]
    exact .down (hs.child.trans hc) (ih (ha.down hI hc) (List.mem_range.mpr (hk L)))

/-- The last word of a walk names its end. -/
theorem end_eq {m' : Nat → Nat → W} {k' : Nat → Nat} {t' u' : Nat} (h : Walk S m k L t j u es)
    (h' : Walk S m' k' L t' j u' es) (hne : es ≠ []) : u' = u := by
  induction h generalizing t' with
  | refl => exact absurd rfl hne
  | @down L t c j u es hc hw ih =>
    generalize he : m t (k (L + 1)) = e at h' hc
    cases h' with
    | @down _ _ c' _ _ _ hc' hw' =>
      rw [hc] at hc'
      cases hc'
      by_cases hes : es = []
      · subst hes
        cases hw
        cases hw'
        rfl
      · exact ih hw' hes

end Walk

/-- A lookup that reads `es` and more walks along `es`. -/
theorem walk_of_path {m : Nat → Nat → W} {k : Nat → Nat} {rest : List W} (hr : rest ≠ []) :
    ∀ {L t : Nat} {es : List W}, path S m L t k = some (es ++ rest) →
      ∃ j u, Walk S m k L t j u es
  | L, t, [], _ => ⟨L, t, .refl _ _⟩
  | 0, t, e :: es, h => by
    simp only [path] at h
    split at h
    · simp only [List.cons_append, Option.some.injEq, List.cons.injEq, List.nil_eq,
        List.append_eq_nil_iff] at h
      exact absurd h.2.2 hr
    · cases h
  | l + 1, t, e :: es, h => by
    cases hc : S.child (m t (k (l + 1))) with
    | none =>
      rw [path_of_none hc] at h
      split at h
      · simp only [List.cons_append, Option.some.injEq, List.cons.injEq, List.nil_eq,
          List.append_eq_nil_iff] at h
        exact absurd h.2.2 hr
      · cases h
    | some c =>
      rw [path_of_child hc, Option.map_eq_some_iff] at h
      obtain ⟨p, hp, he⟩ := h
      simp only [List.cons_append, List.cons.injEq] at he
      obtain ⟨rfl, rfl⟩ := he
      obtain ⟨j, u, hw⟩ := walk_of_path hr hp
      exact ⟨j, u, .down hc hw⟩

/-- Every table is the end of a walk. -/
theorem exists_walk {m : Nat → Nat → W} (hw : 0 < S.width) :
    ∀ {L t g : Nat} {I : List Nat}, (∀ i ∈ I, i < S.width) → g ∈ tables S m L I t →
      ∃ k j es, S.InRange k ∧ (j < L → k L ∈ I) ∧ Walk S m k L t j g es
  | 0, t, g, I, _, hg => by
    obtain rfl := List.mem_singleton.mp hg
    exact ⟨fun _ => 0, 0, [], fun _ => hw, fun h => absurd h (Nat.lt_irrefl 0), .refl _ _⟩
  | l + 1, t, g, I, hI, hg => by
    rcases mem_tables.mp hg with rfl | ⟨i, hi, hg⟩
    · exact ⟨fun _ => 0, l + 1, [], fun _ => hw, fun h => absurd h (Nat.lt_irrefl _), .refl _ _⟩
    · cases hc : S.child (m t i) with
      | none => rw [sub_of_none S hc] at hg; cases hg
      | some c =>
        rw [sub_of_child S hc] at hg
        obtain ⟨k, j, es, hk, -, hwalk⟩ := exists_walk hw (fun _ => List.mem_range.mp) hg
        refine ⟨Cells.set k (l + 1) i, j, m t i :: es, fun x => ?_, fun _ => ?_, ?_⟩
        · rw [Cells.set_apply]
          split
          · exact hI i hi
          · exact hk x
        · rw [Cells.set_self]
          exact hi
        · have := @Walk.down _ S m (Cells.set k (l + 1) i) l t c j g es
            (by rw [Cells.set_self]; exact hc)
            (hwalk.agree fun x _ hx => Cells.set_of_ne (by omega) _ _)
          rwa [Cells.set_self] at this

/-! ## One store -/

section Put

variable {m : Nat → Nat → W} {k : Nat → Nat} {L t j u : Nat} {es : List W} {I : List Nat}

/-- A store outside the tables below a word is not seen from there. -/
theorem agree_put {i c : Nat} {x : W} (hu : ∀ g ∈ tables S m L (List.range S.width) c, g ≠ u) :
    Agree S m (put m u i x) L (List.range S.width) c :=
  .of_tables (fun _ => List.mem_range.mp) fun g hg j _ => by
    rw [put_ne_table (hu g hg)]
    exact .inl rfl

/-- A store of a well-formed tree leaves the pieces of its table alone that it is not in. -/
theorem sub_put_root {x : W} (hd : (tables S m L I t).Nodup) {i' : Nat} (hi' : i' ∈ I)
    (hne : i' ≠ k L) : sub S (put m t (k L) x) L t i' = sub S m L t i' := by
  cases L with
  | zero => rfl
  | succ l =>
    cases hc : S.child (m t i') with
    | none => rw [sub_of_none S hc, sub_of_none S (by rw [put_ne_word hne]; exact hc)]
    | some c =>
      rw [sub_of_child S hc, sub_of_child S (by rw [put_ne_word hne]; exact hc)]
      refine tables_congr (agree_put fun g hg he => (nodup_tables hd).1 i' hi' ?_)
      rw [sub_of_child S hc]
      exact he ▸ hg

theorem sub_put_other {x : W} {i i' : Nat} (hd : (tables S m L I t).Nodup) (hi : i ∈ I)
    (hi' : i' ∈ I) (hne : i' ≠ i) (hu : u ∈ sub S m L t i) :
    sub S (put m u j x) L t i' = sub S m L t i' := by
  have hut : t ≠ u := fun he => (nodup_tables hd).1 i hi (he ▸ hu)
  cases L with
  | zero => rfl
  | succ l =>
    cases hc : S.child (m t i') with
    | none => rw [sub_of_none S hc, sub_of_none S (by rw [put_ne_table hut]; exact hc)]
    | some c =>
      rw [sub_of_child S hc, sub_of_child S (by rw [put_ne_table hut]; exact hc)]
      refine tables_congr (agree_put fun g hg he => ?_)
      refine (nodup_tables hd).2.2 i' hi' i hi hne g ?_ (he ▸ hu)
      rw [sub_of_child S hc]
      exact hg

/-- A store off the tables below a word is not seen by the walks through it. -/
theorem Walk.put_of_not_mem {k' : Nat → Nat} {i l c : Nat} {es' : List W} {x : W}
    (h : Walk S m k' L t l c es') (hk' : S.InRange k') (hu : u ∉ sub S m L t (k' L))
    (hw : Radix.put m u i x t (k' L) = m t (k' L)) : Walk S (Radix.put m u i x) k' L t l c es' := by
  refine @Walk.congr _ S m k' L t l c es' [k' L] _ h ⟨fun j hj => ?_, fun j hj g hg i' _ => ?_⟩ hk'
    (List.mem_singleton_self _)
  · rw [List.mem_singleton.mp hj, hw]
    exact .inl rfl
  · rw [List.mem_singleton.mp hj] at hg
    rw [put_ne_table fun he : g = u => hu (he ▸ hg)]
    exact .inl rfl

/-- A walk survives a store at the end of another walk, unless it goes on through the word. -/
theorem Walk.put_survives {k' : Nat → Nat} {l c : Nat} {es' : List W} (h : Walk S m k L t j u es)
    (h' : Walk S m k' L t l c es') (x : W) (hk : S.InRange k) (hI : k L ∈ I)
    (hd : (tables S m L I t).Nodup) (hk' : S.InRange k') (hI' : k' L ∈ I)
    (hne : j ≤ l ∨ ∃ y, j ≤ y ∧ y ≤ L ∧ k' y ≠ k y) :
    Walk S (Radix.put m u (k j) x) k' L t l c es' := by
  induction h generalizing I es' with
  | refl L t =>
    rcases Nat.lt_or_eq_of_le h'.le with hlt | rfl
    · obtain ⟨y, h1, h2, hy⟩ := hne.resolve_left (by omega)
      obtain rfl : y = L := by omega
      exact h'.put_of_not_mem hk' ((nodup_tables hd).1 _ hI') (put_ne_word hy)
    · cases h' with
      | refl => exact .refl _ _
      | down _ hw => have := hw.le; omega
  | @down L t c₁ j u es hc hw ih =>
    have hlt : j < L + 1 := by have := hw.le; omega
    have hut := (Walk.down hc hw).ne_root hk hI hd hlt
    have hp : Radix.put m u (k j) x t = m t := put_ne_table (Ne.symm hut)
    by_cases hL : k' (L + 1) = k (L + 1)
    · cases h' with
      | refl => exact .refl _ _
      | @down _ _ c₂ _ _ es' hc' hw' =>
        obtain rfl : c₂ = c₁ := by
          rw [hL, hc] at hc'
          exact (Option.some.inj hc').symm
        rw [← hp] at hc' ⊢
        refine .down hc' (ih hw' (List.mem_range.mpr (hk L)) (nodup_child hd hI hc)
          (List.mem_range.mpr (hk' L)) (hne.imp_right fun ⟨y, h1, h2, hy⟩ => ⟨y, h1, ?_, hy⟩))
        have : y ≠ L + 1 := fun he => hy (he ▸ hL)
        omega
    · refine h'.put_of_not_mem hk' (fun hu => ?_) (by rw [hp])
      exact (nodup_tables hd).2.2 _ hI' _ hI hL u hu ((Walk.down hc hw).mem_sub hk hlt)

/-- A store at the end of a walk does not disturb the walk. -/
theorem Walk.put (h : Walk S m k L t j u es) (x : W) (hk : S.InRange k) (hI : k L ∈ I)
    (hd : (tables S m L I t).Nodup) : Walk S (put m u (k j) x) k L t j u es :=
  h.put_survives h x hk hI hd hk hI (.inl (Nat.le_refl j))

/-- A store off the tables of a lookup, or at another word of its root, is not seen by it. -/
theorem path_put_of_not_mem {k' : Nat → Nat} {i : Nat} {x : W} (hk' : S.InRange k')
    (hu : u ∉ sub S m L t (k' L)) (hw : put m u i x t (k' L) = m t (k' L)) :
    path S (put m u i x) L t k' = path S m L t k' := by
  refine @path_congr _ S m (Radix.put m u i x) L t [k' L] k'
    ⟨fun j hj => ?_, fun j hj g hg i' _ => ?_⟩ hk' (List.mem_singleton_self _)
  · rw [List.mem_singleton.mp hj, hw]
    exact .inl rfl
  · rw [List.mem_singleton.mp hj] at hg
    rw [put_ne_table fun he : g = u => hu (he ▸ hg)]
    exact .inl rfl

/-- Lookups that leave the walk at or above the store are not changed by it. -/
theorem path_put_other (h : Walk S m k L t j u es) (x : W) (hk : S.InRange k) (hI : k L ∈ I)
    (hd : (tables S m L I t).Nodup) {k' : Nat → Nat} (hk' : S.InRange k') (hI' : k' L ∈ I)
    (hne : ∃ l, j ≤ l ∧ l ≤ L ∧ k' l ≠ k l) :
    path S (put m u (k j) x) L t k' = path S m L t k' := by
  induction h generalizing I with
  | refl L t =>
    obtain ⟨l, h1, h2, hne⟩ := hne
    obtain rfl : l = L := by omega
    exact path_put_of_not_mem hk' ((nodup_tables hd).1 _ hI') (put_ne_word hne)
  | @down L t c j u es hc hw ih =>
    have hlt : j < L + 1 := by have := hw.le; omega
    have hut := (Walk.down hc hw).ne_root hk hI hd hlt
    have hp : Radix.put m u (k j) x t = m t := put_ne_table (Ne.symm hut)
    by_cases hL : k' (L + 1) = k (L + 1)
    · have hc' : S.child (m t (k' (L + 1))) = some c := by rw [hL]; exact hc
      obtain ⟨l, h1, h2, hne⟩ := hne
      have : l ≠ L + 1 := fun he => hne (he ▸ hL)
      rw [path_of_child hc', path_of_child (by rw [hp]; exact hc'), hp,
        ih (List.mem_range.mpr (hk L)) (nodup_child hd hI hc) (List.mem_range.mpr (hk' L))
          ⟨l, h1, by omega, hne⟩]
    · refine path_put_of_not_mem hk' (fun hu => ?_) (by rw [hp])
      exact (nodup_tables hd).2.2 _ hI' _ hI hL u hu ((Walk.down hc hw).mem_sub hk hlt)

/-- What a store does to the concatenation of two lists of tables. -/
theorem perm_flatMap_update {f f' : Nat → List Nat} {i : Nat} {A B : List Nat} (hd : I.Nodup)
    (hi : i ∈ I) (hf : ∀ j ∈ I, j ≠ i → f' j = f j) (h : (f' i ++ A).Perm (f i ++ B)) :
    (I.flatMap f' ++ A).Perm (I.flatMap f ++ B) := by
  induction I with
  | nil => cases hi
  | cons a I ih =>
    rw [List.nodup_cons] at hd
    simp only [List.flatMap_cons, List.append_assoc]
    rcases List.mem_cons.mp hi with rfl | hi
    · have he : I.flatMap f' = I.flatMap f := List.flatMap_congr fun j hj =>
        hf j (List.mem_cons_of_mem _ hj) fun hji => hd.1 (hji ▸ hj)
      rw [he]
      refine (List.perm_append_comm.append_left _).trans (.trans ?_
        (List.perm_append_comm.append_left _))
      simpa only [List.append_assoc] using h.append_right (I.flatMap f)
    · rw [hf a List.mem_cons_self fun he => hd.1 (he ▸ hi)]
      exact (ih hd.2 hi fun j hj => hf j (List.mem_cons_of_mem _ hj)).append_left _

/-- **One store and the set of tables**: the tables below the word leave, those below its new
value come. -/
theorem tables_put_perm (h : Walk S m k L t j u es) (x : W) (hk : S.InRange k) (hI : k L ∈ I)
    (hn : I.Nodup) (hd : (tables S m L I t).Nodup) :
    (tables S (put m u (k j) x) L I t ++ sub S m j u (k j)).Perm
      (tables S m L I t ++ sub S (put m u (k j) x) j u (k j)) := by
  induction h generalizing I with
  | refl L t =>
    rw [tables_eq, tables_eq S m]
    exact (perm_flatMap_update hn hI (fun j hj hne => sub_put_root hd hj hne)
      List.perm_append_comm).cons _
  | @down L t c j u es hc hw ih =>
    have hlt : j < L + 1 := by have := hw.le; omega
    have hsub := (Walk.down hc hw).mem_sub hk hlt
    have hut := (Walk.down hc hw).ne_root hk hI hd hlt
    rw [tables_eq, tables_eq S m]
    refine (perm_flatMap_update hn hI (fun i hi hne => sub_put_other hd hI hi hne hsub) ?_).cons _
    rw [sub_of_child S hc, sub_of_child S (by rw [put_ne_table (Ne.symm hut)]; exact hc)]
    exact ih (List.mem_range.mpr (hk L)) List.nodup_range (nodup_child hd hI hc)

/-- The lookup of `k` after a store at the end of its walk. -/
theorem path_put_self (h : Walk S m k L t j u es) (x : W) (hk : S.InRange k) (hI : k L ∈ I)
    (hd : (tables S m L I t).Nodup) {k' : Nat → Nat} (he : ∀ l, j ≤ l → l ≤ L → k' l = k l) :
    path S m L t k' = (path S m j u k').map (es ++ ·) ∧
    path S (put m u (k j) x) L t k' = (path S (put m u (k j) x) j u k').map (es ++ ·) :=
  have he' := fun l h1 h2 => he l (Nat.le_of_lt h1) h2
  ⟨(h.agree he').path_eq, ((h.put x hk hI hd).agree he').path_eq⟩

/-- Replacing a dead word by a pointer to an empty table changes no lookup. -/
theorem path_graft (h : Walk S m k L t (j + 1) u es) {x : W} {f : Nat} (hk : S.InRange k)
    (hI : k L ∈ I) (hd : (tables S m L I t).Nodup) (hdead : S.live (m u (k (j + 1))) = false)
    (hx : S.child x = some f) (hf : f ≠ u) (hz : ¬ S.Occupied m f) {k' : Nat → Nat}
    (hk' : S.InRange k') (hI' : k' L ∈ I) :
    path S (put m u (k (j + 1)) x) L t k' = path S m L t k' := by
  by_cases he : ∀ l, j + 1 ≤ l → l ≤ L → k' l = k l
  · obtain ⟨h1, h2⟩ := path_put_self h x hk hI hd he
    have hj := he (j + 1) (Nat.le_refl _) h.le
    have hc : S.child (put m u (k (j + 1)) x u (k' (j + 1))) = some f := by
      rw [hj, put_self]
      exact hx
    have hz' : S.live (put m u (k (j + 1)) x f (k' j)) = false := by
      rw [put_ne_table hf]
      exact dead_of_not_occupied hz (hk' j)
    rw [← hj] at hdead
    rw [h1, h2, path_of_child hc, path_of_dead hz', path_of_dead hdead]
    rfl
  · push Not at he
    obtain ⟨l, h1, h2, hne⟩ := he
    exact path_put_other h x hk hI hd hk' hI' ⟨l, h1, h2, hne⟩

theorem tables_graft (h : Walk S m k L t (j + 1) u es) {x : W} {f : Nat} (hk : S.InRange k)
    (hI : k L ∈ I) (hn : I.Nodup) (hd : (tables S m L I t).Nodup)
    (hdead : S.live (m u (k (j + 1))) = false) (hx : S.child x = some f) (hf : f ≠ u)
    (hz : ¬ S.Occupied m f) :
    (tables S (put m u (k (j + 1)) x) L I t).Perm (f :: tables S m L I t) := by
  have hp := tables_put_perm h x hk hI hn hd
  have hnew : S.child (put m u (k (j + 1)) x u (k (j + 1))) = some f := by
    rw [put_self]
    exact hx
  rw [sub_of_none S (child_of_dead hdead), List.append_nil, sub_of_child S hnew,
    tables_of_dead (t := f) fun i hi => by
      rw [put_ne_table hf]
      exact dead_of_not_occupied hz (List.mem_range.mp hi)] at hp
  exact hp.trans List.perm_append_comm

/-- Dropping the pointer to an empty table changes no lookup. -/
theorem path_prune (h : Walk S m k L t (j + 1) u es) {x : W} {c : Nat} (hk : S.InRange k)
    (hI : k L ∈ I) (hd : (tables S m L I t).Nodup) (hc : S.child (m u (k (j + 1))) = some c)
    (hz : ¬ S.Occupied m c) (hx : S.live x = false) {k' : Nat → Nat}
    (hk' : S.InRange k') (hI' : k' L ∈ I) :
    path S (put m u (k (j + 1)) x) L t k' = path S m L t k' := by
  by_cases he : ∀ l, j + 1 ≤ l → l ≤ L → k' l = k l
  · obtain ⟨h1, h2⟩ := path_put_self h x hk hI hd he
    have hj := he (j + 1) (Nat.le_refl _) h.le
    have hx' : S.live (put m u (k (j + 1)) x u (k' (j + 1))) = false := by
      rw [hj, put_self]
      exact hx
    rw [← hj] at hc
    rw [h1, h2, path_of_dead hx', path_of_child hc, path_of_dead (dead_of_not_occupied hz (hk' j))]
    rfl
  · push Not at he
    obtain ⟨l, h1, h2, hne⟩ := he
    exact path_put_other h x hk hI hd hk' hI' ⟨l, h1, h2, hne⟩

theorem tables_prune (h : Walk S m k L t (j + 1) u es) {x : W} {c : Nat} (hk : S.InRange k)
    (hI : k L ∈ I) (hn : I.Nodup) (hd : (tables S m L I t).Nodup)
    (hc : S.child (m u (k (j + 1))) = some c) (hz : ¬ S.Occupied m c) (hx : S.live x = false) :
    (c :: tables S (put m u (k (j + 1)) x) L I t).Perm (tables S m L I t) := by
  have hp := tables_put_perm h x hk hI hn hd
  have hnew : sub S (put m u (k (j + 1)) x) (j + 1) u (k (j + 1)) = [] :=
    sub_of_none S (child_of_dead (by rw [put_self]; exact hx))
  rw [hnew, List.append_nil, sub_of_child S hc,
    tables_of_dead fun i hi => dead_of_not_occupied hz (List.mem_range.mp hi)] at hp
  exact (@List.perm_append_comm _ [c] _).trans hp

/-- A store into a table of the last level changes the lookups of its own key only. -/
theorem path_setLeaf (h : Walk S m k L t 0 u es) (x : W) (hk : S.InRange k) (hI : k L ∈ I)
    (hd : (tables S m L I t).Nodup) {k' : Nat → Nat} (hk' : S.InRange k') (hI' : k' L ∈ I) :
    path S (put m u (k 0) x) L t k' =
      if ∀ l ≤ L, k' l = k l then if S.live x then some (es ++ [x]) else none
      else path S m L t k' := by
  split
  · rename_i he
    rw [(path_put_self h x hk hI hd fun l _ h2 => he l h2).2, path_zero, he 0 (Nat.zero_le _),
      put_self]
    split
    · rfl
    · rfl
  · rename_i he
    push Not at he
    obtain ⟨l, h2, hne⟩ := he
    exact path_put_other h x hk hI hd hk' hI' ⟨l, Nat.zero_le _, h2, hne⟩

theorem tables_setLeaf (h : Walk S m k L t 0 u es) (x : W) (hk : S.InRange k) (hI : k L ∈ I)
    (hn : I.Nodup) (hd : (tables S m L I t).Nodup) :
    (tables S (put m u (k 0) x) L I t).Perm (tables S m L I t) := by
  simpa [sub] using tables_put_perm h x hk hI hn hd

end Put

/-! ## Trees without empty tables -/

/-- In an occupied tree every lookup prefix that reaches a table extends to a lookup. -/
theorem exists_path {m : Nat → Nat → W} :
    ∀ {L t : Nat}, (∀ g ∈ tables S m L (List.range S.width) t, S.Occupied m g) →
      ∃ k, S.InRange k ∧ ∃ p, path S m L t k = some p ∧ p ≠ []
  | 0, t, h => by
    obtain ⟨i, hi, hl⟩ := h t (root_mem_tables S m _ _ t)
    exact ⟨fun _ => i, fun _ => hi, [m t i], by simp [path, hl], by simp⟩
  | l + 1, t, h => by
    obtain ⟨i, hi, hl⟩ := h t (root_mem_tables S m _ _ t)
    cases hc : S.child (m t i) with
    | none =>
      refine ⟨fun _ => i, fun _ => hi, [m t i], ?_, by simp⟩
      rw [path_of_none hc]
      simp [hl]
    | some c =>
      obtain ⟨k, hk, p, hp, -⟩ := exists_path (L := l) (t := c) fun g hg => h g (mem_tables.mpr
        (.inr ⟨i, List.mem_range.mpr hi, by rwa [sub_of_child S hc]⟩))
      refine ⟨Cells.set k (l + 1) i, fun x => ?_, m t i :: p, ?_, by simp⟩
      · rw [Cells.set_apply]
        split
        · exact hi
        · exact hk x
      · rw [path_of_child (c := c) (by rw [Cells.set_self]; exact hc), Cells.set_self,
          path_key (k := k) fun x hx => Cells.set_of_ne (by omega) _ _, hp]
        rfl

/-- **The lookups determine the tables**: a table that is not empty, and has no empty table below
it, is a table of every memory in which the lookups that find something are the same. -/
theorem mem_tables_of_path {m m' : Nat → Nat → W} {L t g : Nat} {I : List Nat} (hw : 0 < S.width)
    (hI : ∀ i ∈ I, i < S.width)
    (hocc : ∀ k j es, S.InRange k → k L ∈ I → j < L → Walk S m k L t j g es →
      ∀ x ∈ tables S m j (List.range S.width) g, S.Occupied m x)
    (hp : ∀ k, S.InRange k → k L ∈ I → path S m L t k ≠ none →
      path S m' L t k = path S m L t k)
    (hg : g ∈ tables S m L I t) : g ∈ tables S m' L I t := by
  obtain ⟨k, j, es, hk, hkI, hwalk⟩ := exists_walk hw hI hg
  rcases Nat.lt_or_eq_of_le hwalk.le with hlt | rfl
  · have hkI := hkI hlt
    obtain ⟨k₂, hk₂, p, hpath, hpne⟩ := exists_path (hocc k j es hk hkI hlt hwalk)
    -- follow `k` down to `g`, then a lookup that exists below it
    let k₃ : Nat → Nat := fun l => if l ≤ j then k₂ l else k l
    have hk₃ : S.InRange k₃ := fun l => by
      simp only [k₃]
      split
      · exact hk₂ l
      · exact hk l
    have hkI₃ : k₃ L ∈ I := by
      simp only [k₃, if_neg (by omega : ¬ L ≤ j)]
      exact hkI
    have hwalk₃ : Walk S m k₃ L t j g es := hwalk.agree fun l h1 _ => by
      simp only [k₃, if_neg (by omega : ¬ l ≤ j)]
    have hold : path S m L t k₃ = some (es ++ p) := by
      rw [hwalk₃.path_eq, path_key (k := k₂) fun l hl => by simp only [k₃, if_pos hl], hpath]
      rfl
    have hfull : path S m' L t k₃ = some (es ++ p) :=
      (hp k₃ hk₃ hkI₃ (by rw [hold]; exact Option.some_ne_none _)).trans hold
    obtain ⟨j', u', hwalk'⟩ := walk_of_path hpne hfull
    have h1 := hwalk.length
    have h2 := hwalk'.length
    obtain rfl : j' = j := by omega
    obtain rfl := hwalk.end_eq hwalk' fun he => by
      rw [he, List.length_nil] at h1
      omega
    exact hwalk'.mem_tables hk₃ hkI₃
  · cases hwalk with
    | refl => exact root_mem_tables S m' _ _ _
    | down _ hw' => have := hw'.le; omega

end Radix
