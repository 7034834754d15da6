import Mathlib.Data.List.Basic

/-!
# Tables of slots

A fixed number of slots, some of them live, each live one with a key. `find` is the first live slot
with a key, `free` the first that is not live. `Distinct` is the invariant of such a table: no two
live slots have one key. Storing into a slot changes what is found under the old key and the new
one only.
-/

/-- How a slot is read. -/
structure Slots (σ κ : Type*) where
  live : σ → Bool
  key : σ → κ

namespace Slots

variable {σ κ : Type*} [DecidableEq κ] (T : Slots σ κ)

/-- The first live slot with key `k`. -/
def find (l : List σ) (k : κ) : Option Nat := l.findIdx? fun s => T.live s && decide (T.key s = k)

/-- The first slot that is not live. -/
def free (l : List σ) : Option Nat := l.findIdx? fun s => !T.live s

/-- Slot `i` is live and holds `s` under `k`. -/
structure At (l : List σ) (i : Nat) (k : κ) (s : σ) : Prop where
  slot : l[i]? = some s
  live : T.live s = true
  key : T.key s = k

/-- No two live slots have one key. -/
def Distinct (l : List σ) : Prop := ∀ ⦃i j k s s'⦄, T.At l i k s → T.At l j k s' → i = j

variable {T} {l : List σ} {i j : Nat} {k : κ} {s : σ}

omit [DecidableEq κ] in
theorem At.lt (h : T.At l i k s) : i < l.length := (List.getElem?_eq_some_iff.mp h.slot).1

theorem find_some (h : T.find l k = some i) : ∃ s, T.At l i k s := by
  obtain ⟨hi, hp, -⟩ := List.findIdx?_eq_some_iff_getElem.mp h
  simp only [Bool.and_eq_true, decide_eq_true_eq] at hp
  exact ⟨l[i], List.getElem?_eq_getElem hi, hp.1, hp.2⟩

theorem find_none (h : T.find l k = none) (i : Nat) (s : σ) : ¬ T.At l i k s := fun ha => by
  have := List.findIdx?_eq_none_iff.mp h s (List.mem_of_getElem? ha.slot)
  simp [ha.live, ha.key] at this

/-- Among distinct keys the slot found is the only one. -/
theorem Distinct.find (hd : T.Distinct l) (h : T.At l i k s) : T.find l k = some i := by
  cases hf : T.find l k with
  | none => exact absurd h (find_none hf i s)
  | some j =>
    obtain ⟨s', h'⟩ := find_some hf
    exact congrArg some (hd h' h)

theorem find_eq_none_iff : T.find l k = none ↔ ∀ i s, ¬ T.At l i k s := by
  refine ⟨find_none, fun h => ?_⟩
  cases hf : T.find l k with
  | none => rfl
  | some i =>
    obtain ⟨s, hs⟩ := find_some hf
    exact absurd hs (h i s)

/-- Among distinct keys the slot found is the only one, also without its number. -/
theorem Distinct.find? (hd : T.Distinct l) (h : T.At l i k s) :
    (l.find? fun s => T.live s && decide (T.key s = k)) = some s := by
  rw [List.find?_eq_bind_findIdx?_getElem?]
  have hf : (l.findIdx? fun s => T.live s && decide (T.key s = k)) = some i := hd.find h
  rw [hf]
  exact h.slot

theorem find?_none (h : ∀ i s, ¬ T.At l i k s) :
    (l.find? fun s => T.live s && decide (T.key s = k)) = none := by
  rw [List.find?_eq_bind_findIdx?_getElem?]
  have hf : (l.findIdx? fun s => T.live s && decide (T.key s = k)) = none :=
    find_eq_none_iff.mpr h
  rw [hf]
  rfl

omit [DecidableEq κ] in
theorem free_some (h : T.free l = some i) : ∃ s, l[i]? = some s ∧ T.live s = false := by
  obtain ⟨hi, hp, -⟩ := List.findIdx?_eq_some_iff_getElem.mp h
  exact ⟨l[i], List.getElem?_eq_getElem hi, by simpa using hp⟩

omit [DecidableEq κ] in
theorem free_eq_none_iff : T.free l = none ↔ ∀ s ∈ l, T.live s = true := by
  unfold free
  rw [List.findIdx?_eq_none_iff]
  simp

/-! ## Storing into a slot -/

omit [DecidableEq κ] in
/-- What is in the table after a store: the new slot, and the others as they were. -/
theorem at_set {s₀ : σ} : T.At (l.set i s₀) j k s ↔
    (j = i ∧ i < l.length ∧ s = s₀ ∧ T.live s₀ = true ∧ T.key s₀ = k) ∨ (j ≠ i ∧ T.At l j k s) := by
  constructor
  · rintro ⟨h1, h2, h3⟩
    rw [List.getElem?_set] at h1
    by_cases hj : i = j
    · rw [if_pos hj] at h1
      split at h1
      · obtain rfl := Option.some.inj h1
        exact .inl ⟨hj.symm, by omega, rfl, h2, h3⟩
      · cases h1
    · rw [if_neg hj] at h1
      exact .inr ⟨Ne.symm hj, h1, h2, h3⟩
  · rintro (⟨rfl, hi, rfl, h2, h3⟩ | ⟨hj, h1, h2, h3⟩)
    · exact ⟨List.getElem?_set_self hi, h2, h3⟩
    · exact ⟨by rw [List.getElem?_set, if_neg (Ne.symm hj), h1], h2, h3⟩

omit [DecidableEq κ] in
/-- Keys stay distinct when the new one is in no other slot. -/
theorem Distinct.set (hd : T.Distinct l) {s₀ : σ}
    (h : T.live s₀ = true → ∀ j s, T.At l j (T.key s₀) s → j = i) : T.Distinct (l.set i s₀) := by
  intro a b k s s' ha hb
  rcases at_set.mp ha with ⟨rfl, -, -, hl, rfl⟩ | ⟨hna, ha'⟩
  · rcases at_set.mp hb with ⟨rfl, -⟩ | ⟨hnb, hb'⟩
    · rfl
    · exact absurd (h hl b s' hb') hnb
  · rcases at_set.mp hb with ⟨rfl, -, -, hl, rfl⟩ | ⟨-, hb'⟩
    · exact absurd (h hl a s ha') hna
    · exact hd ha' hb'

omit [DecidableEq κ] in
/-- A store that keeps the key changes no slot's. -/
theorem At.of_set_same {s₀ s₁ : σ} (h₁ : l[i]? = some s₁) (hl : T.live s₀ = T.live s₁)
    (hk : T.key s₀ = T.key s₁) (h : T.At (l.set i s₀) j k s) : ∃ s', T.At l j k s' := by
  rcases at_set.mp h with ⟨rfl, -, rfl, hlive, hkey⟩ | ⟨-, h'⟩
  · exact ⟨s₁, h₁, hl ▸ hlive, hk ▸ hkey⟩
  · exact ⟨s, h'⟩

omit [DecidableEq κ] in
theorem Distinct.set_same (hd : T.Distinct l) {s₀ s₁ : σ} (h₁ : l[i]? = some s₁)
    (hl : T.live s₀ = T.live s₁) (hk : T.key s₀ = T.key s₁) : T.Distinct (l.set i s₀) := by
  intro a b k s s' ha hb
  obtain ⟨t, ht⟩ := ha.of_set_same h₁ hl hk
  obtain ⟨t', ht'⟩ := hb.of_set_same h₁ hl hk
  exact hd ht ht'

/-- A store changes a count by what the two slots count. -/
theorem countP_set (p : σ → Bool) (s₀ : σ) {s₁ : σ} (h : l[i]? = some s₁) :
    (l.set i s₀).countP p + (p s₁).toNat = l.countP p + (p s₀).toNat := by
  obtain ⟨hi, rfl⟩ := List.getElem?_eq_some_iff.mp h
  have hpos : p l[i] = true → 0 < l.countP p := fun hp =>
    List.countP_pos_iff.mpr ⟨l[i], List.getElem_mem hi, hp⟩
  rw [List.countP_set hi]
  cases hp : p l[i] with
  | true =>
    have := hpos hp
    cases p s₀ <;> simp <;> omega
  | false => cases p s₀ <;> simp

end Slots
