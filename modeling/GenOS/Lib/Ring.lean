import Mathlib.Logic.Function.Basic

/-!
# Rings of cells

A ring has `n` cells. Entries are numbered from 0 on as they enter it, and entry `i` stands in cell
`i % n`. `Holds cells n l t` says that of the entries `l` that ever entered, those from position `t`
on still stand in their cells.
-/

namespace GenOS.RingBuffer

variable {α : Type*} {n t i j : Nat} {cells cells' : Nat → α} {l : List α} {e : α}

/-! ## Cells of positions -/

/-- Two positions less than a ring apart have different cells. -/
theorem cell_ne (h1 : i < j) (h2 : j < i + n) : i % n ≠ j % n := by
  intro h
  have h3 : (j - i) % n = 0 := Nat.sub_mod_eq_zero_of_mod_eq h.symm
  rw [Nat.mod_eq_of_lt (by omega)] at h3
  omega

/-- The ring is empty when both ends stand at one cell, unless it is full. -/
theorem cell_eq_iff (h1 : t ≤ i) (h2 : i < t + n) : t % n = i % n ↔ t = i := by
  constructor
  · intro h
    rcases Nat.lt_or_eq_of_le h1 with hlt | heq
    · exact absurd h (cell_ne hlt h2)
    · exact heq
  · intro h
    rw [h]

/-- The cell after the last entry is that of the first one when one cell is left. -/
theorem next_eq_iff (h1 : t ≤ i) (h2 : i < t + n) : (i + 1) % n = t % n ↔ i + 1 = t + n := by
  constructor
  · intro h
    by_contra hne
    exact cell_ne (by omega) (by omega) h.symm
  · intro h
    rw [h, Nat.add_mod_right]

/-! ## Entries in their cells -/

/-- The entries of `l` from position `t` on stand in their cells. -/
structure Holds (cells : Nat → α) (n : Nat) (l : List α) (t : Nat) : Prop where
  le : t ≤ l.length
  room : l.length ≤ t + n
  cell : ∀ i e, t ≤ i → l[i]? = some e → cells (i % n) = e

namespace Holds

theorem nil : Holds cells n [] 0 where
  le := Nat.le_refl _
  room := Nat.zero_le _
  cell := fun i e _ h => by cases h

/-- The first entry left. -/
theorem head (h : Holds cells n l t) (ht : t < l.length) : l[t]? = some (cells (t % n)) := by
  have he := List.getElem?_eq_getElem ht
  rw [he, h.cell t _ (Nat.le_refl _) he]

/-- Only the cell of the next entry changes. -/
theorem frame (h : Holds cells n l t) (hr : l.length < t + n)
    (hc : ∀ x, x ≠ l.length % n → cells' x = cells x) : Holds cells' n l t where
  le := h.le
  room := h.room
  cell := by
    intro i e hi he
    have hlt : i < l.length := (List.getElem?_eq_some_iff.mp he).1
    rw [hc _ (cell_ne hlt (by omega))]
    exact h.cell i e hi he

/-- An entry enters. -/
theorem push (h : Holds cells n l t) (hr : l.length < t + n) (he : cells (l.length % n) = e) :
    Holds cells n (l ++ [e]) t where
  le := by
    rw [List.length_append]
    exact Nat.le_trans h.le (Nat.le_add_right _ _)
  room := by
    rw [List.length_append, List.length_singleton]
    omega
  cell := by
    intro i e' hi he'
    rcases Nat.lt_trichotomy i l.length with hlt | rfl | hgt
    · rw [List.getElem?_append_left hlt] at he'
      exact h.cell i e' hi he'
    · rw [List.getElem?_append_right (Nat.le_refl _), Nat.sub_self] at he'
      rw [he]
      exact Option.some.inj he'
    · rw [List.getElem?_eq_none (by rw [List.length_append, List.length_singleton]; omega)] at he'
      cases he'

/-- The first entry leaves. -/
theorem pop (h : Holds cells n l t) (ht : t < l.length) : Holds cells n l (t + 1) where
  le := ht
  room := by have := h.room; omega
  cell := fun i e hi he => h.cell i e (by omega) he

end Holds

end GenOS.RingBuffer
