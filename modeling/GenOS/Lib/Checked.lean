import Mathlib.Algebra.Group.Nat.Defs

/-!
# Checked arithmetic

Unsigned arithmetic that faults where the machine would wrap, and copies out of a buffer that fault
where they would leave it. A program over these that is shown to end in `ok` neither wraps nor reads
out of bounds.
-/

namespace GenOS.Checked

inductive Fault where
  | wrap
  | outOfBounds
  deriving DecidableEq

/-- `a + b` in `w` bits. -/
def add (w a b : ℕ) : Except Fault ℕ := if a + b < 2 ^ w then .ok (a + b) else .error .wrap

/-- `a - b`. -/
def sub (a b : ℕ) : Except Fault ℕ := if b ≤ a then .ok (a - b) else .error .wrap

/-- `a * b` in `w` bits. -/
def mul (w a b : ℕ) : Except Fault ℕ := if a * b < 2 ^ w then .ok (a * b) else .error .wrap

/-- Conversion to `w` bits. -/
def narrow (w a : ℕ) : Except Fault ℕ := if a < 2 ^ w then .ok a else .error .wrap

/-- The `n` bytes at the address `a`, of the bytes `l` at the address `base`. -/
def copyOut {α : Type*} (base : ℕ) (l : List α) (a n : ℕ) : Except Fault (List α) :=
  if base ≤ a ∧ a + n ≤ base + l.length then .ok ((l.drop (a - base)).take n)
  else .error .outOfBounds

/-- The program ends without a fault, in a value with `Q`. -/
def Returns {α : Type*} (x : Except Fault α) (Q : α → Prop) : Prop := ∃ a, x = .ok a ∧ Q a

section

variable {α β : Type} {w a b n base : ℕ} {l : List α} {x : Except Fault α}
  {f : α → Except Fault β} {P Q : α → Prop} {R : β → Prop}

theorem Returns.pure {a : α} (h : Q a) : Returns (Pure.pure a) Q := ⟨a, rfl, h⟩

theorem Returns.bind (h : Returns x P) (hf : ∀ a, P a → Returns (f a) R) :
    Returns (x >>= f) R := by
  obtain ⟨a, rfl, ha⟩ := h
  exact hf a ha

theorem Returns.mono (h : Returns x P) (hq : ∀ a, P a → Q a) : Returns x Q := by
  obtain ⟨a, rfl, ha⟩ := h
  exact ⟨a, rfl, hq a ha⟩

theorem add_returns (h : a + b < 2 ^ w) : Returns (add w a b) (· = a + b) := ⟨_, if_pos h, rfl⟩

theorem sub_returns (h : b ≤ a) : Returns (sub a b) (· = a - b) := ⟨_, if_pos h, rfl⟩

theorem mul_returns (h : a * b < 2 ^ w) : Returns (mul w a b) (· = a * b) := ⟨_, if_pos h, rfl⟩

theorem narrow_returns (h : a < 2 ^ w) : Returns (narrow w a) (· = a) := ⟨_, if_pos h, rfl⟩

theorem copyOut_returns (h1 : base ≤ a) (h2 : a + n ≤ base + l.length) :
    Returns (copyOut base l a n) (· = (l.drop (a - base)).take n) :=
  ⟨_, if_pos ⟨h1, h2⟩, rfl⟩

end

end GenOS.Checked
