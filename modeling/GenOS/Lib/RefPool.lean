import GenOS.Lib.Cells
import Mathlib.Data.List.Basic

/-!
# Reference-counted pools

A pool hands out resources of a type `α`. `acquire a` takes a free resource
(count `0`) and gives it count `1`; `retain a` and `release a` move the count of
a held resource by one. `Run c es c'` says the events `es` are legal from the
counts `c` and end in `c'`.

`Run.balance` is the ledger of one resource over a run that does not acquire it.
-/

namespace RefPool

/-- One change of a reference count. -/
inductive Event (α : Type*) where
  | acquire (a : α)
  | retain (a : α)
  | release (a : α)
  deriving DecidableEq, Repr

variable {α : Type*} [DecidableEq α]

namespace Event

/-- The resource an event is about. -/
def target : Event α → α
  | acquire a | retain a | release a => a

/-- The counts after an event. -/
def apply (c : α → Nat) : Event α → α → Nat
  | acquire a => Cells.set c a 1
  | retain a => Cells.set c a (c a + 1)
  | release a => Cells.set c a (c a - 1)

/-- Only free resources are acquired; only held ones are retained or released. -/
def Legal (c : α → Nat) : Event α → Prop
  | acquire a => c a = 0
  | retain a | release a => 0 < c a

theorem apply_ne {c : α → Nat} {e : Event α} {a : α} (h : e.target ≠ a) : e.apply c a = c a := by
  cases e <;> exact Cells.set_of_ne (Ne.symm h) _ _

end Event

/-- The events `es` are legal from `c` and lead to `c'`. -/
inductive Run : (α → Nat) → List (Event α) → (α → Nat) → Prop where
  | nil (c : α → Nat) : Run c [] c
  | cons {c c' : α → Nat} {e : Event α} {es : List (Event α)} :
      e.Legal c → Run (e.apply c) es c' → Run c (e :: es) c'

/-- The number of retains of `a`. -/
def retains (a : α) (es : List (Event α)) : Nat := es.count (.retain a)

/-- The number of releases of `a`. -/
def releases (a : α) (es : List (Event α)) : Nat := es.count (.release a)

theorem Run.single {c : α → Nat} {e : Event α} (h : e.Legal c) : Run c [e] (e.apply c) :=
  .cons h (.nil _)

theorem Run.append {c c' c'' : α → Nat} {es fs : List (Event α)}
    (h : Run c es c') (h' : Run c' fs c'') : Run c (es ++ fs) c'' := by
  induction h with
  | nil => exact h'
  | cons hl _ ih => exact .cons hl (ih h')

/-- **The ledger of one resource.** Over a run that does not acquire `a`, its
final count plus its releases is its first count plus its retains. -/
theorem Run.balance {c c' : α → Nat} {es : List (Event α)} {a : α} (h : Run c es c')
    (hna : Event.acquire a ∉ es) : c' a + releases a es = c a + retains a es := by
  induction h with
  | nil => simp [releases, retains]
  | @cons c c' e es hl _ ih =>
    have ih := ih fun hm => hna (List.mem_cons_of_mem _ hm)
    have hne : e ≠ .acquire a := fun he => hna (he ▸ List.mem_cons_self)
    by_cases ht : e.target = a
    · cases e with
      | acquire b => exact absurd (congrArg Event.acquire ht) hne
      | retain b =>
        obtain rfl : b = a := ht
        simp only [Event.apply, Cells.set_self, releases, retains, List.count_cons] at ih ⊢
        simp at ih ⊢
        omega
      | release b =>
        obtain rfl : b = a := ht
        have hpos : 0 < c b := hl
        simp only [Event.apply, Cells.set_self, releases, retains, List.count_cons] at ih ⊢
        simp at ih ⊢
        omega
    · rw [Event.apply_ne ht] at ih
      have h1 : e ≠ .retain a := fun he => ht (he ▸ rfl)
      have h2 : e ≠ .release a := fun he => ht (he ▸ rfl)
      simpa [releases, retains, List.count_cons, h1, h2] using ih

end RefPool
