import Mathlib.Logic.Function.Basic

/-!
# Cells

A memory is a function from addresses to cells of one type, and `set` is a store. It is
`Function.update` (`set_eq_update`) without the cast that a dependent type of cells needs: the cast
would make the kernel compare two addresses that it has not evaluated, and a run on a concrete
memory would not come to an end.
-/

namespace Cells

variable {α : Type*} {β : Sort*} [DecidableEq α] {f : α → β} {a b x : α} {v w : β}

/-- Store `v` at `a`. -/
def set (f : α → β) (a : α) (v : β) : α → β := fun x => if x = a then v else f x

theorem set_eq_update (f : α → β) (a : α) (v : β) : set f a v = Function.update f a v :=
  funext fun x => (Function.update_apply f a v x).symm

theorem set_apply (f : α → β) (a : α) (v : β) (x : α) :
    set f a v x = if x = a then v else f x := rfl

@[simp] theorem set_self (a : α) (v : β) (f : α → β) : set f a v a = v := if_pos rfl

@[simp] theorem set_of_ne (h : x ≠ a) (v : β) (f : α → β) : set f a v x = f x := if_neg h

@[simp] theorem set_idem (v w : β) (f : α → β) : set (set f a v) a w = set f a w := by
  simp only [set_eq_update, Function.update_idem]

@[simp] theorem set_eq_self (a : α) (f : α → β) : set f a (f a) = f := by
  simp only [set_eq_update, Function.update_eq_self]

end Cells
