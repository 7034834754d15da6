import Mathlib.Data.List.Basic

/-!
# Writing with a cursor

A buffer of fixed size is filled from its start through a cursor that nothing checks. `stores` lists
every store made on the way, here or in another buffer, with the size of the buffer and the index.
The lemmas say how long the text gets and when all the stores are inside.
-/

namespace GenOS.Cursor

variable {α : Type*}

/-- A buffer, the text before its cursor, and the stores so far. -/
structure Buffer (α : Type*) where
  size : Nat
  text : List α
  stores : List (Nat × Nat)

namespace Buffer

/-- A fresh buffer. -/
def new (n : Nat) : Buffer α := ⟨n, [], []⟩

/-- Store at the cursor and move it on. -/
def put (b : Buffer α) (a : α) : Buffer α :=
  { b with text := b.text ++ [a], stores := b.stores ++ [(b.size, b.text.length)] }

/-- Move the cursor back by one. -/
def back (b : Buffer α) : Buffer α := { b with text := b.text.dropLast }

/-- Store a terminator at the cursor. -/
def close (b : Buffer α) : Buffer α := { b with stores := b.stores ++ [(b.size, b.text.length)] }

/-- Note the stores made in other buffers. -/
def also (b : Buffer α) (l : List (Nat × Nat)) : Buffer α := { b with stores := b.stores ++ l }

/-- Store a whole text. -/
def append (b : Buffer α) (l : List α) : Buffer α := l.foldl put b

/-- Store a text while the cursor is below `limit`. -/
def appendUpTo (limit : Nat) (b : Buffer α) : List α → Buffer α
  | [] => b
  | a :: l => if b.text.length < limit then (b.put a).appendUpTo limit l else b

/-- Fill up to `limit`. -/
def pad (limit : Nat) (a : α) (b : Buffer α) : Buffer α :=
  b.append (List.replicate (limit - b.text.length) a)

/-- Every store is inside its buffer. -/
def Safe (b : Buffer α) : Prop := ∀ p ∈ b.stores, p.2 < p.1

variable {b : Buffer α} {a : α} {l : List α} {n limit : Nat}

@[simp] theorem new_size : (new n : Buffer α).size = n := rfl
@[simp] theorem new_text : (new n : Buffer α).text = [] := rfl
@[simp] theorem put_size : (b.put a).size = b.size := rfl
@[simp] theorem put_text : (b.put a).text = b.text ++ [a] := rfl
@[simp] theorem back_size : b.back.size = b.size := rfl
@[simp] theorem back_text : b.back.text = b.text.dropLast := rfl
@[simp] theorem close_size : b.close.size = b.size := rfl
@[simp] theorem close_text : b.close.text = b.text := rfl
@[simp] theorem also_size {s : List (Nat × Nat)} : (b.also s).size = b.size := rfl
@[simp] theorem also_text {s : List (Nat × Nat)} : (b.also s).text = b.text := rfl

@[simp] theorem append_nil : b.append [] = b := rfl

theorem append_cons : b.append (a :: l) = (b.put a).append l := rfl

@[simp] theorem append_size : (b.append l).size = b.size := by
  induction l generalizing b with
  | nil => rfl
  | cons a l ih => rw [append_cons, ih, put_size]

@[simp] theorem append_text : (b.append l).text = b.text ++ l := by
  induction l generalizing b with
  | nil => simp
  | cons a l ih => rw [append_cons, ih, put_text, List.append_assoc, List.singleton_append]

/-- A loop that stops at a limit stores what fits below it. -/
theorem appendUpTo_eq (l : List α) :
    b.appendUpTo limit l = b.append (l.take (limit - b.text.length)) := by
  induction l generalizing b with
  | nil => simp [appendUpTo]
  | cons a l ih =>
    rw [appendUpTo]
    split
    · next h =>
      obtain ⟨k, hk⟩ : ∃ k, limit - b.text.length = k + 1 := ⟨limit - b.text.length - 1, by omega⟩
      have hk' : limit - (b.put a).text.length = k := by
        rw [put_text, List.length_append, List.length_singleton]
        omega
      rw [ih, hk, hk', List.take_succ_cons, append_cons]
    · next h =>
      rw [show limit - b.text.length = 0 by omega, List.take_zero, append_nil]

@[simp] theorem appendUpTo_size : (b.appendUpTo limit l).size = b.size := by
  rw [appendUpTo_eq, append_size]

theorem length_appendUpTo : (b.appendUpTo limit l).text.length =
    max b.text.length (min limit (b.text.length + l.length)) := by
  rw [appendUpTo_eq, append_text, List.length_append, List.length_take]
  omega

@[simp] theorem pad_size : (b.pad limit a).size = b.size := append_size

theorem length_pad : (b.pad limit a).text.length = max b.text.length limit := by
  rw [pad, append_text, List.length_append, List.length_replicate]
  omega

/-! ## Safety -/

@[simp] theorem safe_new : (new n : Buffer α).Safe := nofun

theorem safe_store (s : List (Nat × Nat)) (p : Nat × Nat) :
    (∀ q ∈ s ++ [p], q.2 < q.1) ↔ (∀ q ∈ s, q.2 < q.1) ∧ p.2 < p.1 := by
  simp only [List.mem_append, List.mem_singleton, or_imp, forall_and, forall_eq]

theorem safe_put : (b.put a).Safe ↔ b.Safe ∧ b.text.length < b.size := safe_store _ _

theorem safe_close : b.close.Safe ↔ b.Safe ∧ b.text.length < b.size := safe_store _ _

@[simp] theorem safe_back : b.back.Safe ↔ b.Safe := Iff.rfl

theorem safe_also {s : List (Nat × Nat)} : (b.also s).Safe ↔ b.Safe ∧ ∀ p ∈ s, p.2 < p.1 := by
  unfold Safe also
  simp only [List.mem_append, or_imp, forall_and]

/-- A text fits if its end does. -/
theorem safe_append :
    (b.append l).Safe ↔ b.Safe ∧ (l.length = 0 ∨ b.text.length + l.length ≤ b.size) := by
  induction l generalizing b with
  | nil => simp
  | cons a l ih =>
    rw [append_cons, ih, safe_put, put_size, put_text]
    simp only [List.length_append, List.length_cons, List.length_nil]
    constructor
    · rintro ⟨⟨h, hb⟩, hl⟩
      exact ⟨h, .inr (by omega)⟩
    · rintro ⟨h, hl⟩
      exact ⟨⟨h, by omega⟩, by omega⟩

theorem safe_appendUpTo : (b.appendUpTo limit l).Safe ↔ b.Safe ∧
    (limit ≤ b.text.length ∨ l.length = 0 ∨ min limit (b.text.length + l.length) ≤ b.size) := by
  rw [appendUpTo_eq, safe_append, List.length_take]
  refine and_congr_right fun _ => ?_
  omega

theorem safe_pad : (b.pad limit a).Safe ↔ b.Safe ∧ (limit ≤ b.text.length ∨ limit ≤ b.size) := by
  rw [pad, safe_append, List.length_replicate]
  refine and_congr_right fun _ => ?_
  omega

end Buffer

end GenOS.Cursor
