import Mathlib.Data.List.Basic

/-!
# Blocks of a list

`blocks n l` are the full blocks of `n` entries at the start of `l`, and `rest n l` is what is left.
A list that comes in pieces has the blocks of the whole: of the next piece only the rest before it
is needed.
-/

namespace GenOS.Blocks

variable {α : Type*} {n : Nat}

/-- The full blocks of `n` entries. -/
def blocks (n : Nat) (l : List α) : List (List α) :=
  if 0 < n ∧ n ≤ l.length then l.take n :: blocks n (l.drop n) else []
termination_by l.length
decreasing_by
  rw [List.length_drop]
  omega

/-- The entries after the full blocks. -/
def rest (n : Nat) (l : List α) : List α := l.drop (l.length - l.length % n)

theorem length_rest (n : Nat) (l : List α) : (rest n l).length = l.length % n := by
  have h := Nat.mod_le l.length n
  unfold rest
  rw [List.length_drop]
  omega

theorem blocks_of_lt {l : List α} (h : l.length < n) : blocks n l = [] := by
  rw [blocks, if_neg (by omega)]

theorem blocks_of_le {l : List α} (h0 : 0 < n) (h : n ≤ l.length) :
    blocks n l = l.take n :: blocks n (l.drop n) := by
  rw [blocks, if_pos ⟨h0, h⟩]

/-- A list of full length is its block. -/
theorem blocks_of_eq {l : List α} (h0 : 0 < n) (h : l.length = n) : blocks n l = [l] := by
  rw [blocks_of_le h0 (Nat.le_of_eq h.symm), List.take_of_length_le (Nat.le_of_eq h),
    List.drop_eq_nil_of_le (Nat.le_of_eq h), blocks_of_lt h0]

theorem rest_of_lt {l : List α} (h : l.length < n) : rest n l = l := by
  unfold rest
  rw [Nat.mod_eq_of_lt h, Nat.sub_self, List.drop_zero]

theorem rest_of_le {l : List α} (h : n ≤ l.length) : rest n l = rest n (l.drop n) := by
  have h1 := Nat.mod_le (l.length - n) n
  have h2 : l.length % n = (l.length - n) % n := Nat.mod_eq_sub_mod h
  unfold rest
  rw [List.drop_drop, List.length_drop, h2]
  congr 1
  omega

/-- Every block has its full length. -/
theorem length_of_mem_blocks {l b : List α} (h : b ∈ blocks n l) : b.length = n := by
  fun_induction blocks n l with
  | case1 l hl ih =>
    rcases List.mem_cons.mp h with rfl | h'
    · rw [List.length_take, Nat.min_eq_left hl.2]
    · exact ih h'
  | case2 l hl => cases h

/-- The blocks of a whole are those of its first part, then those of what is left of it with the
second part. -/
theorem blocks_append (h0 : 0 < n) (l l' : List α) :
    blocks n (l ++ l') = blocks n l ++ blocks n (rest n l ++ l') := by
  fun_induction blocks n l with
  | case1 l hl ih =>
    rw [blocks_of_le h0 (by rw [List.length_append]; omega), List.take_append_of_le_length hl.2,
      List.drop_append_of_le_length hl.2, ih, rest_of_le hl.2, List.cons_append]
  | case2 l hl =>
    rw [rest_of_lt (by omega), List.nil_append]

theorem rest_append (h0 : 0 < n) (l l' : List α) : rest n (l ++ l') = rest n (rest n l ++ l') := by
  fun_induction blocks n l with
  | case1 l hl ih =>
    rw [rest_of_le (by rw [List.length_append]; omega), List.drop_append_of_le_length hl.2, ih,
      rest_of_le hl.2]
  | case2 l hl =>
    rw [rest_of_lt (l := l) (by omega)]

/-- Full blocks in a row are the blocks of the whole. -/
theorem blocks_flatten (h0 : 0 < n) {bs : List (List α)} (h : ∀ b ∈ bs, b.length = n) :
    blocks n bs.flatten = bs := by
  induction bs with
  | nil => exact blocks_of_lt h0
  | cons b bs ih =>
    have hb : b.length = n := h b List.mem_cons_self
    have hrest : rest n b = [] := by
      apply List.eq_nil_of_length_eq_zero
      rw [length_rest, hb, Nat.mod_self]
    rw [List.flatten_cons, blocks_append h0, blocks_of_eq h0 hb, hrest, List.nil_append,
      ih fun c hc => h c (List.mem_cons_of_mem _ hc)]
    rfl

/-- A list without a rest is made of its blocks. -/
theorem flatten_blocks {l : List α} (h : l.length % n = 0) : (blocks n l).flatten = l := by
  fun_induction blocks n l with
  | case1 l hl ih =>
    have hd : (l.drop n).length % n = 0 := by
      rw [List.length_drop, ← Nat.mod_eq_sub_mod hl.2, h]
    rw [List.flatten_cons, ih hd, List.take_append_drop]
  | case2 l hl =>
    have hnil : l.length = 0 := by
      rcases Nat.eq_zero_or_pos n with rfl | h0
      · rw [Nat.mod_zero] at h
        exact h
      · rw [Nat.mod_eq_of_lt (by omega)] at h
        exact h
    rw [List.eq_nil_of_length_eq_zero hnil]
    rfl

end GenOS.Blocks
