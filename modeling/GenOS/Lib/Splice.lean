import Mathlib.Data.List.GetD

/-!
# Writing into an array that grows

`splice z l off src` is the list `l` after `src` is written at `off`. A gap between the end of `l`
and `off` is filled with `z`.
-/

namespace Splice

variable {α : Type*} {z : α} {l l' a b : List α} {off : Nat}

def splice (z : α) (l : List α) (off : Nat) (src : List α) : List α :=
  l.take off ++ List.replicate (off - l.length) z ++ src ++ l.drop (off + src.length)

theorem length_splice (z : α) (l : List α) (off : Nat) (src : List α) :
    (splice z l off src).length = max l.length (off + src.length) := by
  simp only [splice, List.length_append, List.length_take, List.length_replicate, List.length_drop]
  omega

/-- Lists of one length with the same elements. -/
theorem ext_getD (hl : l.length = l'.length) (h : ∀ i < l.length, l.getD i z = l'.getD i z) :
    l = l' := by
  refine List.ext_getElem hl fun i h1 h2 => ?_
  rw [← List.getD_eq_getElem l z h1, ← List.getD_eq_getElem l' z h2, h i h1]

theorem getD_take {i n : Nat} (h : i < n) : (l.take n).getD i z = l.getD i z := by
  rw [List.getD_eq_getElem?_getD, List.getElem?_take_of_lt h, ← List.getD_eq_getElem?_getD]

theorem getD_drop (i n : Nat) : (l.drop n).getD i z = l.getD (n + i) z := by
  rw [List.getD_eq_getElem?_getD, List.getElem?_drop, ← List.getD_eq_getElem?_getD]

theorem getD_splice (z : α) (l : List α) (off : Nat) (src : List α) (i : Nat) :
    (splice z l off src).getD i z =
      if off ≤ i ∧ i < off + src.length then src.getD (i - off) z else l.getD i z := by
  have hfront : (l.take off ++ List.replicate (off - l.length) z).length = off := by
    simp only [List.length_append, List.length_take, List.length_replicate]
    omega
  have htake : (l.take off).length = min off l.length := List.length_take
  unfold splice
  rw [List.append_assoc]
  by_cases h1 : i < off
  · rw [if_neg (by omega), List.getD_append _ _ _ _ (by omega)]
    by_cases h2 : i < l.length
    · rw [List.getD_append _ _ _ _ (by omega), getD_take h1]
    · -- the gap
      rw [List.getD_append_right _ _ _ _ (by omega), List.getD_replicate _ (by omega),
        List.getD_eq_default l z (by omega)]
  · rw [List.getD_append_right _ _ _ _ (by omega), hfront]
    by_cases h2 : i < off + src.length
    · rw [if_pos (by omega), List.getD_append _ _ _ _ (by omega)]
    · rw [if_neg (by omega), List.getD_append_right _ _ _ _ (by omega), getD_drop]
      congr 1
      omega

/-- Two writes in a row are one. -/
theorem splice_splice (z : α) (l : List α) (off : Nat) (a b : List α) :
    splice z (splice z l off a) (off + a.length) b = splice z l off (a ++ b) := by
  apply ext_getD (z := z)
  · simp only [length_splice, List.length_append]
    omega
  intro i _
  simp only [getD_splice, List.length_append]
  by_cases h1 : off + a.length ≤ i
  · by_cases h2 : i < off + a.length + b.length
    · rw [if_pos ⟨h1, h2⟩, if_pos (by omega), List.getD_append_right _ _ _ _ (by omega)]
      congr 1
      omega
    · rw [if_neg (by omega), if_neg (by omega), if_neg (by omega)]
  · rw [if_neg (by omega)]
    by_cases h2 : off ≤ i
    · rw [if_pos (by omega), if_pos (by omega), List.getD_append _ _ _ _ (by omega)]
    · rw [if_neg (by omega), if_neg (by omega)]

end Splice
