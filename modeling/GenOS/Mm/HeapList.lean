import GenOS.Lib.FirstFit
import GenOS.Mm.Heap

/-!
# The block list in memory

`Seg m a l z` says that the blocks `l` lie in `m` from `a` on, each behind its header, each linked
to the next one and the last one to `z`. Every write of `heap.c` replaces some neighbouring blocks
of a segment by others of the same span (`Seg.replace`), or links a new block to its end.
-/

namespace GenOS

open FirstFit Bytes

namespace HeapBlock

variable {m m' : Bytes.Mem} {a v : Nat}

/-! ## Header fields -/

theorem next_lt (m : Bytes.Mem) (a : Nat) : next m a < 2 ^ 64 := Bytes.load_lt m (a + 16) 8

@[simp] theorem size_setSize (h : v < 2 ^ 64) : size (setSize m a v) a = v :=
  Bytes.load_store_lt (n := 8) h
@[simp] theorem free_setSize : free (setSize m a v) a = free m a := by
  unfold free setSize
  rw [(Bytes.store_outside m a 8 v).load_eq (by omega)]
@[simp] theorem next_setSize : next (setSize m a v) a = next m a :=
  (Bytes.store_outside m a 8 v).load_eq (by omega)
@[simp] theorem size_setFree : size (setFree m a v) a = size m a :=
  (Bytes.store_outside m (a + 8) 4 v).load_eq (by omega)
@[simp] theorem free_setFree_one : free (setFree m a 1) a = true := by
  unfold free setFree
  rw [Bytes.load_store]
  rfl
@[simp] theorem free_setFree_zero : free (setFree m a 0) a = false := by
  unfold free setFree
  rw [Bytes.load_store]
  rfl
@[simp] theorem next_setFree : next (setFree m a v) a = next m a :=
  (Bytes.store_outside m (a + 8) 4 v).load_eq (by omega)
@[simp] theorem size_setNext : size (setNext m a v) a = size m a :=
  (Bytes.store_outside m (a + 16) 8 v).load_eq (by omega)
@[simp] theorem free_setNext : free (setNext m a v) a = free m a := by
  unfold free setNext
  rw [(Bytes.store_outside m (a + 16) 8 v).load_eq (by omega)]
@[simp] theorem next_setNext (h : v < 2 ^ 64) : next (setNext m a v) a = v :=
  Bytes.load_store_lt (n := 8) h

theorem setSize_outside (m : Bytes.Mem) (a v : Nat) : Outside m (setSize m a v) a 32 :=
  (Bytes.store_outside m a 8 v).mono (by omega) (by omega)
theorem setFree_outside (m : Bytes.Mem) (a v : Nat) : Outside m (setFree m a v) a 32 :=
  (Bytes.store_outside m (a + 8) 4 v).mono (by omega) (by omega)
theorem setNext_outside (m : Bytes.Mem) (a v : Nat) : Outside m (setNext m a v) a 32 :=
  (Bytes.store_outside m (a + 16) 8 v).mono (by omega) (by omega)

theorem absorb_outside (m : Bytes.Mem) (p c : Nat) : Outside m (absorb m p c) p 32 :=
  (setSize_outside m p _).trans (setNext_outside _ p _)

/-- What the header at `a` says. -/
structure Header (m : Bytes.Mem) (a : Nat) (b : Block) (z : Nat) : Prop where
  size : size m a = b.size
  free : free m a = b.free
  next : next m a = z

theorem Header.congr {b : Block} {z n d : Nat} (h : Header m a b z) (ho : Outside m m' d n)
    (hd : a + 32 ≤ d ∨ d + n ≤ a) : Header m' a b z := by
  refine ⟨?_, ?_, ?_⟩
  · rw [← h.size]
    exact ho.load_eq (by omega)
  · rw [← h.free]
    unfold HeapBlock.free
    rw [ho.load_eq (by omega)]
  · rw [← h.next]
    exact ho.load_eq (by omega)

/-! ## Segments -/

/-- The address of the first block, or what follows an empty list. -/
def first (a z : Nat) : List Block → Nat
  | [] => z
  | _ :: _ => a

def Seg (m : Bytes.Mem) : Nat → List Block → Nat → Prop
  | _, [], _ => True
  | a, b :: l, z => Header m a b (first (a + 32 + b.size) z l) ∧ Seg m (a + 32 + b.size) l z

variable {l l₁ l₂ mid mid' : List Block} {b p c : Block} {z z' n d want : Nat}

theorem first_append (a z : Nat) (l₁ l₂ : List Block) :
    first a z (l₁ ++ l₂) = first a (first (a + span 32 l₁) z l₂) l₁ := by
  cases l₁ with
  | nil => rfl
  | cons b l => rfl

theorem Seg.append : Seg m a (l₁ ++ l₂) z ↔
    Seg m a l₁ (first (a + span 32 l₁) z l₂) ∧ Seg m (a + span 32 l₁) l₂ z := by
  induction l₁ generalizing a with
  | nil => simp only [List.nil_append, Seg, true_and, span, Nat.add_zero]
  | cons b l ih =>
    simp only [List.cons_append, Seg, span, first_append, ih, and_assoc, Nat.add_assoc]

theorem Seg.congr (h : Seg m a l z) (ho : Outside m m' d n) (hd : a + span 32 l ≤ d ∨ d + n ≤ a) :
    Seg m' a l z := by
  induction l generalizing a with
  | nil => trivial
  | cons b l ih =>
    simp only [span] at hd
    exact ⟨h.1.congr ho (by omega), ih h.2 (by omega)⟩

/-- Neighbouring blocks are replaced by others of the same span. -/
theorem Seg.replace (mid mid' : List Block) (h : Seg m a (l₁ ++ mid ++ l₂) z)
    (ho : Outside m m' (a + span 32 l₁) (span 32 mid))
    (hs : span 32 mid' = span 32 mid) (hn : mid ≠ []) (hn' : mid' ≠ [])
    (hm : ∀ z, Seg m (a + span 32 l₁) mid z → Seg m' (a + span 32 l₁) mid' z) :
    Seg m' a (l₁ ++ mid' ++ l₂) z := by
  rw [List.append_assoc] at h ⊢
  obtain ⟨h₁, h₂⟩ := Seg.append.mp h
  obtain ⟨h₂, h₃⟩ := Seg.append.mp h₂
  have hf : ∀ a z, first a z (mid' ++ l₂) = first a z (mid ++ l₂) := fun a z => by
    cases mid with
    | nil => exact absurd rfl hn
    | cons _ _ =>
      cases mid' with
      | nil => exact absurd rfl hn'
      | cons _ _ => rfl
  refine Seg.append.mpr ⟨?_, Seg.append.mpr ⟨?_, ?_⟩⟩
  · rw [hf]
    exact h₁.congr ho (.inl (Nat.le_refl _))
  · rw [hs]
    exact hm _ h₂
  · rw [hs]
    exact h₃.congr ho (.inr (Nat.le_refl _))

theorem Seg.header (h : Seg m a (l₁ ++ b :: l₂) z) :
    Header m (a + span 32 l₁) b (first (a + span 32 l₁ + 32 + b.size) z l₂) :=
  (Seg.append.mp h).2.1

/-- Set the `free` field of one block. -/
theorem Seg.setFree_one (h : Seg m a (l₁ ++ b :: l₂) z) :
    Seg (setFree m (a + span 32 l₁) 1) a (l₁ ++ ⟨b.size, true⟩ :: l₂) z := by
  rw [List.append_cons] at h ⊢
  refine Seg.replace [b] [⟨b.size, true⟩] h ?_ rfl (by simp) (by simp) fun z hz => ?_
  · exact (setFree_outside m _ 1).mono (Nat.le_refl _) (by simp only [span]; omega)
  · exact ⟨⟨size_setFree.trans hz.1.size, free_setFree_one, next_setFree.trans hz.1.next⟩, trivial⟩

theorem Seg.absorb (h : Seg m a (l₁ ++ p :: c :: l₂) z) (hlt : p.size + 32 + c.size < 2 ^ 64) :
    Seg (absorb m (a + span 32 l₁) (a + span 32 l₁ + 32 + p.size)) a
      (l₁ ++ ⟨p.size + 32 + c.size, p.free⟩ :: l₂) z := by
  rw [List.append_cons l₁ ⟨_, _⟩ l₂]
  rw [show l₁ ++ p :: c :: l₂ = l₁ ++ [p, c] ++ l₂ by simp] at h
  refine Seg.replace [p, c] [_] h ?_ (by simp only [span]; omega) (by simp) (by simp) fun z hz => ?_
  · exact (absorb_outside m _ _).mono (Nat.le_refl _) (by simp only [span]; omega)
  · obtain ⟨hp, hc, -⟩ := hz
    have hsz : HeapBlock.size m (a + span 32 l₁) + 32 + HeapBlock.size m
      (a + span 32 l₁ + 32 + p.size) =
        p.size + 32 + c.size := by
      rw [hp.size, hc.size]
    refine ⟨⟨?_, ?_, ?_⟩, trivial⟩
    · unfold HeapBlock.absorb
      rw [size_setNext, hsz, size_setSize hlt]
    · unfold HeapBlock.absorb
      rw [free_setNext, free_setSize, hp.free]
    · unfold HeapBlock.absorb
      rw [next_setNext (next_lt _ _)]
      exact ((setSize_outside m _ _).load_eq (by omega)).trans hc.next

/-- Link the last block to something else. -/
theorem Seg.relink (h : Seg m a (l ++ [p]) z) (hz : z' < 2 ^ 64) :
    Seg (setNext m (a + span 32 l) z') a (l ++ [p]) z' := by
  obtain ⟨h₁, h₂, -⟩ := Seg.append.mp h
  refine Seg.append.mpr ⟨?_, ⟨?_, ?_, next_setNext hz⟩, trivial⟩
  · exact h₁.congr (setNext_outside m _ z') (.inl (Nat.le_refl _))
  · exact size_setNext.trans h₂.size
  · exact free_setNext.trans h₂.free

/-! ## Walks -/

theorem length_le_span (l : List Block) : l.length ≤ span 32 l := by
  induction l with
  | nil => exact Nat.le_refl _
  | cons b l ih =>
    simp only [List.length_cons, span]
    omega

/-- **First fit**: the walk finds the block that `alloc` carves. -/
theorem findFit_eq {fuel : Nat} (h : Seg m a l 0) (h0 : 0 < a) (hf : l.length < fuel) :
    findFit m want fuel (first a 0 l) = some (((alloc 32 want a l).map (·.1)).getD 0) := by
  induction l generalizing a fuel with
  | nil =>
    cases fuel with
    | zero => cases hf
    | succ fuel => rfl
  | cons b l ih =>
    cases fuel with
    | zero => cases hf
    | succ fuel =>
      simp only [List.length_cons] at hf
      rw [first, findFit, if_neg (by omega), h.1.free, h.1.size, h.1.next, alloc, fits]
      split
      · rfl
      · rw [ih h.2 (by omega) (by omega)]
        cases alloc 32 want (a + 32 + b.size) l <;> rfl

theorem findLast_eq {fuel : Nat} (h : Seg m a (l ++ [p]) 0) (h0 : 0 < a) (hf : l.length < fuel) :
    findLast m fuel a = some (a + span 32 l) := by
  induction l generalizing a fuel with
  | nil =>
    cases fuel with
    | zero => cases hf
    | succ fuel =>
      have hn : next m a = 0 := h.1.next
      rw [findLast, if_pos hn]
      rfl
  | cons b l ih =>
    cases fuel with
    | zero => cases hf
    | succ fuel =>
      simp only [List.length_cons] at hf
      have hn : next m a = a + 32 + b.size := by
        rw [h.1.next]
        cases l <;> rfl
      rw [findLast, hn, if_neg (by omega), ih h.2 (by omega) (by omega), span]
      congr 1
      omega

/-- The walk of `kfree` ends at the block freed, behind the last block before it. -/
theorem findPrev_eq {fuel prev : Nat} (h : Seg m a (l ++ [p]) z) (hz : z = a + span 32 (l ++ [p]))
    (h0 : 0 < a) (hf : l.length + 1 < fuel) :
    findPrev m z fuel prev a = some (a + span 32 l) := by
  induction l generalizing a fuel prev with
  | nil =>
    obtain ⟨fuel, rfl⟩ : ∃ k,
      fuel = k + 2 := ⟨fuel - 2, by simp only [List.length_nil] at hf; omega⟩
    simp only [List.nil_append, span] at hz
    have hn : next m a = z := h.1.next
    rw [findPrev, if_neg (by omega), hn, findPrev, if_pos (.inr rfl)]
    rfl
  | cons b l ih =>
    cases fuel with
    | zero => cases hf
    | succ fuel =>
      simp only [List.length_cons] at hf
      simp only [List.cons_append, span] at hz
      have hn : next m a = a + 32 + b.size := by
        rw [h.1.next]
        cases l <;> rfl
      rw [findPrev, if_neg (by omega), hn, ih h.2 (by omega) (by omega) (by omega), span]
      congr 1
      omega

end HeapBlock

end GenOS
