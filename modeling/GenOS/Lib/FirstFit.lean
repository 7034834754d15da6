import Mathlib.Data.List.Basic
import Mathlib.Data.List.Chain
import Mathlib.Data.List.Pairwise

/-!
# First-fit block lists

An arena is tiled by blocks, each behind a header of `hdr` bytes. `alloc` takes the first free block
that is large enough and splits it if a header and more fit behind the request, `release` frees a
block and joins it with its free neighbours, `grow` adds free space at the end. `Good` is the
invariant the three keep, `used` lists the blocks in use with their addresses, and each operation
changes it by one entry at most.
-/

namespace FirstFit

/-- One block, without its header. -/
structure Block where
  size : Nat
  free : Bool
  deriving DecidableEq, Repr

variable (hdr : Nat)

/-- The bytes a list of blocks takes, headers included. -/
def span : List Block → Nat
  | [] => 0
  | b :: l => hdr + b.size + span l

/-- Address and size of the blocks in use, the list starting at `a`. -/
def used : Nat → List Block → List (Nat × Nat)
  | _, [] => []
  | a, b :: l => (if b.free then [] else [(a, b.size)]) ++ used (a + hdr + b.size) l

/-- A free block of at least `want` bytes. -/
def fits (want : Nat) (b : Block) : Bool := b.free && decide (want ≤ b.size)

/-- The block taken, and the rest of it if that is worth a block. -/
def carve (want : Nat) (b : Block) : List Block :=
  if b.size > want + hdr then [⟨want, false⟩, ⟨b.size - want - hdr, true⟩]
  else [⟨b.size, false⟩]

/-- First fit: the address of the block taken, and the new list. -/
def alloc (want : Nat) : Nat → List Block → Option (Nat × List Block)
  | _, [] => none
  | a, b :: l =>
    if fits want b then some (a, carve hdr want b ++ l)
    else (alloc want (a + hdr + b.size) l).map fun r => (r.1, b :: r.2)

/-- A free block in front of a list swallows its free neighbour. -/
def merge (b : Block) : List Block → List Block
  | [] => [b]
  | c :: l => if c.free then ⟨b.size + hdr + c.size, b.free⟩ :: l else b :: c :: l

/-- Free the block of `size` bytes between `l₁` and `l₂`. -/
def release (l₁ : List Block) (size : Nat) (l₂ : List Block) : List Block :=
  match l₁.getLast? with
  | none => merge hdr ⟨size, true⟩ l₂
  | some p =>
    if p.free then l₁.dropLast ++ merge hdr ⟨p.size + hdr + size, true⟩ l₂
    else l₁ ++ merge hdr ⟨size, true⟩ l₂

/-- Add `hdr + size` bytes of free space at the end. -/
def grow (size : Nat) (l : List Block) : List Block :=
  match l.getLast? with
  | none => [⟨size, true⟩]
  | some p =>
    if p.free then l.dropLast ++ [⟨p.size + hdr + size, true⟩] else l ++ [⟨size, true⟩]

/-- Sizes are multiples of the alignment, and no two neighbours are both free. -/
structure Good (align : Nat) (l : List Block) : Prop where
  size : ∀ b ∈ l, 0 < b.size ∧ align ∣ b.size
  apart : l.IsChain fun b c => ¬ (b.free = true ∧ c.free = true)

variable {hdr} {want a align size : Nat} {b p : Block} {l l₁ l₂ : List Block}

@[simp] theorem span_append (l₁ l₂ : List Block) :
    span hdr (l₁ ++ l₂) = span hdr l₁ + span hdr l₂ := by
  induction l₁ with
  | nil => simp [span]
  | cons b l ih => simp only [List.cons_append, span, ih]; omega

theorem used_append (a : Nat) (l₁ l₂ : List Block) :
    used hdr a (l₁ ++ l₂) = used hdr a l₁ ++ used hdr (a + span hdr l₁) l₂ := by
  induction l₁ generalizing a with
  | nil => simp [used, span]
  | cons b l ih =>
    simp only [List.cons_append, used, ih, span, List.append_assoc]
    rw [show a + hdr + b.size + span hdr l = a + (hdr + b.size + span hdr l) by omega]

theorem used_cons_free (h : b.free = true) :
    used hdr a (b :: l) = used hdr (a + hdr + b.size) l := by
  simp [used, h]

theorem used_cons_used (h : b.free = false) :
    used hdr a (b :: l) = (a, b.size) :: used hdr (a + hdr + b.size) l := by
  simp [used, h]

/-- The blocks in use lie between the bounds of the list. -/
theorem used_bounds {x : Nat × Nat} (h : x ∈ used hdr a l) :
    a ≤ x.1 ∧ x.1 + hdr + x.2 ≤ a + span hdr l := by
  induction l generalizing a with
  | nil => cases h
  | cons b l ih =>
    simp only [used, List.mem_append] at h
    rcases h with h | h
    · split at h
      · cases h
      · rw [List.mem_singleton.mp h]
        simp only [span]
        omega
    · have := ih h
      simp only [span]
      omega

/-- Blocks in use do not overlap. -/
theorem used_pairwise (a : Nat) (l : List Block) :
    (used hdr a l).Pairwise fun x y => x.1 + hdr + x.2 ≤ y.1 := by
  induction l generalizing a with
  | nil => exact .nil
  | cons b l ih =>
    simp only [used]
    refine List.pairwise_append.mpr ⟨?_, ih _, fun x hx y hy => ?_⟩
    · split
      · exact .nil
      · exact List.pairwise_singleton _ _
    · split at hx
      · cases hx
      · rw [List.mem_singleton.mp hx]
        exact (used_bounds hy).1

theorem used_nodup (h0 : 0 < hdr) (a : Nat) (l : List Block) :
    ((used hdr a l).map (·.1)).Nodup :=
  List.pairwise_map.mpr ((used_pairwise a l).imp fun h => by omega)

/-- Two blocks in use are the same, or they lie apart. -/
theorem used_apart {x y : Nat × Nat} (hx : x ∈ used hdr a l) (hy : y ∈ used hdr a l) :
    x = y ∨ x.1 + hdr + x.2 ≤ y.1 ∨ y.1 + hdr + y.2 ≤ x.1 := by
  have hp := @used_pairwise hdr a l
  exact List.Pairwise.forall_of_forall_of_flip (R := fun x y : Nat × Nat =>
      x = y ∨ x.1 + hdr + x.2 ≤ y.1 ∨ y.1 + hdr + y.2 ≤ x.1)
    (fun _ _ => .inl rfl) (hp.imp fun h => .inr (.inl h)) (hp.imp fun h => .inr (.inr h)) hx hy

/-- Where a block in use is. -/
theorem mem_used {x : Nat × Nat} : x ∈ used hdr a l ↔ ∃ l₁ l₂, l = l₁ ++ ⟨x.2, false⟩ :: l₂ ∧
    x.1 = a + span hdr l₁ := by
  constructor
  · induction l generalizing a with
    | nil => intro h; cases h
    | cons b l ih =>
      intro h
      simp only [used, List.mem_append] at h
      rcases h with h | h
      · split at h
        · cases h
        · rename_i hb
          rw [List.mem_singleton.mp h]
          refine ⟨[], l, ?_, rfl⟩
          cases b
          simp_all
      · obtain ⟨l₁, l₂, rfl, he⟩ := ih h
        refine ⟨b :: l₁, l₂, rfl, ?_⟩
        simp only [span]
        omega
  · rintro ⟨l₁, l₂, rfl, he⟩
    rw [used_append, used_cons_used rfl, ← he]
    exact List.mem_append_right _ List.mem_cons_self

/-! ## Allocation -/

theorem span_carve : span hdr (carve hdr want b) = hdr + b.size := by
  unfold carve
  split
  · simp only [span]
    omega
  · simp only [span]
    omega

/-- The size of the block taken. -/
def taken (hdr want : Nat) (b : Block) : Nat := if b.size > want + hdr then want else b.size

theorem used_carve (a : Nat) (b : Block) :
    used hdr a (carve hdr want b) = [(a, taken hdr want b)] := by
  unfold carve taken
  split
  · simp [used]
  · simp [used]

theorem le_taken (hdr : Nat) (h : fits want b = true) : want ≤ taken hdr want b := by
  simp only [fits, Bool.and_eq_true, decide_eq_true_eq] at h
  unfold taken
  split
  · exact Nat.le_refl _
  · exact h.2

/-- The blocks that do not fit are passed over. -/
theorem alloc_skip (hn : ∀ x ∈ l₁, fits want x = false) (hf : fits want b = true) (a : Nat) :
    alloc hdr want a (l₁ ++ b :: l₂) = some (a + span hdr l₁, l₁ ++ carve hdr want b ++ l₂) := by
  induction l₁ generalizing a with
  | nil => rw [List.nil_append, alloc, if_pos hf]; rfl
  | cons c l ih =>
    rw [List.cons_append, alloc, if_neg (by simp [hn c List.mem_cons_self]),
      ih fun x hx => hn x (List.mem_cons_of_mem c hx)]
    simp only [Option.map_some, span, List.cons_append, Option.some.injEq, Prod.mk.injEq, and_true]
    omega

/-- **First fit**, case by case: no block fits, or the first one that does is carved. -/
theorem alloc_cases (hdr want : Nat) (l : List Block) :
    ((∀ b ∈ l, fits want b = false) ∧ ∀ a, alloc hdr want a l = none) ∨
    ∃ l₁ b l₂, l = l₁ ++ b :: l₂ ∧ (∀ x ∈ l₁, fits want x = false) ∧ fits want b = true := by
  induction l with
  | nil => exact .inl ⟨by simp, fun _ => rfl⟩
  | cons b l ih =>
    by_cases hf : fits want b = true
    · exact .inr ⟨[], b, l, rfl, by simp, hf⟩
    rcases ih with ⟨hn, he⟩ | ⟨l₁, c, l₂, rfl, hn, hc⟩
    · refine .inl ⟨fun x hx => ?_, fun a => by rw [alloc, if_neg hf, he]; rfl⟩
      rcases List.mem_cons.mp hx with rfl | hx
      · simpa using hf
      · exact hn x hx
    · refine .inr ⟨b :: l₁, c, l₂, rfl, fun x hx => ?_, hc⟩
      rcases List.mem_cons.mp hx with rfl | hx
      · simpa using hf
      · exact hn x hx

/-- Allocation adds one block to those in use. -/
theorem used_alloc (h : fits want b = true) (a : Nat) (l₁ l₂ : List Block) :
    (used hdr a (l₁ ++ carve hdr want b ++ l₂)).Perm
      ((a + span hdr l₁, taken hdr want b) :: used hdr a (l₁ ++ b :: l₂)) := by
  have hb : b.free = true := by
    simp only [fits, Bool.and_eq_true] at h
    exact h.1
  rw [List.append_assoc, used_append, used_append, used_append, used_carve, span_carve,
    used_cons_free hb, ← Nat.add_assoc]
  exact List.perm_middle

theorem Good.carve (h : Good align (l₁ ++ b :: l₂)) (hf : fits want b = true)
    (hh : align ∣ hdr) (hw : align ∣ want) (h0 : 0 < want) :
    Good align (l₁ ++ carve hdr want b ++ l₂) := by
  have hb : b.free = true := by
    simp only [fits, Bool.and_eq_true] at hf
    exact hf.1
  obtain ⟨hpos, hal⟩ := h.size b (by simp)
  have hrest : ∀ x ∈ l₁ ++ l₂, 0 < x.size ∧ align ∣ x.size := fun x hx =>
    h.size x (by simp only [List.mem_append, List.mem_cons] at hx ⊢; tauto)
  obtain ⟨hc1, hc2, hc3⟩ := List.isChain_append.mp h.apart
  rw [List.append_assoc]
  unfold FirstFit.carve
  split
  · rename_i hs
    refine ⟨fun x hx => ?_, ?_⟩
    · simp only [List.cons_append, List.nil_append, List.mem_append, List.mem_cons] at hx
      rcases hx with hx | rfl | rfl | hx
      · exact hrest x (List.mem_append_left _ hx)
      · exact ⟨h0, hw⟩
      · exact ⟨by simp only; omega, Nat.dvd_sub (Nat.dvd_sub hal hw) hh⟩
      · exact hrest x (List.mem_append_right _ hx)
    · refine List.isChain_append.mpr ⟨hc1, ?_, ?_⟩
      · refine .cons_cons (by simp) ?_
        cases l₂ with
        | nil => exact .singleton _
        | cons c l₂ =>
          rw [List.isChain_cons_cons] at hc2
          exact .cons_cons (by simpa [hb] using hc2.1) hc2.2
      · intro x _ y hy
        simp only [List.cons_append, List.head?_cons, Option.mem_def, Option.some.injEq] at hy
        simp [← hy]
  · refine ⟨fun x hx => ?_, ?_⟩
    · simp only [List.cons_append, List.nil_append, List.mem_append, List.mem_cons] at hx
      rcases hx with hx | rfl | hx
      · exact hrest x (List.mem_append_left _ hx)
      · exact ⟨hpos, hal⟩
      · exact hrest x (List.mem_append_right _ hx)
    · refine List.isChain_append.mpr ⟨hc1, ?_, ?_⟩
      · cases l₂ with
        | nil => exact .singleton _
        | cons c l₂ =>
          rw [List.isChain_cons_cons] at hc2
          exact .cons_cons (by simp) hc2.2
      · intro x _ y hy
        simp only [List.cons_append, List.head?_cons, Option.mem_def, Option.some.injEq] at hy
        simp [← hy]

/-! ## Release and growth -/

theorem span_merge : span hdr (merge hdr b l) = hdr + b.size + span hdr l := by
  cases l with
  | nil => rfl
  | cons c l =>
    rw [merge]
    split
    · simp only [span]
      omega
    · simp only [span]

theorem used_merge (hb : b.free = true) (a : Nat) :
    used hdr a (merge hdr b l) = used hdr (a + hdr + b.size) l := by
  cases l with
  | nil => rw [merge, used_cons_free hb]
  | cons c l =>
    rw [merge]
    split
    · rename_i hc
      rw [used, if_pos hb, List.nil_append, used_cons_free hc]
      congr 1
      simp only
      omega
    · rw [used_cons_free hb]

theorem Good.left (h : Good align (l₁ ++ l₂)) : Good align l₁ :=
  ⟨fun b hb => h.size b (List.mem_append_left _ hb), (List.isChain_append.mp h.apart).1⟩

theorem Good.right (h : Good align (l₁ ++ l₂)) : Good align l₂ :=
  ⟨fun b hb => h.size b (List.mem_append_right _ hb), (List.isChain_append.mp h.apart).2.1⟩

/-- A block that is free has neighbours in use. -/
theorem Good.last_used (h : Good align (l ++ b :: l₂)) (hb : b.free = true) :
    ∀ x ∈ l.getLast?, x.free = false := fun x hx => by
  have := (List.isChain_append.mp h.apart).2.2 x hx b rfl
  simpa [hb] using this

/-- A free block may stand between two lists if it is merged with the second. -/
theorem Good.merge (h₁ : Good align l₁) (h₂ : Good align l₂) (hh : align ∣ hdr)
    (hb : b.free = true) (hs : 0 < b.size ∧ align ∣ b.size)
    (hl : ∀ x ∈ l₁.getLast?, x.free = false) : Good align (l₁ ++ FirstFit.merge hdr b l₂) := by
  have happ : ∀ {m : List Block}, (∀ x ∈ m, 0 < x.size ∧ align ∣ x.size) →
      m.IsChain (fun b c => ¬ (b.free = true ∧ c.free = true)) → Good align (l₁ ++ m) :=
    fun hm hc => by
      refine ⟨fun x hx => ?_, List.isChain_append.mpr ⟨h₁.apart, hc, fun x hx y _ => ?_⟩⟩
      · rcases List.mem_append.mp hx with hx | hx
        · exact h₁.size x hx
        · exact hm x hx
      · simp [hl x hx]
  cases l₂ with
  | nil =>
    refine happ (fun x hx => ?_) (.singleton _)
    rw [List.mem_singleton.mp hx]
    exact hs
  | cons c l =>
    rw [FirstFit.merge]
    have hl := fun x hx => h₂.size x (List.mem_cons_of_mem c hx)
    obtain ⟨hc0, hca⟩ := h₂.size c List.mem_cons_self
    split
    · rename_i hc
      refine happ (fun x hx => ?_) ?_
      · rcases List.mem_cons.mp hx with rfl | hx
        · exact ⟨by simp only; omega, Nat.dvd_add (Nat.dvd_add hs.2 hh) hca⟩
        · exact hl x hx
      · cases l with
        | nil => exact .singleton _
        | cons d l =>
          have hch := h₂.apart
          rw [List.isChain_cons_cons] at hch
          exact .cons_cons (by simpa [hb, hc] using hch.1) hch.2
    · rename_i hc
      refine happ (fun x hx => ?_) (.cons_cons (by simp [hc]) h₂.apart)
      rcases List.mem_cons.mp hx with rfl | hx
      · exact hs
      · exact h₂.size x hx

/-- **Release**, case by case: the block before is in use, or it is free and joined. -/
theorem release_cases (hdr : Nat) (l₁ : List Block) (size : Nat) (l₂ : List Block) :
    ((∀ x ∈ l₁.getLast?, x.free = false) ∧
      release hdr l₁ size l₂ = l₁ ++ merge hdr ⟨size, true⟩ l₂) ∨
    ∃ m p, l₁ = m ++ [p] ∧ p.free = true ∧
      release hdr l₁ size l₂ = m ++ merge hdr ⟨p.size + hdr + size, true⟩ l₂ := by
  rcases List.eq_nil_or_concat l₁ with rfl | ⟨m, p, rfl⟩
  · exact .inl ⟨by simp, rfl⟩
  · rw [List.concat_eq_append]
    unfold release
    rw [List.getLast?_concat]
    simp only [List.dropLast_concat]
    split
    · rename_i hp
      exact .inr ⟨m, p, rfl, hp, rfl⟩
    · rename_i hp
      exact .inl ⟨by simpa using hp, rfl⟩

theorem append_merge_ne_nil (hdr : Nat) (k : List Block) (b : Block) (l : List Block) :
    k ++ merge hdr b l ≠ [] := by
  cases l with
  | nil => simp [merge]
  | cons c l =>
    rw [merge]
    split
    · simp
    · simp

theorem release_ne_nil (hdr : Nat) (l₁ : List Block) (size : Nat) (l₂ : List Block) :
    release hdr l₁ size l₂ ≠ [] := by
  rcases release_cases hdr l₁ size l₂ with ⟨-, he⟩ | ⟨m, p, -, -, he⟩
  · rw [he]
    exact append_merge_ne_nil hdr l₁ _ l₂
  · rw [he]
    exact append_merge_ne_nil hdr m _ l₂

theorem span_release :
    span hdr (release hdr l₁ size l₂) = span hdr (l₁ ++ ⟨size, false⟩ :: l₂) := by
  rcases release_cases hdr l₁ size l₂ with ⟨_, he⟩ | ⟨m, p, rfl, _, he⟩
  · rw [he, span_append, span_merge, span_append, span]
  · rw [he, span_append, span_merge, span_append, span_append]
    simp only [span]
    omega

/-- Release takes one block out of those in use. -/
theorem used_release (a : Nat) : used hdr a (release hdr l₁ size l₂) =
    used hdr a l₁ ++ used hdr (a + span hdr l₁ + hdr + size) l₂ := by
  rcases release_cases hdr l₁ size l₂ with ⟨_, he⟩ | ⟨m, p, rfl, hp, he⟩
  · rw [he, used_append, used_merge rfl]
  · rw [he, used_append, used_merge rfl, used_append, used_cons_free hp, used, List.append_nil,
      span_append]
    congr 2
    simp only [span]
    omega

/-- The blocks in use but for one. -/
theorem mem_used_except (h0 : 0 < hdr) {x : Nat × Nat} :
    x ∈ used hdr a l₁ ++ used hdr (a + span hdr l₁ + hdr + size) l₂ ↔
      x ∈ used hdr a (l₁ ++ ⟨size, false⟩ :: l₂) ∧ x.1 ≠ a + span hdr l₁ := by
  rw [used_append, used_cons_used rfl]
  simp only [List.mem_append, List.mem_cons]
  constructor
  · rintro (hx | hx)
    · exact ⟨.inl hx, by have := used_bounds hx; omega⟩
    · exact ⟨.inr (.inr hx), by have := used_bounds hx; omega⟩
  · rintro ⟨hx | rfl | hx, hne⟩
    · exact .inl hx
    · exact absurd rfl hne
    · exact .inr hx

theorem Good.release (h : Good align (l₁ ++ ⟨size, false⟩ :: l₂)) (hh : align ∣ hdr) :
    Good align (release hdr l₁ size l₂) := by
  have hs := h.size ⟨size, false⟩ (by simp)
  have h₂ : Good align l₂ := @Good.right _ [⟨size, false⟩] _ h.right
  rcases release_cases hdr l₁ size l₂ with ⟨hl, he⟩ | ⟨m, p, rfl, hp, he⟩
  · rw [he]
    exact h.left.merge h₂ hh rfl hs hl
  · rw [he]
    have hps := h.size p (by simp)
    rw [List.append_assoc] at h
    exact h.left.merge h₂ hh rfl ⟨by simp only; omega, Nat.dvd_add (Nat.dvd_add hps.2 hh) hs.2⟩
      (h.last_used hp)

/-- **Growth**, case by case: a last block in use stays, a free one is extended. -/
theorem grow_cases (hdr size : Nat) (l : List Block) :
    ((∀ x ∈ l.getLast?, x.free = false) ∧ grow hdr size l = l ++ [⟨size, true⟩]) ∨
    ∃ m p, l = m ++ [p] ∧ p.free = true ∧ grow hdr size l = m ++ [⟨p.size + hdr + size, true⟩] :=
  release_cases hdr l size []

theorem span_grow : span hdr (grow hdr size l) = span hdr l + hdr + size := by
  have := @span_release hdr size l []
  rw [span_append] at this
  simp only [span] at this
  exact this.trans (by omega)

theorem used_grow (a : Nat) : used hdr a (grow hdr size l) = used hdr a l :=
  (@used_release hdr size l [] a).trans (List.append_nil _)

theorem Good.grow (h : Good align l) (hh : align ∣ hdr) (hs : 0 < size ∧ align ∣ size) :
    Good align (grow hdr size l) := by
  refine @Good.release hdr align size l [] ⟨fun x hx => ?_, ?_⟩ hh
  · rcases List.mem_append.mp hx with hx | hx
    · exact h.size x hx
    · rw [List.mem_singleton.mp hx]
      exact hs
  · exact List.isChain_append.mpr ⟨h.apart, .singleton _, fun x _ y hy => by
      simp only [List.head?_cons, Option.mem_def, Option.some.injEq] at hy
      simp [← hy]⟩

end FirstFit
