import Mathlib.Data.List.Rotate
import Mathlib.Data.List.Nodup
import Mathlib.Order.Lattice

/-!
# Round robin

A turn walks over a list from the element after the last one served, around, and back, and takes the
first of greatest rank. Between turns the list grows at its end and loses elements. `Ahead l p t x`:
after `p` the walk meets `t` before `x`. It holds when `x` has just been served, and stays true
until `t` is.
-/

namespace GenOS.Circular

variable {α β : Type*} [LinearOrder β] {l l' l₁ l₂ m o o₁ o₂ : List α} {a p t x y : α}

/-! ## The first of greatest rank -/

/-- One element of the walk, against the best so far. -/
def better (ok : α → Bool) (rank : α → β) (best : Option α × β) (t : α) : Option α × β :=
  if ok t ∧ rank t > best.2 then (some t, rank t) else best

/-- `y` is the first of greatest rank among the elements of `o` that are `ok`. -/
def FirstBest (ok : α → Bool) (rank : α → β) (o : List α) (y : α) : Prop :=
  ∃ o₁ o₂, o = o₁ ++ y :: o₂ ∧ ok y = true ∧ (∀ z ∈ o₁, ok z = true → rank z < rank y) ∧
    ∀ z ∈ o₂, ok z = true → rank z ≤ rank y

variable {ok : α → Bool} {rank : α → β} {low : β}

/-- The walk ends with the start value, or with the first of greatest rank. -/
theorem foldl_better (o : List α) :
    (o.foldl (better ok rank) (none, low) = (none, low) ∧ ∀ z ∈ o, ok z = true → rank z ≤ low) ∨
    ∃ y, o.foldl (better ok rank) (none, low) = (some y, rank y) ∧ low < rank y ∧
      FirstBest ok rank o y := by
  induction o using List.reverseRecOn with
  | nil => exact .inl ⟨rfl, by simp⟩
  | append_singleton o z ih =>
    rw [List.foldl_concat]
    rcases ih with ⟨e, hle⟩ | ⟨y, e, hlow, o₁, o₂, ho, hy, hlt, hle⟩
    · rw [e, better]
      split
      · next h =>
        refine .inr ⟨z, rfl, h.2, o, [], rfl, h.1, fun w hw hok => ?_, by simp⟩
        exact lt_of_le_of_lt (hle w hw hok) h.2
      · next h =>
        refine .inl ⟨rfl, fun w hw hok => ?_⟩
        rcases List.mem_append.mp hw with hw | hw
        · exact hle w hw hok
        · rw [List.mem_singleton.mp hw] at hok ⊢
          exact not_lt.mp fun hlt => h ⟨hok, hlt⟩
    · rw [e, better]
      split
      · next h =>
        -- everything before `z` ranks at most as `y` does, which is less
        refine .inr ⟨z, rfl, hlow.trans h.2, o, [], rfl, h.1, fun w hw hok => ?_, by simp⟩
        rw [ho] at hw
        rcases List.mem_append.mp hw with hw | hw
        · exact (hlt w hw hok).trans h.2
        · rcases List.mem_cons.mp hw with hw | hw
          · exact hw ▸ h.2
          · exact lt_of_le_of_lt (hle w hw hok) h.2
      · next h =>
        refine .inr ⟨y, rfl, hlow, o₁, o₂ ++ [z], by simp [ho], hy, hlt, fun w hw hok => ?_⟩
        rcases List.mem_append.mp hw with hw | hw
        · exact hle w hw hok
        · rw [List.mem_singleton.mp hw] at hok ⊢
          exact not_lt.mp fun hlt => h ⟨hok, hlt⟩

theorem FirstBest.mem (h : FirstBest ok rank o y) : y ∈ o ∧ ok y = true := by
  obtain ⟨o₁, o₂, rfl, hok, _⟩ := h
  exact ⟨by simp, hok⟩

theorem FirstBest.le (h : FirstBest ok rank o y) (hx : x ∈ o) (hok : ok x = true) :
    rank x ≤ rank y := by
  obtain ⟨o₁, o₂, rfl, _, hlt, hle⟩ := h
  rcases List.mem_append.mp hx with hx | hx
  · exact (hlt x hx hok).le
  · rcases List.mem_cons.mp hx with rfl | hx
    · exact le_rfl
    · exact hle x hx hok

/-! ## The walk -/

/-- Of two elements of a sublist, the first is the one that comes first in the whole list. -/
theorem pair_sublist (hm : m.Nodup) (hs : l.Sublist m) (h : [t, x].Sublist m) (ht : t ∈ l)
    (hx : x ∈ l) : [t, x].Sublist l := by
  induction hs with
  | slnil => exact h
  | @cons l m a hs ih =>
    obtain ⟨ha, hm⟩ := List.nodup_cons.mp hm
    rcases List.sublist_cons_iff.mp h with h | ⟨r, e, _⟩
    · exact ih hm h ht hx
    · -- `t` is further on in `m` too
      cases e
      exact absurd (hs.subset ht) ha
  | @cons_cons l m a hs ih =>
    obtain ⟨ha, hm⟩ := List.nodup_cons.mp hm
    rcases List.sublist_cons_iff.mp h with h | ⟨r, e, hr⟩
    · have hta : t ≠ a := fun e => ha (e ▸ h.subset (by simp))
      have hxa : x ≠ a := fun e => ha (e ▸ h.subset (by simp))
      exact (ih hm h ((List.mem_cons.mp ht).resolve_left hta)
        ((List.mem_cons.mp hx).resolve_left hxa)).cons a
    · cases e
      have hxt : x ≠ t := fun e => ha (e ▸ hr.subset (by simp))
      exact (List.singleton_sublist.mpr ((List.mem_cons.mp hx).resolve_left hxt)).cons_cons t

variable [DecidableEq α]

/-- The list from the element after `p`, around, and back; all of it when `p` is not there. -/
def order (l : List α) (p : α) : List α :=
  if p ∈ l then l.rotate (l.idxOf p + 1) else l

theorem order_split (hp : p ∉ l₁) : order (l₁ ++ p :: l₂) p = l₂ ++ (l₁ ++ [p]) := by
  have hi : (l₁ ++ p :: l₂).idxOf p + 1 = (l₁ ++ [p]).length := by
    rw [List.idxOf_append_of_notMem hp, List.idxOf_cons_self, List.length_append]
    rfl
  have hl : l₁ ++ p :: l₂ = (l₁ ++ [p]) ++ l₂ := by simp
  rw [order, if_pos (by simp), hi, hl, List.rotate_append_length_eq]

@[simp] theorem mem_order : x ∈ order l p ↔ x ∈ l := by
  unfold order
  split
  · exact List.mem_rotate
  · exact Iff.rfl

theorem order_nodup (h : l.Nodup) : (order l p).Nodup := by
  unfold order
  split
  · exact List.nodup_rotate.mpr h
  · exact h

theorem order_mid (hn : (l₁ ++ y :: l₂).Nodup) : order (l₁ ++ y :: l₂) y = l₂ ++ (l₁ ++ [y]) :=
  order_split fun h => List.disjoint_of_nodup_append hn h List.mem_cons_self

/-- A walk that starts at `y` goes on where a walk that meets `y` goes on. -/
theorem order_order (hn : l.Nodup) (hp : p ∈ l) (h : order l p = o₁ ++ y :: o₂) :
    order l y = o₂ ++ (o₁ ++ [y]) := by
  have hno : (order l p).Nodup := order_nodup hn
  have hy : y ∈ l := mem_order.mp (by rw [h]; simp)
  -- where `y` stands in the walk is where it stands in the list
  have hmid : ∀ {a b : List α}, order l p = a ++ y :: b → a = o₁ ∧ b = o₂ := by
    intro a b e
    have hna : y ∉ a ∧ y ∉ b := by
      rw [e] at hno
      exact ⟨fun h => List.disjoint_of_nodup_append hno h List.mem_cons_self,
        (List.nodup_cons.mp (List.nodup_append.mp hno).2.1).1⟩
    obtain ⟨h1, _, h2⟩ := (List.append_cons_inj_of_notMem hna.1 hna.2).mp (e.symm.trans h)
    exact ⟨h1, h2⟩
  obtain ⟨l₁, l₂, rfl⟩ := List.append_of_mem hp
  rw [order_mid hn] at hmid
  rcases List.mem_append.mp hy with hy | hy
  · obtain ⟨c, d, rfl⟩ := List.append_of_mem hy
    obtain ⟨rfl, rfl⟩ := hmid (a := l₂ ++ c) (b := d ++ [p]) (by simp)
    have e : c ++ y :: d ++ p :: l₂ = c ++ y :: (d ++ p :: l₂) := by simp
    rw [e] at hn ⊢
    rw [order_mid hn]
    simp
  · rcases List.mem_cons.mp hy with rfl | hy
    · obtain ⟨rfl, rfl⟩ := hmid (a := l₂ ++ l₁) (b := []) (by simp)
      rw [order_mid hn]
      simp
    · obtain ⟨c, d, rfl⟩ := List.append_of_mem hy
      obtain ⟨rfl, rfl⟩ := hmid (a := c) (b := d ++ (l₁ ++ [p])) (by simp)
      have e : l₁ ++ p :: (c ++ y :: d) = (l₁ ++ p :: c) ++ y :: d := by simp
      rw [e] at hn ⊢
      rw [order_mid hn]
      simp

/-! ## Bypassing -/

/-- The walk after `p` meets `t` before `x`. -/
def Ahead (l : List α) (p t x : α) : Prop := p ∈ l ∧ [t, x].Sublist (order l p)

/-- Who has just been served comes last. -/
theorem Ahead.served (ht : t ∈ l) (hx : x ∈ l) (hne : t ≠ x) : Ahead l x t x := by
  refine ⟨hx, ?_⟩
  obtain ⟨l₁, l₂, rfl, hx₁⟩ := List.eq_append_cons_of_mem hx
  rw [order_split hx₁, ← List.append_assoc]
  have ht' : t ∈ l₂ ++ l₁ := by
    rcases List.mem_append.mp ht with ht | ht
    · exact List.mem_append_right _ ht
    · exact List.mem_append_left _ ((List.mem_cons.mp ht).resolve_left hne)
  exact (List.singleton_sublist.mpr ht').append (List.Sublist.refl [x])

/-- Serving somebody before `t` neither serves `x` nor lets it pass. -/
theorem Ahead.turn (hn : l.Nodup) (h : Ahead l p t x) (hy : [y, t].Sublist (order l p)) :
    Ahead l y t x ∧ y ≠ x := by
  obtain ⟨hp, hs⟩ := h
  obtain ⟨r₁, o, ho, hy, ht⟩ := List.cons_sublist_iff.mp hy
  obtain ⟨o₁, o₂, rfl⟩ := List.append_of_mem hy
  rw [List.singleton_sublist] at ht
  rw [List.append_assoc, List.cons_append] at ho
  have ht : t ∈ o₂ ++ o := List.mem_append_right o₂ ht
  generalize o₂ ++ o = o₂ at ho ht
  have hno : (o₁ ++ y :: o₂).Nodup := ho ▸ order_nodup hn
  have hy : y ∈ l := mem_order.mp (by rw [ho]; simp)
  -- `x` comes after `t`, so it is in the rest of the walk too
  obtain ⟨hn₁, hn₂, hd⟩ := List.nodup_append'.mp hno
  obtain ⟨hy₂, hn₂⟩ := List.nodup_cons.mp hn₂
  have hx : [t, x].Sublist o₂ := by
    rw [ho] at hs
    obtain ⟨r₁, r₂, e, hr₁, hr₂⟩ := List.sublist_append_iff.mp hs
    cases r₁ with
    | nil =>
      rw [List.nil_append] at e
      subst e
      rcases List.sublist_cons_iff.mp hr₂ with hr | ⟨r, e, _⟩
      · exact hr
      · cases e
        exact absurd ht hy₂
    | cons b r =>
      obtain ⟨rfl, _⟩ := List.cons.inj e
      exact absurd (List.mem_cons_of_mem y ht) (hd (hr₁.subset List.mem_cons_self))
  refine ⟨⟨hy, ?_⟩, fun e => hy₂ (e ▸ hx.subset (by simp))⟩
  rw [order_order hn hp ho]
  exact hx.trans (List.sublist_append_left o₂ _)

/-- The list grows at its end. -/
theorem Ahead.concat (h : Ahead l p t x) (a : α) : Ahead (l ++ [a]) p t x := by
  obtain ⟨hp, hs⟩ := h
  refine ⟨List.mem_append_left _ hp, hs.trans ?_⟩
  obtain ⟨l₁, l₂, rfl, hp₁⟩ := List.eq_append_cons_of_mem hp
  rw [List.append_assoc, List.cons_append, order_split hp₁, order_split hp₁, List.append_assoc]
  exact (List.Sublist.refl l₂).append (List.sublist_append_right [a] _)

/-- The list loses others. -/
theorem Ahead.sublist (hn : l.Nodup) (h : Ahead l p t x) (hs : l'.Sublist l) (hp : p ∈ l')
    (ht : t ∈ l') (hx : x ∈ l') : Ahead l' p t x := by
  refine ⟨hp, pair_sublist (order_nodup hn) ?_ h.2 (mem_order.mpr ht) (mem_order.mpr hx)⟩
  obtain ⟨l₁, l₂, rfl, hp₁⟩ := List.eq_append_cons_of_mem h.1
  obtain ⟨r₁, r, rfl, hr₁, hr⟩ := List.sublist_append_iff.mp hs
  have hpr : p ∈ r := (List.mem_append.mp hp).resolve_left fun h => hp₁ (hr₁.subset h)
  have hp₂ : p ∉ l₂ := (List.nodup_cons.mp (List.nodup_append.mp hn).2.1).1
  rcases List.sublist_cons_iff.mp hr with hr | ⟨r₂, rfl, hr₂⟩
  · exact absurd (hr.subset hpr) hp₂
  · rw [order_split hp₁, order_split fun h => hp₁ (hr₁.subset h)]
    exact hr₂.append (hr₁.append (List.Sublist.refl [p]))

end GenOS.Circular
