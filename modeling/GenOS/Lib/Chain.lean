import Mathlib.Data.List.Nodup

/-!
# Linked lists in a pool of nodes

`Seg next h l t`: the links `next` lead from `h` through the nodes of `l`, in order, to `t`. A list
that ends is a `Linked` one, and `DLinked` has links both ways. The lemmas say what one changed link
does: a node taken out, a node put in front, a node put at the end.
-/

namespace GenOS.Chain

variable {ι : Type*} {next next' prev prev' : ι → Option ι} {h t m first last : Option ι}
  {l l₁ l₂ : List ι} {a e : ι}

/-- From `h` through `l` to `t`. -/
def Seg (next : ι → Option ι) : Option ι → List ι → Option ι → Prop
  | h, [], t => h = t
  | h, a :: l, t => h = some a ∧ Seg next (next a) l t

/-- A list that ends. -/
def Linked (next : ι → Option ι) (h : Option ι) (l : List ι) : Prop := Seg next h l none

@[simp] theorem seg_nil : Seg next h [] t ↔ h = t := Iff.rfl

@[simp] theorem seg_cons : Seg next h (a :: l) t ↔ h = some a ∧ Seg next (next a) l t := Iff.rfl

theorem seg_append : Seg next h (l₁ ++ l₂) t ↔ ∃ m, Seg next h l₁ m ∧ Seg next m l₂ t := by
  induction l₁ generalizing h with
  | nil => simp
  | cons a l ih => simp [ih, and_assoc]

/-- Only the links of the nodes on the way matter. -/
theorem Seg.congr (hs : Seg next h l t) (hn : ∀ a ∈ l, next' a = next a) : Seg next' h l t := by
  induction l generalizing h with
  | nil => exact hs
  | cons a l ih =>
    refine ⟨hs.1, ?_⟩
    rw [hn a List.mem_cons_self]
    exact ih hs.2 fun b hb => hn b (List.mem_cons_of_mem _ hb)

theorem Linked.head? (hl : Linked next h l) : h = l.head? := by
  cases l with
  | nil => exact hl
  | cons a l => exact hl.1

/-- The link of a node leads to what follows it. -/
theorem Linked.next_eq (hl : Linked next h (l₁ ++ e :: l₂)) : next e = l₂.head? := by
  obtain ⟨m, _, _, h₂⟩ := seg_append.mp hl
  exact Linked.head? h₂

/-- `e` taken out: the node before it, if there is one, gets its link, else the start does. -/
theorem Linked.remove [DecidableEq ι] (hl : Linked next h (l₁ ++ e :: l₂))
    (hn : (l₁ ++ e :: l₂).Nodup)
    (hx : ∀ x ∈ l₁ ++ l₂, next' x = if l₁.getLast? = some x then next e else next x) :
    Linked next' (if l₁ = [] then next e else h) (l₁ ++ l₂) := by
  obtain ⟨m, h₁, rfl, h₂⟩ := seg_append.mp hl
  have hd : ∀ x ∈ l₁, ∀ y ∈ e :: l₂, x ≠ y := (List.nodup_append.mp hn).2.2
  have h₂' : Seg next' (next e) l₂ none := by
    refine h₂.congr fun x hxl => ?_
    rw [hx x (List.mem_append_right _ hxl), if_neg fun hlast => ?_]
    exact hd x (List.mem_of_getLast? hlast) x (List.mem_cons_of_mem _ hxl) rfl
  refine seg_append.mpr ⟨next e, ?_, h₂'⟩
  rcases List.eq_nil_or_concat' l₁ with rfl | ⟨k, p, rfl⟩
  · exact if_pos rfl
  · have hk : p ∉ k := fun hp =>
      (List.nodup_append.mp (List.nodup_append.mp hn).1).2.2 p hp p (List.mem_singleton_self p) rfl
    rw [if_neg (by simp)]
    obtain ⟨m, h₃, rfl, _⟩ := seg_append.mp h₁
    refine seg_append.mpr ⟨some p, h₃.congr fun x hxk => ?_, rfl, ?_⟩
    · rw [hx x (by simp [hxk]), if_neg]
      rw [List.getLast?_concat]
      exact fun hp => hk (Option.some.inj hp ▸ hxk)
    · rw [hx p (by simp), if_pos List.getLast?_concat]
      rfl

/-- `e` put in front. -/
theorem Linked.push (hl : Linked next h l) (he : next' e = h)
    (hx : ∀ x ∈ l, next' x = next x) : Linked next' (some e) (e :: l) :=
  ⟨rfl, he ▸ hl.congr hx⟩

/-- `e` put at the end. -/
theorem Linked.snoc [DecidableEq ι] (hl : Linked next h l) (hn : l.Nodup) (he : next' e = none)
    (hx : ∀ x ∈ l, next' x = if l.getLast? = some x then some e else next x) :
    Linked next' (h.or (some e)) (l ++ [e]) := by
  rcases List.eq_nil_or_concat' l with rfl | ⟨k, p, rfl⟩
  · obtain rfl : h = none := hl
    exact ⟨rfl, he⟩
  · have hk : p ∉ k := fun hp =>
      (List.nodup_append.mp hn).2.2 p hp p (List.mem_singleton_self p) rfl
    obtain ⟨m, h₃, rfl, _⟩ := seg_append.mp hl
    have hh : h.or (some e) = h := by
      rw [Linked.head? hl]
      cases k <;> rfl
    rw [hh]
    refine seg_append.mpr
      ⟨some e, seg_append.mpr ⟨some p, h₃.congr fun x hxk => ?_, rfl, ?_⟩, rfl, he⟩
    · rw [hx x (by simp [hxk]), if_neg]
      rw [List.getLast?_concat]
      exact fun hp => hk (Option.some.inj hp ▸ hxk)
    · rw [hx p (by simp), if_pos List.getLast?_concat]
      rfl

/-! ## Links both ways -/

/-- `l` from `first` by `next`, and back from `last` by `prev`. -/
structure DLinked (next prev : ι → Option ι) (first last : Option ι) (l : List ι) : Prop where
  fwd : Linked next first l
  bwd : Linked prev last l.reverse

theorem DLinked.next_eq (hl : DLinked next prev first last (l₁ ++ e :: l₂)) :
    next e = l₂.head? := hl.fwd.next_eq

theorem DLinked.prev_eq (hl : DLinked next prev first last (l₁ ++ e :: l₂)) :
    prev e = l₁.getLast? := by
  have h := hl.bwd
  rw [List.reverse_append, List.reverse_cons, List.append_assoc, List.singleton_append] at h
  rw [Linked.next_eq h, List.head?_reverse]

theorem DLinked.last_eq (hl : DLinked next prev first last l) : last = l.getLast? := by
  rw [hl.bwd.head?, List.head?_reverse]

/-- `e` taken out of a list with links both ways. -/
theorem DLinked.remove [DecidableEq ι] (hl : DLinked next prev first last (l₁ ++ e :: l₂))
    (hn : (l₁ ++ e :: l₂).Nodup)
    (hnext : ∀ x ∈ l₁ ++ l₂, next' x = if prev e = some x then next e else next x)
    (hprev : ∀ x ∈ l₁ ++ l₂, prev' x = if next e = some x then prev e else prev x) :
    DLinked next' prev' (if prev e = none then next e else first)
      (if next e = none then prev e else last) (l₁ ++ l₂) := by
  have hp := hl.prev_eq
  have hx := hl.next_eq
  constructor
  · have h : Linked next' (if l₁ = [] then next e else first) (l₁ ++ l₂) :=
      hl.fwd.remove hn fun x hxl => by rw [hnext x hxl, hp]
    rw [hp]
    simpa only [List.getLast?_eq_none_iff] using h
  · have hb := hl.bwd
    have hr : (l₁ ++ e :: l₂).reverse = l₂.reverse ++ e :: l₁.reverse := by simp
    rw [hr] at hb
    have h : Linked prev' (if l₂.reverse = [] then prev e else last) (l₂.reverse ++ l₁.reverse) :=
      hb.remove (hr ▸ List.nodup_reverse.mpr hn) fun x hxl => by
        rw [hprev x (by simpa [or_comm] using hxl), hx, List.getLast?_reverse]
    rw [List.reverse_append, hx]
    simpa only [List.head?_eq_none_iff, List.reverse_eq_nil_iff] using h

/-- `e` put in front of a list with links both ways. -/
theorem DLinked.push [DecidableEq ι] (hl : DLinked next prev first last l) (hn : l.Nodup)
    (hne : next' e = first) (hpe : prev' e = none) (hnext : ∀ x ∈ l, next' x = next x)
    (hprev : ∀ x ∈ l, prev' x = if first = some x then some e else prev x) :
    DLinked next' prev' (some e) (last.or (some e)) (e :: l) := by
  refine ⟨hl.fwd.push hne hnext, ?_⟩
  rw [List.reverse_cons]
  refine hl.bwd.snoc (List.nodup_reverse.mpr hn) hpe fun x hx => ?_
  rw [hprev x (List.mem_reverse.mp hx), hl.fwd.head?, List.getLast?_reverse]

end GenOS.Chain
