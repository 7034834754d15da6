import Mathlib.Algebra.BigOperators.Group.Finset.Piecewise
import Mathlib.Algebra.Order.BigOperators.Group.Finset
import Mathlib.Data.Finset.Union
import GenOS.Mm.SpaceRules
import GenOS.Mm.VmmPlain

/-!
# Building an address space

A process is built page by page: a frame is taken, recorded, filled and mapped. `Built s t L` says
that the pages of the owner `t` are `L`, in this order, and `newPage_spec` adds one page. What a
list of pages costs is `framesFor`: a frame for each page and for each table.
-/

namespace GenOS.Phys

open Radix Pmm

variable {s s' s'' : Phys} {t t' : Owner} {os os' os₁ os₂ : List Owner}
variable {shared rest rest' A B C : List Nat} {f n va : Nat}

/-! ## Work for one owner -/

/-- Work that turns the frames `gone` into the frames `new`; neither the kernel nor the owners `os`
see anything of it. -/
structure Work (s s' : Phys) (os : List Owner) (gone new : List Nat) : Prop where
  kernel : s'.kernelPml4 = s.kernelPml4
  mem : ∀ g ∈ s.kernelTables, s'.mem g = s.mem g
  moves : Moves s.pmm s'.pmm gone new
  unaffected : ∀ u ∈ os, Unaffected s s' u

namespace Work

theorem refl (h : s.pmm.Inv) : Work s s os A A := ⟨rfl, fun _ _ => rfl, .refl h, fun _ _ => .refl⟩

theorem comp (h : Work s s' os A B) (h' : Work s' s'' os B C) : Work s s'' os A C := by
  refine ⟨h'.kernel.trans h.kernel, fun g hg => ?_, h.moves.comp h'.moves, fun u hu =>
    (h.unaffected u hu).trans (h'.unaffected u hu)⟩
  rw [h'.mem g (by rwa [kernelTables_of_mem h.kernel h.mem]), h.mem g hg]

theorem congr {A' B' : List Nat} (h : Work s s' os A B)
    (he : ∀ a, s.pmm.Tracked a → A.count a + B'.count a = B.count a + A'.count a) :
    Work s s' os A' B' := ⟨h.kernel, h.mem, h.moves.congr he, h.unaffected⟩

theorem perm {A' B' : List Nat} (h : Work s s' os A B) (hA : A.Perm A') (hB : B.Perm B') :
    Work s s' os A' B' := ⟨h.kernel, h.mem, h.moves.perm hA hB, h.unaffected⟩

theorem frame (h : Work s s' os A B) (C : List Nat) : Work s s' os (A ++ C) (B ++ C) :=
  ⟨h.kernel, h.mem, h.moves.frame C, h.unaffected⟩

theorem mono (h : Work s s' os A B) (ho : ∀ u ∈ os', u ∈ os) : Work s s' os' A B :=
  ⟨h.kernel, h.mem, h.moves, fun u hu => h.unaffected u (ho u hu)⟩

end Work

theorem Spaces.take_work {new : List Nat} (h : Spaces s os shared rest) (ht : Taken s s' new) :
    Work s s' os [] new :=
  ⟨ht.kernel, fun _ hg => ht.mem_used (h.kernel.tree.used_table hg), ht.moves, (h.take ht).2⟩

theorem Spaces.change_work (h : Spaces s (os₁ ++ t :: os₂) shared rest)
    (hc : Change s s' t t' shared rest rest') :
    Work s s' (os₁ ++ os₂) (owned s t ++ rest) (owned s' t' ++ rest') :=
  ⟨hc.kernel, h.kernel_mem hc, hc.moves, fun _ hu => h.unaffected hc hu⟩

/-- A frame is taken and filled. -/
theorem taken_fill {p : Pmm} (hf : s.pmm.FreeAt f) (hm : Moves s.pmm p [] [f]) (m : Nat)
    (content : WordBytes.Block) :
    Taken s { s with pmm := p, asked := m, mem := Cells.set s.mem f content } [f] :=
  ⟨hm, fun g hg => by rw [List.mem_singleton.mp hg]; exact hf, List.nodup_singleton f,
    fun g hg => Cells.set_of_ne (fun he => hg (List.mem_singleton.mpr he)) _ _, rfl⟩

/-! ## What pages cost -/

/-- The frames for a set of pages, given by their numbers: those for the pages, and the tables of
each level. -/
def framesFor (pages : Finset Nat) : Nat :=
  ∑ l ∈ Finset.range 4, (pages.image (· / 512 ^ l)).card

theorem framesFor_mono {V W : Finset Nat} (h : V ⊆ W) : framesFor V ≤ framesFor W :=
  Finset.sum_le_sum fun _ _ => Finset.card_le_card (Finset.image_subset_image h)

/-- One more page costs a frame for itself, and one for each table that is missing. -/
theorem framesFor_insert {V : Finset Nat} {v : Nat} (hv : v ∉ V) (hn : n ≤ 3)
    (h : ∀ l, 1 ≤ l → l ≤ 3 → (l ≤ n ↔ ∀ w ∈ V, w / 512 ^ l ≠ v / 512 ^ l)) :
    framesFor (insert v V) = framesFor V + (n + 1) := by
  have hcard : ∀ l ∈ Finset.range 4, ((insert v V).image (· / 512 ^ l)).card =
      (V.image (· / 512 ^ l)).card + if l ≤ n then 1 else 0 := fun l hl => by
    rw [Finset.image_insert, Finset.card_insert_eq_ite]
    have hmem : v / 512 ^ l ∈ V.image (· / 512 ^ l) ↔ ¬ l ≤ n := by
      rw [Finset.mem_image]
      rcases Nat.eq_zero_or_pos l with rfl | h1
      · simp only [Nat.pow_zero, Nat.div_one]
        refine iff_of_false ?_ (by omega)
        rintro ⟨w, hw, rfl⟩
        exact hv hw
      · rw [h l h1 (by have := Finset.mem_range.mp hl; omega)]
        push Not
        rfl
    by_cases hl : l ≤ n
    · rw [if_neg (by rw [hmem]; exact not_not.mpr hl), if_pos hl]
    · rw [if_pos (hmem.mpr hl), if_neg hl, Nat.add_zero]
  have hlow : (Finset.range 4).filter (· ≤ n) = Finset.range (n + 1) := by
    ext l
    rw [Finset.mem_filter, Finset.mem_range, Finset.mem_range]
    omega
  unfold framesFor
  rw [Finset.sum_congr rfl hcard, Finset.sum_add_distrib, ← Finset.card_filter, hlow,
    Finset.card_range]

/-! ## The pages of an owner -/

/-- A page to build. -/
structure PageIn where
  va : Nat
  flags : Word
  content : WordBytes.Block

/-- A page that can be built. -/
structure PageIn.Ok (x : PageIn) : Prop where
  aligned : x.va % 4096 = 0
  user : x.va < 0x800000000000
  flag : x.flags &&& ~~~pteFlagMask = 0#64
  present : x.flags.has ptePresent = true
  cow : x.flags.has pteCow = false

theorem PageIn.Ok.top {x : PageIn} (h : x.Ok) : x.va + 1 * 4096 ≤ 0x800000000000 := by
  have h1 := h.aligned
  have h2 := h.user
  exact Nat.le_of_lt_succ (by omega)

/-- The numbers of the pages. -/
def pageNumbers (L : List PageIn) : Finset Nat := (L.map fun x => x.va / 4096).toFinset

/-- The record `p` is of the page `x`. -/
structure PageOk (s : Phys) (r : Nat) (p : PageRecord) (x : PageIn) : Prop where
  vaddr : p.vaddr = x.va
  content : s.mem p.phys = x.content
  mapped : ∃ above, above.length = 3 ∧ (∀ e ∈ above, Permissive e) ∧
    s.lookup r (indexAt x.va) = some (above ++ [BitVec.ofNat 64 p.phys ||| x.flags])

/-- The pages of the owner are `L`, and nothing else is mapped. -/
structure Built (s : Phys) (t : Owner) (L : List PageIn) : Prop where
  pages : List.Forall₂ (PageOk s t.pml4) t.userPages L
  only : ∀ k, pageShape.InRange k → k 3 ∈ lowerHalf.idx → s.lookup t.pml4 k ≠ none →
    ∃ x ∈ L, AtPage k x.va
  plain : s.Plain t.pml4
  ok : ∀ x ∈ L, x.Ok

variable {L : List PageIn} {x : PageIn}

theorem exists_of_mem_right {α β : Type} {R : α → β → Prop} {l : List α} {m : List β}
    (h : List.Forall₂ R l m) {b : β} (hb : b ∈ m) : ∃ a ∈ l, R a b := by
  induction h with
  | nil => cases hb
  | cons hr _ ih =>
    rcases List.mem_cons.mp hb with rfl | hb
    · exact ⟨_, List.mem_cons_self, hr⟩
    · obtain ⟨a, ha, hra⟩ := ih hb
      exact ⟨a, List.mem_cons_of_mem _ ha, hra⟩

/-- The indices from a level on give the region of that level. -/
theorem region_iff {a b l : Nat} (ha : a < 0x800000000000) (hb : b < 0x800000000000) (h1 : 1 ≤ l)
    (h3 : l ≤ 3) : (∀ j, l ≤ j → j ≤ 3 → indexAt a j = indexAt b j) ↔
      a / 4096 / 512 ^ l = b / 4096 / 512 ^ l := by
  have hall : (∀ j, l ≤ j → j ≤ 3 → indexAt a j = indexAt b j) ↔
      (l ≤ 1 → indexAt a 1 = indexAt b 1) ∧ (l ≤ 2 → indexAt a 2 = indexAt b 2) ∧
        indexAt a 3 = indexAt b 3 := by
    constructor
    · exact fun h => ⟨fun hl => h 1 hl (by decide), fun hl => h 2 hl (by decide),
        h 3 h3 (by decide)⟩
    · rintro ⟨g1, g2, g3⟩ j hj hj3
      have : j = 1 ∨ j = 2 ∨ j = 3 := by omega
      rcases this with rfl | rfl | rfl
      · exact g1 hj
      · exact g2 hj
      · exact g3
  rw [hall]
  simp only [indexAt]
  have : l = 1 ∨ l = 2 ∨ l = 3 := by omega
  rcases this with rfl | rfl | rfl
  · omega
  · omega
  · omega

namespace Built

/-- The pages of an owner say which tables are missing. -/
theorem noneBelow (h : Built s t L) (hva : va < 0x800000000000) {l : Nat}
    (h1 : 1 ≤ l) (h3 : l ≤ 3) :
    s.NoneBelow t.pml4 va l ↔ ∀ w ∈ pageNumbers L, w / 512 ^ l ≠ va / 4096 / 512 ^ l := by
  constructor
  · intro hn w hw he
    rw [pageNumbers, List.mem_toFinset, List.mem_map] at hw
    obtain ⟨x, hx, rfl⟩ := hw
    have hxu := (h.ok x hx).user
    obtain ⟨p, -, hp⟩ := exists_of_mem_right h.pages hx
    obtain ⟨above, -, -, hl⟩ := hp.mapped
    rw [hn _ (inRange_indexAt _) (index_lower hxu) ((region_iff hxu hva h1 h3).mpr he)] at hl
    cases hl
  · intro hw k hk hkI hagree
    by_contra hne
    obtain ⟨x, hx, hat⟩ := h.only k hk hkI hne
    refine hw (x.va / 4096) (List.mem_toFinset.mpr (List.mem_map_of_mem hx)) ?_
    refine (region_iff (h.ok x hx).user hva h1 h3).mp fun j hj hj3 => ?_
    rw [← hat j hj3, hagree j hj hj3]

/-- Pages whose lookups and contents are as before. -/
theorem keep (h : Built s t L)
    (hl : ∀ x ∈ L, s'.lookup t.pml4 (indexAt x.va) = s.lookup t.pml4 (indexAt x.va))
    (hp : ∀ p ∈ t.userPages, s'.mem p.phys = s.mem p.phys) :
    List.Forall₂ (PageOk s' t.pml4) t.userPages L := by
  have hleft := (List.forall₂_and_left _ _).mpr ⟨hp, h.pages⟩
  have hboth := (List.forall₂_and_left _ _).mpr ⟨hl, hleft.flip⟩
  refine hboth.flip.imp fun p x ⟨h1, h2, h3⟩ => ⟨h3.vaddr, h2.trans h3.content, ?_⟩
  obtain ⟨above, g1, g2, g3⟩ := h3.mapped
  exact ⟨above, g1, g2, h1.trans g3⟩

/-- The lookups and the pages are as before. -/
theorem of_view (h : Built s t L) (hv : SameView t.pml4 lowerHalf s s')
    (hp : ∀ p ∈ t.userPages, s'.mem p.phys = s.mem p.phys) : Built s' t L :=
  ⟨h.keep (fun x hx => hv _ (inRange_indexAt _) (index_lower (h.ok x hx).user)) hp,
    fun k hk hkI hne => h.only k hk hkI (by rwa [← hv k hk hkI]), h.plain.of_view hv, h.ok⟩

theorem of_mem (h : Built s t L) (hm : ∀ g ∈ s.tables t.pml4 lowerHalf, s'.mem g = s.mem g)
    (hp : ∀ p ∈ t.userPages, s'.mem p.phys = s.mem p.phys) : Built s' t L :=
  h.of_view (fun _ hk hkI => lookup_of_mem hm hk hkI) hp

/-- The lookup of a page that was built finds something. -/
theorem lookup_ne_none (h : Built s t L) (hx : x ∈ L) : s.lookup t.pml4 (indexAt x.va) ≠ none := by
  obtain ⟨p, -, hp⟩ := exists_of_mem_right h.pages hx
  obtain ⟨above, -, -, hl⟩ := hp.mapped
  rw [hl]
  exact Option.some_ne_none _

/-- One more page. -/
theorem add (h : Built s t L) {above : List Word}
    (hm : Mapped t.pml4 lowerHalf s [] s' x.va (BitVec.ofNat 64 f) x.flags above)
    (hperm : ∀ e ∈ above, Permissive e) (hp : ∀ p ∈ t.userPages, s'.mem p.phys = s.mem p.phys)
    (hc : s'.mem f = x.content) (hx : x.Ok) (ht : t'.pml4 = t.pml4)
    (hr : t'.userPages = t.userPages ++ [⟨f, x.va⟩]) : Built s' t' (L ++ [x]) := by
  refine ⟨?_, fun k hk hkI hne => ?_, ht ▸ hm.plain h.plain hperm, fun y hy => ?_⟩
  · rw [hr, ht]
    refine List.rel_append (h.keep (fun y hy => ?_) hp)
      (.cons ⟨rfl, hc, above, hm.length, hperm, ?_⟩ .nil)
    · -- it is another page, since it was mapped before
      rw [hm.view _ (inRange_indexAt _) (index_lower (h.ok y hy).user)]
      refine if_neg fun hat => h.lookup_ne_none hy ?_
      rw [← hm.before]
      exact path_key hat
    · rw [hm.view _ (inRange_indexAt _) (index_lower hx.user), if_pos fun _ _ => rfl]
  · rw [ht, hm.view k hk hkI] at hne
    split at hne
    · next hat => exact ⟨x, List.mem_append_right _ (List.mem_singleton_self x), hat⟩
    · obtain ⟨y, hy, hat⟩ := h.only k hk hkI hne
      exact ⟨y, List.mem_append_left _ hy, hat⟩
  · exact (List.mem_append.mp hy).elim (h.ok y) fun hy => List.mem_singleton.mp hy ▸ hx

end Built

/-- An address space without user pages. -/
theorem Built.nil (h : ∀ i < 256, s.mem t.pml4 i = 0#64) (hr : t.userPages = []) :
    Built s t [] := by
  have hnone : ∀ k : Nat → Nat, k 3 ∈ lowerHalf.idx → s.lookup t.pml4 k = none := fun k hkI =>
    path_of_dead (by rw [h _ (mem_lowerHalf.mp hkI)]; exact dead_zero)
  refine ⟨by rw [hr]; exact .nil, fun k _ hkI hne => absurd (hnone k hkI) hne,
    fun k _ hkI es he => ?_,
    nofun⟩
  rw [hnone k hkI] at he
  cases he

/-! ## One more page -/

/-- From `s₀` on the owner `t₀` became `t`, with the pages `L`; the frames `lost` were taken for it
too, but are not mapped. -/
structure Building (s₀ s : Phys) (os₁ os₂ : List Owner) (t₀ t : Owner) (shared rest lost : List Nat)
    (L : List PageIn) : Prop where
  spaces : Spaces s (os₁ ++ t :: os₂) shared (lost ++ rest)
  built : Built s t L
  work : Work s₀ s (os₁ ++ os₂) (owned s₀ t₀) (lost ++ owned s t)

/-- The frames for the pages `L` were asked for, and granted. -/
structure Paid (s₀ s : Phys) (L : List PageIn) : Prop where
  spent : Spent s₀ s (framesFor (pageNumbers L))
  granted : ∀ k < framesFor (pageNumbers L), s₀.Granted k

/-- There are not enough frames for the pages `L`. -/
def Short (s₀ : Phys) (L : List PageIn) : Prop := ∃ k < framesFor (pageNumbers L), ¬ s₀.Granted k

variable {s₀ : Phys} {t₀ : Owner}

theorem pageNumbers_snoc : pageNumbers (L ++ [x]) = insert (x.va / 4096) (pageNumbers L) := by
  ext v
  simp [pageNumbers]

theorem Paid.nil (s : Phys) : Paid s s [] := ⟨.refl s, fun _ hk => absurd hk (Nat.not_lt_zero _)⟩

namespace Building

theorem start (h : Spaces s (os₁ ++ t :: os₂) shared rest) (hb : Built s t []) :
    Building s s os₁ os₂ t t shared rest [] [] := ⟨h, hb, .refl h.inv⟩

theorem mem (_ : Building s₀ s os₁ os₂ t₀ t shared rest A L) : t ∈ os₁ ++ t :: os₂ :=
  List.mem_append_right _ List.mem_cons_self

/-- The frames of the pages are in use, and no tables. -/
theorem page_frame (h : Building s₀ s os₁ os₂ t₀ t shared rest A L) {p : PageRecord}
    (hp : p ∈ t.userPages) : ¬ s.pmm.FreeAt p.phys ∧ p.phys ∉ s.tables t.pml4 lowerHalf := by
  have hm := List.mem_map_of_mem (f := PageRecord.phys) hp
  exact ⟨h.spaces.not_free (mem_held_page h.mem hm), fun hg =>
    (h.spaces.apart _ (mem_allTables h.mem hg)).2 t h.mem hm⟩

/-- Frames are taken, and filled. -/
theorem take {new : List Nat} (h : Building s₀ s os₁ os₂ t₀ t shared rest A L)
    (ht : Taken s s' new) : Building s₀ s' os₁ os₂ t₀ t shared rest (new ++ A) L := by
  have htab : ∀ g ∈ s.tables t.pml4 lowerHalf, s'.mem g = s.mem g := fun g hg =>
    ht.mem_used (h.spaces.used_table (mem_allTables h.mem hg))
  have hown : owned s' t = owned s t := by
    unfold owned
    rw [tables_of_mem htab]
  refine ⟨?_, h.built.of_mem htab fun p hp => ht.mem_used (h.page_frame hp).1, ?_⟩
  · rw [List.append_assoc]
    exact (h.spaces.take ht).1
  · have hw := ((h.spaces.take_work ht).mono fun u hu => mem_middle hu).frame (A ++ owned s t)
    rw [hown, List.append_assoc]
    exact h.work.comp hw

/-- The tables are worked on; `t'` has the records that go with them. -/
theorem change {A' : List Nat} {L' : List PageIn} (h : Building s₀ s os₁ os₂ t₀ t shared rest A L)
    (hc : Change s s' t t' shared (A ++ rest) (A' ++ rest)) (hb : Built s' t' L') :
    Building s₀ s' os₁ os₂ t₀ t' shared rest A' L' := by
  refine ⟨h.spaces.update hc, hb, h.work.comp ((h.spaces.change_work hc).congr fun a _ => ?_)⟩
  simp only [List.count_append]
  omega

/-- What was behind the pages is there after such work. -/
theorem page_mem (h : Building s₀ s os₁ os₂ t₀ t shared rest A L) {B : List Nat}
    (hc : Change s s' t t' shared (A ++ rest) B) : ∀ p ∈ t.userPages,
      s'.mem p.phys = s.mem p.phys :=
  fun _ hp => hc.mem _ (h.page_frame hp).2 (h.page_frame hp).1

end Building

/-- A page that is not there yet is not mapped. -/
theorem Built.lookup_none (h : Built s t L) (hx : x.Ok) (hnew : ∀ y ∈ L, y.va ≠ x.va) :
    s.lookup t.pml4 (indexAt x.va) = none := by
  by_contra hne
  obtain ⟨y, hy, hat⟩ := h.only _ (inRange_indexAt _) (index_lower hx.user) hne
  have hpage := page_of_indexAt hat hx.user (h.ok y hy).user
  have h1 := hx.aligned
  have h2 := (h.ok y hy).aligned
  exact hnew y hy (by omega)

/-- What it costs to add a page. -/
theorem Built.cost (h : Built s t L) (hx : x.Ok) (hnew : ∀ y ∈ L, y.va ≠ x.va) (hn : n ≤ 3)
    (hiff : ∀ l, 1 ≤ l → l ≤ 3 → (l ≤ n ↔ s.NoneBelow t.pml4 x.va l)) :
    framesFor (pageNumbers (L ++ [x])) = framesFor (pageNumbers L) + (n + 1) := by
  rw [pageNumbers_snoc]
  refine framesFor_insert (fun hm => ?_) hn fun l h1 h3 => (hiff l h1 h3).trans
    (h.noneBelow hx.user h1 h3)
  rw [pageNumbers, List.mem_toFinset, List.mem_map] at hm
  obtain ⟨y, hy, he⟩ := hm
  have h1 := (h.ok y hy).aligned
  have h2 := hx.aligned
  exact hnew y hy (by omega)

/-- The records with one more page. -/
theorem OwnerOk.recorded_snoc (ho : OwnerOk s t shared) (hx : x.Ok) (hs : s.pmm.totalPages ≤ 2 ^ 40)
    (hf : s.pmm.Tracked f) (hnone : s.lookup t.pml4 (indexAt x.va) = none) :
    Records { t with userPages := t.userPages ++ [⟨f, x.va⟩] } shared s.pmm.Tracked
      ((s.translate t.pml4).insert x.va [BitVec.ofNat 64 f] x.flags) := by
  have hal := hx.aligned
  have hlt : f < 2 ^ 64 := by
    have h1 := hf.lt
    have h2 := hf.aligned
    exact Nat.lt_trans (show f < 2 ^ 53 by omega) (by decide)
  have htop : x.va + [(⟨f, x.va⟩ : PageRecord)].length * 4096 ≤ 0x800000000000 := by
    rw [List.length_singleton]
    exact hx.top
  have hfree : ∀ va, InRange x.va [(⟨f, x.va⟩ : PageRecord)].length va →
      s.translate t.pml4 va = none := fun va ⟨h1, h2⟩ => by
    rw [List.length_singleton] at h2
    rw [translate_page (show va / 4096 = x.va / 4096 by omega)]
    exact translate_of_none hnone
  have hv : ∀ (i : Nat) (q : PageRecord), [(⟨f, x.va⟩ : PageRecord)][i]? = some q →
      q.vaddr = x.va + i * 4096 := fun i q hq => by
    cases i with
    | zero =>
      cases hq
      rw [Nat.zero_mul, Nat.add_zero]
    | succ i => simp at hq
  have htr : ∀ q ∈ [(⟨f, x.va⟩ : PageRecord)], s.pmm.Tracked q.phys ∧
      q.phys < 2 ^ 64 := fun q hq => by
    rw [List.mem_singleton.mp hq]
    exact ⟨hf, hlt⟩
  have hins : Records { t with userPages := t.userPages ++ [⟨f, x.va⟩] } shared s.pmm.Tracked
      ((s.translate t.pml4).insert x.va
        ([(⟨f, x.va⟩ : PageRecord)].map fun p => BitVec.ofNat 64 p.phys) x.flags) :=
    ho.recorded.insert hal htop hfree hv htr (fun _ => hx.cow) rfl rfl
  exact hins

/-- **A frame that was taken and filled is mapped**, as far as there are frames for the tables. -/
theorem Building.mapPage (h : Building s₀ s os₁ os₂ t₀ t shared rest [f] L) (hf : s.pmm.Tracked f)
    (hc : s.mem f = x.content) (hx : x.Ok) (hnew : ∀ y ∈ L, y.va ≠ x.va) :
    ∃ n, framesFor (pageNumbers (L ++ [x])) = framesFor (pageNumbers L) + (n + 1) ∧
      ((∃ s', s.vmmMapPageIn t.pml4 x.va (BitVec.ofNat 64 f) x.flags = (false, s') ∧
          (∃ k < n, ¬ s.Granted k) ∧ Building s₀ s' os₁ os₂ t₀ t shared rest [f] L) ∨
        ∃ s', s.vmmMapPageIn t.pml4 x.va (BitVec.ofNat 64 f) x.flags = (true, s') ∧
          (∀ k < n, s.Granted k) ∧ Spent s s' n ∧
          Building s₀ s' os₁ os₂ t₀
            { t with userPages := t.userPages ++ [⟨f, x.va⟩] } shared rest []
            (L ++ [x])) := by
  have hI := index_lower hx.user
  have ho := h.spaces.owner t h.mem
  have hnone := h.built.lookup_none hx hnew
  have hlt : f < 2 ^ 52 := by
    have h1 := hf.lt
    have h2 := h.spaces.small
    omega
  have hargs : MapArgs x.va (BitVec.ofNat 64 f) x.flags :=
    ⟨canonical_lower hx.user, hx.aligned, Word.address_ofNat hf.aligned hlt, hx.flag, hx.present,
      fun _ => hx.user⟩
  obtain ⟨n, hn, hiff, hcount⟩ := h.built.plain.mapPage_count ho.tree ho.full ho.root hI hargs hnone
  refine ⟨n, h.built.cost hx hnew hn hiff, ?_⟩
  rcases mapPage_spec ho.tree ho.root hI (BitVec.ofNat 64 f) x.flags with
    ⟨s', he, hu⟩ | ⟨s', above, he, hmp⟩
  · rw [he] at hcount
    obtain ⟨-, hshort⟩ := hcount.resolve_right fun hc => by cases hc.1
    have hed : Edited s s' t.pml4 (s.translate t.pml4) := ⟨hu.eff, hu.full ho.full, fun b hb =>
      translate_congr (hu.view _ (inRange_indexAt b) (index_lower hb))⟩
    have hch : Change s s' t t shared ([f] ++ rest) ([f] ++ rest) :=
      hed.change h.spaces rfl ho.recorded (.refl _)
    exact .inl ⟨s', he, hshort, h.change hch (h.built.of_view hu.view (h.page_mem hch))⟩
  · rw [he] at hcount
    obtain ⟨-, hall, h1, h2⟩ := hcount.resolve_left fun hc => by cases hc.1
    have hway : ∀ fl, s.tablesMissing fl x.va 3 t.pml4 ≠ none := fun fl => by
      obtain ⟨m, -, hmiss, -⟩ := tablesMissing_spec h.built.plain ho.tree ho.full hI (.refl 3 _)
      rw [hmiss fl]
      exact Option.some_ne_none _
    have hperm := mapPage_permissive ho.tree hI hway he hmp
    have hed :=
      (hmp.range hI).edited ho (show UserRange x.va 1 from ⟨Nat.one_pos, hx.aligned, hx.top⟩)
    have hrec := ho.recorded_snoc hx h.spaces.small hf hnone
    have hch : Change s s' t { t with userPages := t.userPages ++ [⟨f, x.va⟩] } shared ([f] ++ rest)
        ([] ++ rest) := hed.change h.spaces rfl hrec (by
      rw [List.map_append, List.append_assoc]
      exact List.Perm.refl _)
    refine .inr ⟨s', he, hall, ⟨h1, hmp.eff.deny, h2⟩, h.change hch ?_⟩
    -- the frame is no table
    have hfm : f ∈ shared ++ ([f] ++ rest) := List.mem_append_right _ List.mem_cons_self
    refine h.built.add hmp hperm (h.page_mem hch)
      ((hch.mem f (fun hg => ?_) ?_).trans hc) hx rfl rfl
    · exact (h.spaces.apart f (mem_allTables h.mem hg)).1 hfm
    · exact h.spaces.not_free (mem_held_others hfm)

/-- **A new page**: a frame is taken for it, filled, and mapped, as far as there are frames. -/
theorem newPage_spec (h : Building s₀ s os₁ os₂ t₀ t shared rest [] L) (hp : Paid s₀ s L)
    (hx : x.Ok) (hnew : ∀ y ∈ L, y.va ≠ x.va) :
    (s.allocFrame = (0, { s with asked := s.asked + 1 }) ∧ Short s₀ (L ++ [x]) ∧
      Building s₀ { s with asked := s.asked + 1 } os₁ os₂ t₀ t shared rest [] L) ∨
    ∃ f s₁, s.allocFrame = (f, s₁) ∧ f ≠ 0 ∧
      ((∃ s', Phys.vmmMapPageIn { s₁ with mem := Cells.set s₁.mem f x.content } t.pml4 x.va
          (BitVec.ofNat 64 f) x.flags = (false, s') ∧ Short s₀ (L ++ [x]) ∧
          Building s₀ s' os₁ os₂ t₀ t shared rest [f] L) ∨
        ∃ s', Phys.vmmMapPageIn { s₁ with mem := Cells.set s₁.mem f x.content } t.pml4 x.va
            (BitVec.ofNat 64 f) x.flags = (true, s') ∧ Paid s₀ s' (L ++ [x]) ∧
          Building s₀ s' os₁ os₂ t₀
            { t with userPages := t.userPages ++ [⟨f, x.va⟩] } shared rest []
            (L ++ [x])) := by
  rcases allocFrame_count h.spaces.inv with ⟨hg, ha⟩ | ⟨hg, f, p, ha, h0, hf, hm, hfree⟩
  · have ho := h.spaces.owner t h.mem
    obtain ⟨n, hn, -, hiff⟩ := tablesMissing_spec h.built.plain ho.tree ho.full
      (index_lower hx.user) (.refl 3 _)
    have hcost := h.built.cost hx hnew hn hiff
    have ht : Taken s { s with asked := s.asked + 1 } [] :=
      ⟨.refl h.spaces.inv, nofun, .nil, fun _ _ => rfl, rfl⟩
    exact .inl ⟨ha, ⟨framesFor (pageNumbers L), by omega, fun hc =>
      hg ((hp.spent.granted 0).mpr hc)⟩, h.take ht⟩
  refine .inr ⟨f, _, ha, h0, ?_⟩
  have ht := taken_fill hf hm (s.asked + 1) x.content
  have hspent : Spent s { s with
      pmm := p, asked := s.asked + 1, mem := Cells.set s.mem f x.content } 1 := ⟨rfl, rfl, hfree⟩
  have hfc : Cells.set s.mem f x.content f = x.content := Cells.set_self ..
  obtain ⟨n, hcost, hmap⟩ := (h.take ht).mapPage (hm.tracked.mpr hf.1) hfc hx hnew
  have hpaid := hp.spent.trans hspent
  rcases hmap with ⟨s', he, ⟨k, hk, hkg⟩, hb⟩ | ⟨s', he, hall, hs, hb⟩
  · refine .inl ⟨s', he, ⟨framesFor (pageNumbers L) + 1 + k, by omega, fun hc => ?_⟩, hb⟩
    exact hkg ((hpaid.granted k).mpr hc)
  · refine .inr ⟨s', he, ⟨?_, fun k hk => ?_⟩, hb⟩
    · rw [hcost, Nat.add_comm n, ← Nat.add_assoc]
      exact hpaid.trans hs
    · rcases Nat.lt_trichotomy k (framesFor (pageNumbers L)) with hlt | rfl | hgt
      · exact hp.granted k hlt
      · exact (hp.spent.granted 0).mp hg
      · have := (hpaid.granted (k - framesFor (pageNumbers L) - 1)).mp (hall _ (by omega))
        rwa [show framesFor (pageNumbers L) + 1 + (k - framesFor (pageNumbers L) - 1) = k by omega]
          at this

end GenOS.Phys
