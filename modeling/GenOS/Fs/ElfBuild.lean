import GenOS.Fs.ElfLoad
import GenOS.Fs.ElfSound
import GenOS.Mm.NewPage

/-!
# What the loader builds

`imagePages` are the pages of an image: the pages of its segments in order, each with the flags of
its segment and the bytes of the file that fall into it. The loader builds them one after the other,
each loop as a prefix of this list (`Loading`), and ends where the frames end.
-/

namespace GenOS

open Checked Phys

/-! ## The pages of an image -/

/-- The bytes of the file in the page at `va`. -/
def elfSlice (buf : List (BitVec 8)) (p : ElfPhdr) (va : Nat) : List (BitVec 8) :=
  (buf.drop (p.offset + (max va p.vaddr - p.vaddr))).take
    (min (va + 4096) (p.vaddr + p.filesz) - max va p.vaddr)

def elfPageIn (buf : List (BitVec 8)) (p : ElfPhdr) (va : Nat) : PageIn where
  va := va
  flags := elfPageFlags p
  content := WordBytes.write (fun _ => 0#64) (max va p.vaddr - va) (elfSlice buf p va)

/-- `n` pages of a segment, from the one at `va` on. -/
def elfPagesFrom (buf : List (BitVec 8)) (p : ElfPhdr) (va n : Nat) : List PageIn :=
  (List.range n).map fun i => elfPageIn buf p (va + i * 4096)

def elfSegmentPages (buf : List (BitVec 8)) (p : ElfPhdr) : List PageIn :=
  elfPagesFrom buf p (p.vaddr / 4096 * 4096) ((p.vaddr + p.memsz + 4095) / 4096 - p.vaddr / 4096)

def imagePages (buf : List (BitVec 8)) (ps : List ElfPhdr) : List PageIn :=
  (elfLoads ps).flatMap (elfSegmentPages buf)

/-- What the validation says about a segment that is loaded. -/
structure SegmentFits (binary : Nat) (buf : List (BitVec 8)) (p : ElfPhdr) : Prop where
  image : binary + buf.length < 2 ^ 64
  inFile : p.offset + p.filesz ≤ buf.length
  size : p.filesz ≤ p.memsz
  user : p.vaddr + p.memsz ≤ 0x800000000000

variable {binary : Nat} {buf : List (BitVec 8)} {p : ElfPhdr} {ps : List ElfPhdr} {va n : Nat}
variable {C : List Nat}

theorem elfPageFlags_ok (p : ElfPhdr) : elfPageFlags p &&& ~~~pteFlagMask = 0#64 ∧
    (elfPageFlags p).has ptePresent = true ∧ (elfPageFlags p).has pteCow = false ∧
    Perm.ofEntry (elfPageFlags p) =
      ⟨true, decide (p.flags &&& elfPfW ≠ 0), decide (p.flags &&& elfPfX ≠ 0)⟩ := by
  simp only [elfPageFlags]
  by_cases hw : p.flags &&& elfPfW ≠ 0
  · rw [if_pos hw, decide_eq_true hw]
    by_cases hx : p.flags &&& elfPfX = 0
    · rw [if_pos hx, decide_eq_false (not_not.mpr hx)]
      decide
    · rw [if_neg hx, decide_eq_true hx]
      decide
  · rw [if_neg hw, decide_eq_false hw]
    by_cases hx : p.flags &&& elfPfX = 0
    · rw [if_pos hx, decide_eq_false (not_not.mpr hx)]
      decide
    · rw [if_neg hx, decide_eq_true hx]
      decide

theorem elfPageIn_ok (ha : va % 4096 = 0) (hu : va < 0x800000000000) : (elfPageIn buf p va).Ok :=
  have h := elfPageFlags_ok p
  ⟨ha, hu, h.1, h.2.1, h.2.2.1⟩

theorem elfFileBytes_returns (h : SegmentFits binary buf p) (hva : va < 0x800000000000) :
    Returns (elfFileBytes binary buf p va) (· = (max va p.vaddr - va, elfSlice buf p va)) := by
  obtain ⟨h1, h2, h3, h4⟩ := h
  have hstart : (if va < p.vaddr then p.vaddr else va) = max va p.vaddr := by
    split
    · omega
    · omega
  unfold elfFileBytes
  simp only [hstart]
  apply (add_returns (by change va + 4096 < _; omega)).bind
  rintro _ rfl
  apply (add_returns (by omega)).bind
  rintro _ rfl
  have hend : (if p.vaddr + p.filesz < va + elfPageSize then p.vaddr + p.filesz
      else va + elfPageSize) = min (va + 4096) (p.vaddr + p.filesz) := by
    change (if p.vaddr + p.filesz < va + 4096 then _ else va + 4096) = _
    split
    · omega
    · omega
  rw [hend]
  apply (sub_returns (by omega)).bind
  rintro _ rfl
  split
  · next hlt =>
    apply (add_returns (by omega)).bind
    rintro _ rfl
    apply (sub_returns (by omega)).bind
    rintro _ rfl
    apply (add_returns (by omega)).bind
    rintro _ rfl
    apply (sub_returns (Nat.le_of_lt hlt)).bind
    rintro _ rfl
    apply (copyOut_returns (by omega) (by omega)).bind
    rintro _ rfl
    have hoff : binary + p.offset + (max va p.vaddr - p.vaddr) - binary =
        p.offset + (max va p.vaddr - p.vaddr) := by omega
    rw [hoff]
    exact .pure rfl
  · next hge =>
    refine .pure ?_
    unfold elfSlice
    rw [Nat.sub_eq_zero_of_le (Nat.not_lt.mp hge), List.take_zero]

/-! ## Loading -/

/-- The owner with these records. -/
def Owner.withPages (t : Owner) (records : List PageRecord) :
    Owner := { t with userPages := records }

/-- What the loader comes to with the pages `L`: they are built, or the frames ended before. Then
the records name all pages that were taken, the last of which may not be mapped. -/
inductive Loading (s₀ : Phys) (os₁ os₂ : List Owner) (t₀ t : Owner) (shared rest : List Nat)
    (L : List PageIn) : Bool × Phys × List PageRecord → Prop
  | done {s : Phys} {records : List PageRecord} (paid : Paid s₀ s L)
    (build : Building s₀ s os₁ os₂ t₀ (t.withPages records) shared rest [] L) :
    Loading s₀ os₁ os₂ t₀ t shared rest L (true, s, records)
  | short {s : Phys} {mapped lost : List PageRecord} {L' : List PageIn} (short : Short s₀ L)
    (fits : (mapped ++ lost).length ≤ L.length)
    (build : Building s₀ s os₁ os₂ t₀ (t.withPages mapped) shared rest
      (lost.map PageRecord.phys) L') :
    Loading s₀ os₁ os₂ t₀ t shared rest L (false, s, mapped ++ lost)

section Loading

variable {s₀ s : Phys} {os₁ os₂ : List Owner} {t₀ t : Owner} {shared rest : List Nat}
variable {L : List PageIn} {records : List PageRecord}

theorem pageNumbers_append (A B : List PageIn) : pageNumbers A ⊆ pageNumbers (A ++ B) := by
  intro v hv
  rw [pageNumbers, List.mem_toFinset] at hv ⊢
  rw [List.map_append]
  exact List.mem_append_left _ hv

theorem Phys.Short.append {A : List PageIn} (h : Short s₀ A) (B : List PageIn) :
    Short s₀ (A ++ B) := by
  obtain ⟨k, hk, hg⟩ := h
  exact ⟨k, Nat.lt_of_lt_of_le hk (framesFor_mono (pageNumbers_append A B)), hg⟩

/-- There are as many records as pages. -/
theorem Phys.Building.length (h : Building s₀ s os₁ os₂ t₀ (t.withPages records) shared rest C L) :
    records.length = L.length := h.built.pages.length_eq

/-- After a failure nothing more is loaded. -/
theorem Loading.stop {A : List PageIn} {x : Phys × List PageRecord}
    (h : Loading s₀ os₁ os₂ t₀ t shared rest A (false, x)) (B : List PageIn) :
    Loading s₀ os₁ os₂ t₀ t shared rest (A ++ B) (false, x) := by
  cases h with
  | short hs hl hb =>
    refine .short (hs.append B) (Nat.le_trans hl ?_) hb
    rw [List.length_append]
    exact Nat.le_add_right ..

theorem zeroFrame_fillFrame (s : Phys) (f i : Nat) (l : List (BitVec 8)) :
    (s.zeroFrame f).fillFrame f i l =
      { s with mem := Cells.set s.mem f (WordBytes.write (fun _ => 0#64) i l) } := by
  simp only [zeroFrame, fillFrame]
  rw [Cells.set_self, Cells.set_idem]

/-- A turn of the loop over the pages loads a page. -/
theorem elfLoadPage_returns (hp : Paid s₀ s L)
    (h : Building s₀ s os₁ os₂ t₀ (t.withPages records) shared rest [] L)
    (hfit : SegmentFits binary buf p) (ha : va % 4096 = 0) (hu : va < 0x800000000000)
    (hnew : ∀ y ∈ L, y.va ≠ va) : Returns (elfLoadPage binary buf t.pml4 p va s records)
      (Loading s₀ os₁ os₂ t₀ t shared rest (L ++ [elfPageIn buf p va])) := by
  have hlen := h.length
  have hle : L.length ≤ (L ++ [elfPageIn buf p va]).length := by
    rw [List.length_append]
    exact Nat.le_add_right ..
  have hone : ∀ r : PageRecord,
      (records ++ [r]).length ≤ (L ++ [elfPageIn buf p va]).length := fun r => by
    rw [List.length_append, List.length_append, hlen]
    exact Nat.le_refl _
  unfold elfLoadPage
  rcases newPage_spec h hp (elfPageIn_ok ha hu) hnew with ⟨he, hs, hb⟩ | ⟨f, s₁, he, h0, hmap⟩
  · rw [he]
    refine .pure ?_
    have hx := @Loading.short _ _ _ _ _ _ _ _ _ _ [] _ hs
      (by rw [List.append_nil, hlen]; exact hle) hb
    rwa [List.append_nil] at hx
  rw [he]
  dsimp only
  rw [if_neg h0]
  apply (elfFileBytes_returns hfit hu).bind
  rintro _ rfl
  dsimp only
  rw [zeroFrame_fillFrame]
  rcases hmap with ⟨s', hm, hs, hb⟩ | ⟨s', hm, hpaid, hb⟩
  · have hb' : Building s₀ s' os₁ os₂ t₀ (t.withPages records) shared rest
        ([(⟨f, va⟩ : PageRecord)].map PageRecord.phys) L := hb
    have hm' : Phys.vmmMapPageIn { s₁ with mem := Cells.set s₁.mem f (elfPageIn buf p va).content }
        t.pml4 va (BitVec.ofNat 64 f) (elfPageFlags p) = (false, s') := hm
    unfold elfPageIn at hm'
    rw [hm']
    exact .pure (.short hs (hone _) hb')
  · have hm' : Phys.vmmMapPageIn { s₁ with mem := Cells.set s₁.mem f (elfPageIn buf p va).content }
        t.pml4 va (BitVec.ofNat 64 f) (elfPageFlags p) = (true, s') := hm
    unfold elfPageIn at hm'
    rw [hm']
    exact .pure (.done hpaid hb)

theorem elfPagesFrom_succ : elfPagesFrom buf p va (n + 1) =
    elfPageIn buf p va :: elfPagesFrom buf p (va + 4096) n := by
  unfold elfPagesFrom
  rw [List.range_succ_eq_map, List.map_cons, List.map_map, Nat.zero_mul, Nat.add_zero]
  congr 1
  refine List.map_congr_left fun i _ => ?_
  change elfPageIn buf p (va + (i + 1) * 4096) = _
  rw [Nat.add_mul, Nat.one_mul, Nat.add_comm (i * 4096), Nat.add_assoc]

/-- A page after others, in a list without repetitions. -/
theorem new_of_nodup {x : PageIn} {B : List PageIn} (h : ((L ++ x :: B).map PageIn.va).Nodup) :
    ∀ y ∈ L, y.va ≠ x.va := by
  rw [List.map_append, List.map_cons] at h
  exact fun y hy => (List.nodup_append.mp h).2.2 _ (List.mem_map_of_mem hy) _ List.mem_cons_self

/-- The loop over the pages of a segment. -/
theorem elfLoadPages_returns (hfit : SegmentFits binary buf p) (hp : Paid s₀ s L)
    (h : Building s₀ s os₁ os₂ t₀ (t.withPages records) shared rest [] L) (ha : va % 4096 = 0)
    (hu : va + n * 4096 < 0x800000000001)
    (hnd : ((L ++ elfPagesFrom buf p va n).map PageIn.va).Nodup) :
    Returns (elfLoadPages binary buf t.pml4 p n va s records)
      (Loading s₀ os₁ os₂ t₀ t shared rest (L ++ elfPagesFrom buf p va n)) := by
  induction n generalizing va s L records with
  | zero =>
    rw [show elfPagesFrom buf p va 0 = [] from rfl, List.append_nil]
    exact .pure (.done hp h)
  | succ n ih =>
    rw [elfPagesFrom_succ] at hnd ⊢
    unfold elfLoadPages
    have hpage := elfLoadPage_returns hp h hfit ha (by omega) (new_of_nodup hnd)
    rw [List.append_cons] at hnd ⊢
    apply hpage.bind
    intro x hx
    cases hx with
    | done hp h =>
      have hal : (va + 4096) % 4096 = 0 := by omega
      have hend : va + 4096 + n * 4096 < 140737488355329 := by omega
      exact ih hp h hal hend hnd
    | short hs hl hb => exact .pure (Loading.stop (.short hs hl hb) _)

/-- A turn of the loop over the program headers. -/
theorem elfLoadSegment_returns (hfit : p.memsz ≠ 0 → SegmentFits binary buf p)
    (hv : p.vaddr < 2 ^ 64) (ht : p.type = elfPtLoad) (hp : Paid s₀ s L)
    (h : Building s₀ s os₁ os₂ t₀ (t.withPages records) shared rest [] L)
    (hnd : ((L ++ imagePages buf [p]).map PageIn.va).Nodup) :
    Returns (elfLoadSegment binary buf t.pml4 p s records)
      (Loading s₀ os₁ os₂ t₀ t shared rest (L ++ imagePages buf [p])) := by
  unfold elfLoadSegment
  by_cases hm : p.memsz = 0
  · have hno : imagePages buf [p] = [] := by
      unfold imagePages elfLoads
      rw [List.filter_singleton, decide_eq_false fun hc => hc.2 hm]
      rfl
    rw [hno, List.append_nil]
    apply (add_returns (by omega)).bind
    rintro _ rfl
    rw [if_pos hm]
    exact .pure (.done hp h)
  · have hone : imagePages buf [p] = elfSegmentPages buf p := by
      unfold imagePages elfLoads
      rw [List.filter_singleton, decide_eq_true ⟨ht, hm⟩]
      exact List.flatMap_singleton _ _
    obtain hfit := hfit hm
    have hu := hfit.user
    rw [hone] at hnd ⊢
    rw [and_pageMask hv]
    apply (add_returns (by omega)).bind
    rintro _ rfl
    rw [if_neg hm]
    apply (sub_returns (by omega)).bind
    rintro _ rfl
    have hn : (p.vaddr + p.memsz - p.vaddr / 4096 * 4096 + 4095) / elfPageSize =
        (p.vaddr + p.memsz + 4095) / 4096 - p.vaddr / 4096 := by
      change (p.vaddr + p.memsz - p.vaddr / 4096 * 4096 + 4095) / 4096 = _
      omega
    rw [hn]
    exact elfLoadPages_returns hfit hp h (Nat.mul_mod_left _ _) (by omega) hnd

theorem imagePages_append (ps qs : List ElfPhdr) :
    imagePages buf (ps ++ qs) = imagePages buf ps ++ imagePages buf qs := by
  unfold imagePages elfLoads
  rw [List.filter_append, List.flatMap_append]

/-- The program header `i` of an image. -/
def elfPhdrAt (buf : List (BitVec 8)) (phoff i : Nat) : ElfPhdr :=
  ElfPhdr.decode ((buf.drop (phoff + i * 56)).take 56)

/-- The loop over the program headers, from `i` on. -/
theorem elfLoadLoop_returns {h : ElfHeader} {i : Nat} (hb : binary + buf.length < 2 ^ 64)
    (ht : h.phoff + h.phnum * 56 ≤ buf.length) (hni : i + n ≤ h.phnum)
    (hfit : ∀ p ∈ elfLoads ((List.range' i n).map (elfPhdrAt buf h.phoff)),
      SegmentFits binary buf p) (hp : Paid s₀ s L)
    (hbuild : Building s₀ s os₁ os₂ t₀ (t.withPages records) shared rest [] L)
    (hnd : ((L ++ imagePages buf ((List.range' i n).map (elfPhdrAt buf h.phoff))).map
      PageIn.va).Nodup) :
    Returns (elfLoadLoop binary buf t.pml4 h.phoff n i s records)
      (Loading s₀ os₁ os₂ t₀ t shared rest
        (L ++ imagePages buf ((List.range' i n).map (elfPhdrAt buf h.phoff)))) := by
  induction n generalizing i s L records with
  | zero =>
    rw [show imagePages buf ((List.range' i 0).map (elfPhdrAt buf h.phoff)) = [] from rfl,
      List.append_nil]
    exact .pure (.done hp hbuild)
  | succ n ih =>
    have hlist : (List.range' i (n + 1)).map (elfPhdrAt buf h.phoff) =
        [elfPhdrAt buf h.phoff i] ++ (List.range' (i + 1) n).map (elfPhdrAt buf h.phoff) := rfl
    rw [hlist] at hfit hnd ⊢
    rw [imagePages_append, ← List.append_assoc] at hnd ⊢
    have hfit' : ∀ p ∈ elfLoads ((List.range' (i + 1) n).map (elfPhdrAt buf h.phoff)),
        SegmentFits binary buf p := fun p hm => hfit p (by
      unfold elfLoads at hm ⊢
      rw [List.filter_append]
      exact List.mem_append_right _ hm)
    unfold elfLoadLoop
    apply (readPhdr_returns hb ht (by omega)).bind
    intro p hpe
    obtain rfl : p = elfPhdrAt buf h.phoff i := hpe
    split
    · next htype =>
      have hseg : (elfPhdrAt buf h.phoff i).memsz ≠ 0 →
          SegmentFits binary buf (elfPhdrAt buf h.phoff i) := fun hm => hfit _ (by
        unfold elfLoads
        rw [List.filter_append, List.filter_singleton, decide_eq_true ⟨htype, hm⟩]
        exact List.mem_append_left _ (List.mem_singleton_self _))
      have hnd' := hnd
      rw [List.map_append] at hnd'
      apply (elfLoadSegment_returns hseg (Bytes.load_lt ..) htype hp hbuild
        (List.nodup_append.mp hnd').1).bind
      intro x hx
      cases hx with
      | done hp hbuild => exact ih (by omega) hfit' hp hbuild hnd
      | short hs hl hbuild => exact .pure (Loading.stop (.short hs hl hbuild) _)
    · next htype =>
      have hno : imagePages buf [elfPhdrAt buf h.phoff i] = [] := by
        unfold imagePages elfLoads
        rw [List.filter_singleton, decide_eq_false fun hc => htype hc.1]
        rfl
      rw [hno, List.append_nil] at hnd ⊢
      exact ih (by omega) hfit' hp hbuild hnd

end Loading

/-! ## The pages of an accepted image -/

section Accepted

variable {maxPages pageCount size : Nat} {h : ElfHeader}

/-- The numbers of the pages of a segment, in order. -/
theorem elfSegmentPages_numbers (buf : List (BitVec 8)) (p : ElfPhdr) :
    (elfSegmentPages buf p).map (fun x => x.va / 4096) =
      List.range' (p.vaddr / 4096) ((p.vaddr + p.memsz + 4095) / 4096 - p.vaddr / 4096) := by
  unfold elfSegmentPages elfPagesFrom
  rw [List.map_map, List.range'_eq_map_range]
  refine List.map_congr_left fun i _ => ?_
  change (p.vaddr / 4096 * 4096 + i * 4096) / 4096 = p.vaddr / 4096 + i
  omega

theorem mem_elfSegmentPages (hm : p.memsz ≠ 0) {v : Nat} :
    v ∈ (elfSegmentPages buf p).map (fun x => x.va / 4096) ↔ v ∈ p.pages := by
  rw [elfSegmentPages_numbers, List.mem_range'_1, ElfPhdr.pages_eq hm, Finset.mem_Ico]
  omega

theorem memsz_ne_zero (hp : p ∈ elfLoads ps) : p.memsz ≠ 0 :=
  (of_decide_eq_true (List.mem_filter.mp hp).2).2

theorem imagePages_numbers (buf : List (BitVec 8)) (ps : List ElfPhdr) :
    (imagePages buf ps).map (fun x => x.va / 4096) =
      (elfLoads ps).flatMap fun p => (elfSegmentPages buf p).map fun x => x.va / 4096 :=
  List.map_flatMap ..

theorem pageNumbers_image (buf : List (BitVec 8)) (ps : List ElfPhdr) :
    pageNumbers (imagePages buf ps) = elfPages ps := by
  ext v
  rw [pageNumbers, List.mem_toFinset, imagePages_numbers, List.mem_flatMap, elfPages,
    Finset.mem_biUnion]
  refine exists_congr fun p => ?_
  rw [List.mem_toFinset]
  exact and_congr_right fun hp => mem_elfSegmentPages (memsz_ne_zero hp)

/-- No page is loaded twice. -/
theorem SegmentsSound.nodup (hs : SegmentsSound size maxPages ps pageCount)
    (buf : List (BitVec 8)) :
    ((imagePages buf ps).map fun x => x.va / 4096).Nodup := by
  rw [imagePages_numbers, List.nodup_flatMap]
  refine ⟨fun p _ => ?_, hs.disjoint.imp_of_mem fun hp hq hd => ?_⟩
  · rw [elfSegmentPages_numbers]
    exact List.nodup_range'
  · intro v h1 h2
    exact Finset.disjoint_left.mp hd ((mem_elfSegmentPages (memsz_ne_zero hp)).mp h1)
      ((mem_elfSegmentPages (memsz_ne_zero hq)).mp h2)

theorem SegmentsSound.length (hs : SegmentsSound size maxPages ps pageCount)
    (buf : List (BitVec 8)) :
    (imagePages buf ps).length = pageCount := by
  have hcard := List.toFinset_card_of_nodup (hs.nodup buf)
  rw [List.length_map] at hcard
  rw [← hcard, hs.count, ← pageNumbers_image buf ps]
  rfl

end Accepted

end GenOS
