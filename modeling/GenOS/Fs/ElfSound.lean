import Mathlib.Data.Finset.Union
import Mathlib.Data.Nat.Bitwise
import Mathlib.Order.Interval.Finset.Nat
import GenOS.Fs.ElfValidate

/-!
# Soundness of the ELF validation

`ElfSound` says what a loader may rely on, in terms of the pages that segments span. `ElfInv` is
what the loop keeps of it for the program headers it has passed; each turn ends without a fault, and
either refuses the image or keeps the invariant.
-/

namespace GenOS

open Checked

/-! ## What an accepted image is -/

/-- The pages with a byte of the segment. -/
def ElfPhdr.pages (p : ElfPhdr) : Finset Nat :=
  (Finset.Ico p.vaddr (p.vaddr + p.memsz)).image (· / elfPageSize)

/-- The segments that are loaded: those of type `PT_LOAD` that are not empty. -/
def elfLoads (ps : List ElfPhdr) : List ElfPhdr :=
  ps.filter fun p => p.type = elfPtLoad ∧ p.memsz ≠ 0

/-- The pages of all loaded segments. -/
def elfPages (ps : List ElfPhdr) : Finset Nat := (elfLoads ps).toFinset.biUnion ElfPhdr.pages

def ElfPhdr.writable (p : ElfPhdr) : Prop := p.flags &&& elfPfW ≠ 0

def ElfPhdr.executable (p : ElfPhdr) : Prop := p.flags &&& elfPfX ≠ 0

/-- Where the entry point has to be: in bytes of the file, in an executable segment. -/
def EntryFound (entry : Nat) (ps : List ElfPhdr) : Prop :=
  ∃ p ∈ elfLoads ps, p.executable ∧ p.vaddr ≤ entry ∧ entry < p.vaddr + p.filesz

/-- The segments of an image of `size` bytes are safe to load. -/
structure SegmentsSound (size maxPages : Nat) (ps : List ElfPhdr) (pageCount : Nat) : Prop where
  inFile : ∀ p ∈ elfLoads ps, p.offset + p.filesz ≤ size ∧ p.filesz ≤ p.memsz
  inUser : ∀ p ∈ elfLoads ps, elfPageSize ≤ p.vaddr ∧ p.vaddr + p.memsz ≤ elfUserEnd
  sorted : (elfLoads ps).Pairwise fun p q => p.vaddr + p.memsz ≤ q.vaddr
  disjoint : (elfLoads ps).Pairwise fun p q => Disjoint p.pages q.pages
  noWriteExecute : ∀ p ∈ ps, p.type = elfPtLoad → ¬(p.writable ∧ p.executable)
  count : pageCount = (elfPages ps).card
  limit : pageCount ≤ maxPages

/-- The program headers of an image. -/
def elfPhdrs (buf : List (BitVec 8)) (h : ElfHeader) : List ElfPhdr :=
  (List.range h.phnum).map fun i => ElfPhdr.decode ((buf.drop (h.phoff + i * 56)).take 56)

/-! ## Masks -/

/-- Rounding down to a page. -/
theorem and_pageMask {x : Nat} (h : x < 2 ^ 64) : x &&& elfPageMask = x / 4096 * 4096 := by
  have hmask : elfPageMask = (2 ^ 52 - 1) * 2 ^ 12 := by decide
  have hsize : x / 4096 * 4096 = x / 2 ^ 12 * 2 ^ 12 := rfl
  apply Nat.eq_of_testBit_eq
  intro i
  rw [Nat.testBit_and, hmask, hsize, Nat.testBit_mul_two_pow, Nat.testBit_mul_two_pow,
    Nat.testBit_two_pow_sub_one, Nat.testBit_div_two_pow]
  rcases Nat.lt_or_ge i 12 with h1 | h1
  · simp [show ¬ 12 ≤ i by omega]
  · rcases Nat.lt_or_ge i 64 with h2 | h2
    · simp [h1, show i - 12 < 52 by omega]
    · have hx : x.testBit i = false :=
        Nat.testBit_lt_two_pow (Nat.lt_of_lt_of_le h (Nat.pow_le_pow_right (by decide) h2))
      simp [hx, h1]

theorem not_writeExecute {p : ElfPhdr}
    (h : ¬p.flags &&& (elfPfW ||| elfPfX) = elfPfW ||| elfPfX) :
    ¬(p.writable ∧ p.executable) := by
  rintro ⟨hw, hx⟩
  apply h
  unfold ElfPhdr.writable at hw
  unfold ElfPhdr.executable at hx
  change p.flags &&& 2 ^ 1 ≠ 0 at hw
  change p.flags &&& 2 ^ 0 ≠ 0 at hx
  rw [Nat.and_or_distrib_left]
  change (p.flags &&& 2 ^ 1) ||| (p.flags &&& 2 ^ 0) = 3
  rw [Nat.and_two_pow] at hw hx ⊢
  rw [Nat.and_two_pow]
  cases h1 : p.flags.testBit 1
  · rw [h1] at hw
    exact absurd rfl hw
  · cases h0 : p.flags.testBit 0
    · rw [h0] at hx
      exact absurd rfl hx
    · rfl

/-! ## Lists of program headers -/

section Lists

variable {ps : List ElfPhdr} {p : ElfPhdr}

theorem elfLoads_skip (h : ¬(p.type = elfPtLoad ∧ p.memsz ≠ 0)) :
    elfLoads (ps ++ [p]) = elfLoads ps := by
  unfold elfLoads
  rw [List.filter_append, List.filter_singleton, decide_eq_false h, cond_false, List.append_nil]

theorem elfLoads_load (h1 : p.type = elfPtLoad) (h2 : p.memsz ≠ 0) :
    elfLoads (ps ++ [p]) = elfLoads ps ++ [p] := by
  unfold elfLoads
  rw [List.filter_append, List.filter_singleton, decide_eq_true ⟨h1, h2⟩, cond_true]

/-- The pages of a segment are an interval. -/
theorem ElfPhdr.pages_eq (h : p.memsz ≠ 0) :
    p.pages = Finset.Ico (p.vaddr / 4096) ((p.vaddr + p.memsz + 4095) / 4096) := by
  ext k
  unfold ElfPhdr.pages
  rw [Finset.mem_image, Finset.mem_Ico]
  constructor
  · rintro ⟨a, ha, rfl⟩
    rw [Finset.mem_Ico] at ha
    change p.vaddr / 4096 ≤ a / 4096 ∧ a / 4096 < _
    omega
  · intro hk
    refine ⟨max p.vaddr (k * 4096), ?_, ?_⟩
    · rw [Finset.mem_Ico]
      omega
    · change max p.vaddr (k * 4096) / 4096 = k
      omega

theorem EntryFound.append {entry : Nat} (h : EntryFound entry ps) (p : ElfPhdr) :
    EntryFound entry (ps ++ [p]) := by
  obtain ⟨q, hq, hx⟩ := h
  refine ⟨q, ?_, hx⟩
  unfold elfLoads at hq ⊢
  rw [List.filter_append]
  exact List.mem_append_left _ hq

theorem elfPages_load (h1 : p.type = elfPtLoad) (h2 : p.memsz ≠ 0) :
    elfPages (ps ++ [p]) = elfPages ps ∪ p.pages := by
  unfold elfPages
  rw [elfLoads_load h1 h2, List.toFinset_append, Finset.union_biUnion]
  congr 1
  exact Finset.singleton_biUnion

end Lists

/-! ## The invariant of the loop -/

/-- What holds after the program headers `ps`. -/
structure ElfInv (size maxPages entry : Nat) (ps : List ElfPhdr) (s : ElfScan) : Prop where
  sound : SegmentsSound size maxPages ps s.pages
  aligned : s.previousEnd % 4096 = 0
  ends : ∀ p ∈ elfLoads ps, p.vaddr + p.memsz ≤ s.previousEnd
  found : s.entryFound → EntryFound entry ps

section Scan

variable {size maxPages entry : Nat} {ps : List ElfPhdr} {p : ElfPhdr} {s : ElfScan}

theorem ElfInv.nil : ElfInv size maxPages entry [] {} where
  sound := {
    inFile := fun p hp => by cases hp
    inUser := fun p hp => by cases hp
    sorted := List.Pairwise.nil
    disjoint := List.Pairwise.nil
    noWriteExecute := fun p hp => by cases hp
    count := rfl
    limit := Nat.zero_le _ }
  aligned := rfl
  ends := fun p hp => by cases hp
  found := fun h => by cases h

/-- A program header that loads nothing. -/
theorem ElfInv.skip (h : ElfInv size maxPages entry ps s)
    (hp : ¬(p.type = elfPtLoad ∧ p.memsz ≠ 0))
    (hw : p.type = elfPtLoad → ¬(p.writable ∧ p.executable)) :
    ElfInv size maxPages entry (ps ++ [p]) s where
  sound := {
    inFile := by rw [elfLoads_skip hp]; exact h.sound.inFile
    inUser := by rw [elfLoads_skip hp]; exact h.sound.inUser
    sorted := by rw [elfLoads_skip hp]; exact h.sound.sorted
    disjoint := by rw [elfLoads_skip hp]; exact h.sound.disjoint
    noWriteExecute := by
      intro q hq
      rcases List.mem_append.mp hq with hq | hq
      · exact h.sound.noWriteExecute q hq
      · rw [List.mem_singleton.mp hq]
        exact hw
    count := by
      unfold elfPages
      rw [elfLoads_skip hp]
      exact h.sound.count
    limit := h.sound.limit }
  aligned := h.aligned
  ends := by rw [elfLoads_skip hp]; exact h.ends
  found := fun hf => (h.found hf).append p

/-- A segment after the last one. -/
theorem ElfInv.load {found : Bool} (h : ElfInv size maxPages entry ps s) (ht : p.type = elfPtLoad)
    (hm : p.memsz ≠ 0) (hfile : p.offset + p.filesz ≤ size ∧ p.filesz ≤ p.memsz)
    (huser : elfPageSize ≤ p.vaddr ∧ p.vaddr + p.memsz ≤ elfUserEnd)
    (hw : ¬(p.writable ∧ p.executable)) (hfirst : s.previousEnd ≤ p.vaddr / 4096 * 4096)
    (hcount : s.pages + p.pages.card ≤ maxPages)
    (hfound : found → s.entryFound ∨
      p.executable ∧ p.vaddr ≤ entry ∧ entry < p.vaddr + p.filesz) :
    ElfInv size maxPages entry (ps ++ [p])
      { pages := s.pages + p.pages.card
        previousEnd := (p.vaddr + p.memsz + 4095) / 4096 * 4096, entryFound := found } := by
  have hends : ∀ q ∈ elfLoads ps, q.vaddr + q.memsz ≤ p.vaddr := by
    intro q hq
    have := h.ends q hq
    omega
  have hdisj : ∀ q ∈ elfLoads ps, Disjoint q.pages p.pages := by
    intro q hq
    have hqe := h.ends q hq
    have hal := h.aligned
    have hqm : q.memsz ≠ 0 := (of_decide_eq_true (List.mem_filter.mp hq).2).2
    rw [ElfPhdr.pages_eq hqm, ElfPhdr.pages_eq hm, Finset.disjoint_left]
    intro k hk hk'
    rw [Finset.mem_Ico] at hk hk'
    omega
  refine ⟨⟨?_, ?_, ?_, ?_, ?_, ?_, hcount⟩, Nat.mul_mod_left _ _, ?_, ?_⟩
  · rw [elfLoads_load ht hm]
    intro q hq
    rcases List.mem_append.mp hq with hq | hq
    · exact h.sound.inFile q hq
    · rw [List.mem_singleton.mp hq]
      exact hfile
  · rw [elfLoads_load ht hm]
    intro q hq
    rcases List.mem_append.mp hq with hq | hq
    · exact h.sound.inUser q hq
    · rw [List.mem_singleton.mp hq]
      exact huser
  · rw [elfLoads_load ht hm, List.pairwise_append]
    refine ⟨h.sound.sorted, List.pairwise_singleton _ _, ?_⟩
    intro q hq q' hq'
    rw [List.mem_singleton.mp hq']
    exact hends q hq
  · rw [elfLoads_load ht hm, List.pairwise_append]
    refine ⟨h.sound.disjoint, List.pairwise_singleton _ _, ?_⟩
    intro q hq q' hq'
    rw [List.mem_singleton.mp hq']
    exact hdisj q hq
  · intro q hq hqt
    rcases List.mem_append.mp hq with hq | hq
    · exact h.sound.noWriteExecute q hq hqt
    · rw [List.mem_singleton.mp hq]
      exact hw
  · have hunion : Disjoint (elfPages ps) p.pages := by
      unfold elfPages
      rw [Finset.disjoint_biUnion_left]
      intro q hq
      exact hdisj q (List.mem_toFinset.mp hq)
    change s.pages + p.pages.card = _
    rw [elfPages_load ht hm, Finset.card_union_of_disjoint hunion, h.sound.count]
  · rw [elfLoads_load ht hm]
    intro q hq
    change q.vaddr + q.memsz ≤ (p.vaddr + p.memsz + 4095) / 4096 * 4096
    rcases List.mem_append.mp hq with hq | hq
    · have := hends q hq
      omega
    · rw [List.mem_singleton.mp hq]
      omega
  · intro hf
    rcases hfound hf with hold | hnew
    · exact (h.found hold).append p
    · refine ⟨p, ?_, hnew⟩
      rw [elfLoads_load ht hm]
      exact List.mem_append_right _ (List.mem_singleton.mpr rfl)

/-! ## The turns of the loop -/

theorem fileRange_returns (size offset length : Nat) :
    Returns (fileRange size offset length) fun b => b = true ↔ offset + length ≤ size := by
  unfold fileRange
  split
  · next h =>
    apply (sub_returns h).bind
    rintro _ rfl
    apply Returns.pure
    rw [decide_eq_true_iff]
    omega
  · next h =>
    apply Returns.pure
    constructor
    · intro hf
      cases hf
    · intro hle
      omega

theorem alignFails_returns (p : ElfPhdr) : Returns (alignFails p) fun _ => True := by
  unfold alignFails
  split
  · next h =>
    apply (sub_returns (Nat.le_of_lt h)).bind
    intro _ _
    exact .pure trivial
  · exact .pure trivial

theorem segmentEnd_returns (huser : p.vaddr + p.memsz ≤ elfUserEnd) :
    Returns (segmentEnd p) (· = (p.vaddr + p.memsz + 4095) / 4096 * 4096) := by
  change p.vaddr + p.memsz ≤ 140737488355328 at huser
  unfold segmentEnd
  apply (add_returns (by omega)).bind
  rintro _ rfl
  apply (add_returns (by change _ + 4096 < _; omega)).bind
  rintro _ rfl
  apply (sub_returns (by change 1 ≤ _ + 4096; omega)).bind
  rintro _ rfl
  apply Returns.pure
  exact and_pageMask (by change p.vaddr + p.memsz + 4095 < _; omega)

theorem entryIn_returns (entry : Nat) (p : ElfPhdr) :
    Returns (entryIn entry p) fun b =>
      b = true → p.executable ∧ p.vaddr ≤ entry ∧ entry < p.vaddr + p.filesz := by
  unfold entryIn
  split
  · next h =>
    apply (sub_returns h.2).bind
    rintro _ rfl
    apply Returns.pure
    intro hd
    have hlt := of_decide_eq_true hd
    have hle := h.2
    exact ⟨h.1, hle, by omega⟩
  · apply Returns.pure
    intro hf
    cases hf

/-- What a turn may leave: a refusal, or the invariant. -/
def Keeps (size maxPages entry : Nat) (ps : List ElfPhdr) (o : Option ElfScan) : Prop :=
  ∀ s, o = some s → ElfInv size maxPages entry ps s

theorem Keeps.none : Keeps size maxPages entry ps none := fun _ h => by cases h

theorem Keeps.some (h : ElfInv size maxPages entry ps s) : Keeps size maxPages entry ps (some s) :=
  fun _ hs => Option.some.inj hs ▸ h

theorem countPages_returns (h : ElfInv size maxPages entry ps s) (hmax : maxPages < 2 ^ 32)
    (ht : p.type = elfPtLoad) (hm : p.memsz ≠ 0)
    (hfile : p.offset + p.filesz ≤ size ∧ p.filesz ≤ p.memsz)
    (huser : elfPageSize ≤ p.vaddr ∧ p.vaddr + p.memsz ≤ elfUserEnd)
    (hw : ¬(p.writable ∧ p.executable)) :
    Returns (countPages maxPages entry p s) (Keeps size maxPages entry (ps ++ [p])) := by
  have hend := huser.2
  change p.vaddr + p.memsz ≤ 140737488355328 at hend
  have hcard : p.pages.card = (p.vaddr + p.memsz + 4095) / 4096 - p.vaddr / 4096 := by
    rw [ElfPhdr.pages_eq hm, Nat.card_Ico]
  have hlimit := h.sound.limit
  unfold countPages
  rw [and_pageMask (by omega)]
  apply (segmentEnd_returns huser.2).bind
  rintro _ rfl
  split
  · exact .pure .none
  · next hfirst =>
    apply (sub_returns (by omega)).bind
    rintro _ rfl
    have hdiv : ((p.vaddr + p.memsz + 4095) / 4096 * 4096 - p.vaddr / 4096 * 4096) / elfPageSize =
        p.pages.card := by
      rw [hcard, ← Nat.sub_mul]
      exact Nat.mul_div_cancel _ (by decide)
    rw [hdiv]
    apply (sub_returns hlimit).bind
    rintro _ rfl
    split
    · exact .pure .none
    · next hroom =>
      apply (narrow_returns (by omega)).bind
      rintro _ rfl
      apply (add_returns (by omega)).bind
      rintro _ rfl
      apply (entryIn_returns entry p).bind
      intro found hfound
      refine .pure (.some (h.load ht hm hfile huser hw (by omega) (by omega) fun hf => ?_))
      exact (Bool.or_eq_true_iff.mp hf).imp_right hfound

theorem loadSegment_returns (h : ElfInv size maxPages entry ps s) (hmax : maxPages < 2 ^ 32)
    (ht : p.type = elfPtLoad) (hm : p.memsz ≠ 0)
    (hfile : p.offset + p.filesz ≤ size ∧ p.filesz ≤ p.memsz)
    (hw : ¬(p.writable ∧ p.executable)) :
    Returns (loadSegment maxPages entry p s) (Keeps size maxPages entry (ps ++ [p])) := by
  unfold loadSegment
  split
  · exact .pure .none
  · next hv =>
    have hlow : elfPageSize ≤ p.vaddr := by omega
    have hhigh : p.vaddr < elfUserEnd := by omega
    apply (sub_returns (Nat.le_of_lt hhigh)).bind
    rintro _ rfl
    split
    · exact .pure .none
    · next hroom =>
      split
      · exact .pure .none
      · apply (alignFails_returns p).bind
        intro fails _
        split
        · exact .pure .none
        · exact countPages_returns h hmax ht hm hfile ⟨hlow, by omega⟩ hw

/-- A turn ends without a fault, in a refusal or with the invariant. -/
theorem elfSegment_returns (h : ElfInv size maxPages entry ps s) (hmax : maxPages < 2 ^ 32)
    (p : ElfPhdr) :
    Returns (elfSegment size maxPages entry p s) (Keeps size maxPages entry (ps ++ [p])) := by
  have hnot : ∀ t, t ≠ elfPtLoad → p.type = t → Keeps size maxPages entry (ps ++ [p]) (some s) := by
    rintro t ht rfl
    exact .some (h.skip (fun hl => ht hl.1) fun hl => absurd hl ht)
  unfold elfSegment
  split
  · next h0 => exact .pure (hnot 0 (by decide) h0)
  · split
    · exact .pure .none
    · split
      · exact .pure .none
      · apply (fileRange_returns _ _ _).bind
        intro inFile hrange
        split
        · exact .pure .none
        · next hin =>
          split
          · next ht => exact .pure (hnot _ ht rfl)
          · next ht =>
            have ht' : p.type = elfPtLoad := not_not.mp ht
            split
            · exact .pure .none
            · next hbad =>
              rw [not_or, not_or] at hbad
              obtain ⟨hsz, -, hwx⟩ := hbad
              have hw := not_writeExecute hwx
              split
              · next hempty => exact .pure (.some (h.skip (fun hl => hl.2 hempty) fun _ => hw))
              · next hm =>
                have hfile := hrange.mp (by simpa using hin)
                exact loadSegment_returns h hmax ht' hm ⟨hfile, Nat.le_of_not_lt hsz⟩ hw

end Scan

/-! ## The whole image -/

section Image

variable {binary maxPages : Nat} {buf : List (BitVec 8)} {h : ElfHeader}

theorem sectionTableValid_returns (h : ElfHeader) (size : Nat) :
    Returns (sectionTableValid h size) fun _ => True := by
  unfold sectionTableValid
  split
  · exact .pure trivial
  · split
    · next hs =>
      have hlt : h.shnum * 64 < 2 ^ 64 := by omega
      apply (mul_returns hlt).bind
      rintro _ rfl
      exact (fileRange_returns _ _ _).mono fun _ _ => trivial
    · exact .pure trivial

/-- A table that is read lies in the file. -/
theorem headerValid_returns (h : ElfHeader) (size : Nat) :
    Returns (headerValid h size) fun b => b = true → h.phoff + h.phnum * 56 ≤ size := by
  have hno : Returns (Pure.pure false : Except Fault Bool) fun b =>
      b = true → h.phoff + h.phnum * 56 ≤ size := by
    apply Returns.pure
    intro hf
    cases hf
  unfold headerValid
  split
  · exact hno
  · next hbad =>
    have hnum : h.phnum ≤ elfMaxProgramHeaders := by
      by_contra hn
      exact hbad (by omega)
    have hmul : h.phnum * 56 < 2 ^ 64 := by
      change h.phnum ≤ 128 at hnum
      omega
    apply (mul_returns hmul).bind
    rintro _ rfl
    apply (fileRange_returns _ _ _).bind
    intro inFile hrange
    split
    · next hin =>
      apply (sectionTableValid_returns h size).bind
      intro _ _
      exact .pure fun _ => hrange.mp hin
    · exact hno

theorem readPhdr_returns (hb : binary + buf.length < 2 ^ 64)
    (ht : h.phoff + h.phnum * 56 ≤ buf.length) {i : Nat} (hi : i < h.phnum) :
    Returns (readPhdr binary buf h.phoff i)
      (· = ElfPhdr.decode ((buf.drop (h.phoff + i * 56)).take 56)) := by
  have hoff : binary + h.phoff + i * 56 - binary = h.phoff + i * 56 := by omega
  unfold readPhdr
  apply (add_returns (by omega)).bind
  rintro _ rfl
  apply (mul_returns (by omega)).bind
  rintro _ rfl
  apply (add_returns (by omega)).bind
  rintro _ rfl
  apply (copyOut_returns (by omega) (by omega)).bind
  rintro _ rfl
  rw [hoff]
  exact .pure rfl

/-- The loop from `i` on, after the first `i` program headers. -/
theorem elfLoop_returns (hb : binary + buf.length < 2 ^ 64) (hmax : maxPages < 2 ^ 32)
    (ht : h.phoff + h.phnum * 56 ≤ buf.length) {n i : Nat} (hni : i + n = h.phnum) {s : ElfScan}
    (hs : ElfInv buf.length maxPages h.entry
      ((List.range i).map fun i => ElfPhdr.decode ((buf.drop (h.phoff + i * 56)).take 56)) s) :
    Returns (elfLoop binary buf maxPages h n i s)
      (Keeps buf.length maxPages h.entry (elfPhdrs buf h)) := by
  induction n generalizing i s with
  | zero =>
    obtain rfl : i = h.phnum := hni
    exact .pure (.some hs)
  | succ n ih =>
    unfold elfLoop
    apply (readPhdr_returns hb ht (by omega)).bind
    rintro _ rfl
    apply (elfSegment_returns hs hmax _).bind
    intro o ho
    cases o with
    | none => exact .pure .none
    | some s' =>
      apply ih (by omega)
      have hs' := ho s' rfl
      rw [List.range_succ, List.map_append]
      exact hs'

end Image

/-- An image that was accepted, with what the loader relies on: it does not reach the end of the
address space, its program headers are in the file, and its segments are safe to load. -/
structure ElfAccepted (binary maxPages : Nat) (buf : List (BitVec 8)) (h : ElfHeader)
    (pageCount : Nat) : Prop where
  fits : binary + buf.length < 2 ^ 64
  table : h.phoff + h.phnum * 56 ≤ buf.length
  sound : SegmentsSound buf.length maxPages (elfPhdrs buf h) pageCount
  found : EntryFound h.entry (elfPhdrs buf h)

/-- **`elf_validate`** refuses the image and leaves `*info` as it was, or it accepts the image. -/
theorem elfValidate_cases (binary : BitVec 64) (buf : List (BitVec 8)) (maxPages : BitVec 32)
    (info : Option ElfImageInfo) :
    elfValidate binary buf maxPages info = .ok (false, info) ∨
    ∃ pageCount, elfValidate binary buf maxPages info = .ok (true, info.map fun _ =>
        { header := ElfHeader.decode (buf.take 64), pageCount := pageCount }) ∧
      ElfAccepted binary.toNat maxPages.toNat buf (ElfHeader.decode (buf.take 64)) pageCount := by
  have hret : Returns (elfValidate binary buf maxPages info) fun r => r = (false, info) ∨
      ∃ pageCount, r = (true, info.map fun _ =>
          { header := ElfHeader.decode (buf.take 64), pageCount := pageCount }) ∧
        ElfAccepted binary.toNat maxPages.toNat buf (ElfHeader.decode (buf.take 64)) pageCount := by
    have hlt := binary.isLt
    unfold elfValidate
    split
    · exact .pure (.inl rfl)
    · next hlen =>
      apply (sub_returns (by omega)).bind
      rintro _ rfl
      split
      · exact .pure (.inl rfl)
      · next hroom =>
        apply (copyOut_returns (Nat.le_refl _) (by omega)).bind
        rintro _ rfl
        rw [Nat.sub_self, List.drop_zero]
        apply (headerValid_returns _ _).bind
        intro valid hvalid
        split
        · exact .pure (.inl rfl)
        · next hv =>
          have ht := hvalid (by simpa using hv)
          have hfits : binary.toNat + buf.length < 2 ^ 64 := by omega
          apply (elfLoop_returns hfits maxPages.isLt ht (Nat.zero_add _) ElfInv.nil).bind
          intro o ho
          cases o with
          | none => exact .pure (.inl rfl)
          | some s =>
            dsimp only
            split
            · next hf =>
              exact .pure (.inr ⟨_, rfl, hfits, ht, (ho s rfl).sound, (ho s rfl).found hf⟩)
            · exact .pure (.inl rfl)
  obtain ⟨r, hr, rfl | ⟨n, rfl, h⟩⟩ := hret
  · exact .inl hr
  · exact .inr ⟨n, hr, h⟩

/-- The validation ends without a fault: nothing wraps, and nothing outside the image is read. It
refuses the image and leaves `*info` as it was, or accepts it; then the segments are safe to load,
`*info` holds their page count, and the entry point is in one of them. -/
theorem elf_validate_sound (binary : BitVec 64) (buf : List (BitVec 8)) (maxPages : BitVec 32)
    (info : Option ElfImageInfo) :
    elfValidate binary buf maxPages info = .ok (false, info) ∨
    ∃ pageCount, elfValidate binary buf maxPages info = .ok (true, info.map fun _ =>
        { header := ElfHeader.decode (buf.take 64), pageCount := pageCount }) ∧
      SegmentsSound buf.length maxPages.toNat
        (elfPhdrs buf (ElfHeader.decode (buf.take 64))) pageCount ∧
      EntryFound (ElfHeader.decode (buf.take 64)).entry
        (elfPhdrs buf (ElfHeader.decode (buf.take 64))) := by
  rcases elfValidate_cases binary buf maxPages info with hr | ⟨n, hr, h⟩
  · exact .inl hr
  · exact .inr ⟨n, hr, h.sound, h.found⟩

end GenOS
