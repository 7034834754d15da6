import GenOS.Fs.ElfBuild
import GenOS.Mm.FreshSpace

/-!
# The image in memory

`ElfImage` says what a loaded image is, byte by byte, for the program headers of the file. It
follows from `Built`, which lists the pages that the loader made (`ElfImage.of_built`).
-/

namespace GenOS

open Checked Phys Pmm Radix

/-! ## A built page, as a user sees it -/

namespace Phys

variable {s : Phys} {t : Owner} {L : List PageIn} {x : PageIn} {p : PageRecord} {r va : Nat}
  {shared : List Nat}

theorem PageOk.lookup (h : PageOk s r p x) (hva : va / 4096 = x.va / 4096) :
    ∃ above, above.length = 3 ∧ (∀ e ∈ above, Permissive e) ∧
      s.lookup r (indexAt va) = some (above ++ [BitVec.ofNat 64 p.phys ||| x.flags]) := by
  obtain ⟨above, h1, h2, h3⟩ := h.mapped
  refine ⟨above, h1, h2, ?_⟩
  rw [← h3]
  exact path_key (indexAt_page hva)

/-- What is read and permitted in a page that was built. -/
theorem Built.page (h : Built s t L) (ho : OwnerOk s t shared) (hs : s.pmm.totalPages ≤ 2 ^ 40)
    (hx : x ∈ L) (hva : va / 4096 = x.va / 4096) :
    s.byteAt t.pml4 va = some (WordBytes.get x.content (va % 4096)) ∧
      ∃ es, s.lookup t.pml4 (indexAt va) = some es ∧ Perm.effective es = Perm.ofEntry x.flags := by
  obtain ⟨p, hp, hpx⟩ := exists_of_mem_right h.pages hx
  obtain ⟨above, h3, hperm, hl⟩ := hpx.lookup hva
  have hok := h.ok x hx
  have hf := (ho.records p hp).tracked
  have hlt : p.phys < 2 ^ 52 := by
    have := hf.lt
    omega
  have hb := Word.built (Word.address_ofNat hf.aligned hlt) hok.flag
  refine ⟨?_, _, hl, Perm.effective_of_permits (fun e he => hperm e he _) (Perm.ofEntry_built hb)⟩
  obtain ⟨a, b, c, rfl⟩ := List.length_eq_three.mp h3
  have hcan : canonical va = true := canonical_lower (by
    have := hok.user
    have := hok.aligned
    omega)
  have htr : s.translate t.pml4 va = some (BitVec.ofNat 64 p.phys, x.flags) := by
    unfold translate
    rw [hcan, if_pos rfl, hl]
    show some (vmmPteAddress (BitVec.ofNat 64 p.phys ||| x.flags),
      (BitVec.ofNat 64 p.phys ||| x.flags) &&& pteFlagMask) = _
    rw [hb.address, hb.flag]
  unfold byteAt
  rw [htr, Option.map_some, toNat_address hs hf, hpx.content]

theorem Built.mapped_iff (h : Built s t L) (ho : OwnerOk s t shared)
    (hs : s.pmm.totalPages ≤ 2 ^ 40) (hva : va < 0x800000000000) :
    s.translate t.pml4 va ≠ none ↔ va / 4096 ∈ pageNumbers L := by
  rw [pageNumbers, List.mem_toFinset, List.mem_map]
  constructor
  · intro hne
    have hlook : s.lookup t.pml4 (indexAt va) ≠ none := fun hc => hne (translate_of_none hc)
    obtain ⟨x, hx, hat⟩ := h.only _ (inRange_indexAt va) (index_lower hva) hlook
    exact ⟨x, hx, (page_of_indexAt hat hva (h.ok x hx).user).symm⟩
  · rintro ⟨x, hx, he⟩ hno
    have hb := (h.page ho hs hx he.symm).1
    unfold byteAt at hb
    rw [hno] at hb
    cases hb

end Phys

/-! ## The pages of a segment -/

section Segment

variable {binary : Nat} {buf : List (BitVec 8)} {p : ElfPhdr} {ps : List ElfPhdr} {v b k : Nat}

theorem length_elfSlice (hf : p.offset + p.filesz ≤ buf.length) (va : Nat) :
    (elfSlice buf p va).length = min (va + 4096) (p.vaddr + p.filesz) - max va p.vaddr := by
  unfold elfSlice
  rw [List.length_take, List.length_drop]
  omega

/-- The bytes of a page: those of the file, and zeros. -/
theorem elfPageIn_get (hf : p.offset + p.filesz ≤ buf.length) (hk : k < 4096) :
    WordBytes.get (elfPageIn buf p b).content k =
      if p.vaddr ≤ b + k ∧ b + k < p.vaddr + p.filesz then
        buf.getD (p.offset + (b + k - p.vaddr)) 0 else 0 := by
  show WordBytes.get (WordBytes.write _ _ _) k = _
  rw [WordBytes.get_write, length_elfSlice hf, WordBytes.get_zero]
  by_cases hin : p.vaddr ≤ b + k ∧ b + k < p.vaddr + p.filesz
  · rw [if_pos hin, if_pos (by omega)]
    have hlt : k - (max b p.vaddr - b) <
        min (b + 4096) (p.vaddr + p.filesz) - max b p.vaddr := by omega
    unfold elfSlice
    rw [List.getD_eq_getElem?_getD, List.getElem?_take_of_lt hlt, List.getElem?_drop,
      ← List.getD_eq_getElem?_getD]
    congr 1
    omega
  · rw [if_neg hin, if_neg (by omega)]
    rfl

/-- Every page with a byte of a segment is built for it. -/
theorem mem_imagePages (hp : p ∈ elfLoads ps) (hv : v ∈ p.pages) :
    elfPageIn buf p (v * 4096) ∈ imagePages buf ps := by
  refine List.mem_flatMap.mpr ⟨p, hp, ?_⟩
  rw [ElfPhdr.pages_eq (memsz_ne_zero hp), Finset.mem_Ico] at hv
  refine List.mem_map.mpr ⟨v - p.vaddr / 4096, List.mem_range.mpr (by omega), ?_⟩
  have hva : p.vaddr / 4096 * 4096 + (v - p.vaddr / 4096) * 4096 = v * 4096 := by omega
  rw [hva]

theorem mem_elfPages : v ∈ elfPages ps ↔ ∃ p ∈ elfLoads ps, v ∈ p.pages := by
  unfold elfPages
  simp only [Finset.mem_biUnion, List.mem_toFinset]

end Segment

/-! ## The image -/

/-- The image with the program headers `ps` is in the address space `r`, and its pages have the
records `records`. -/
structure ElfImage (buf : List (BitVec 8)) (ps : List ElfPhdr) (s : Phys) (r : Nat)
    (records : List PageRecord) : Prop where
  /-- Exactly the pages of the segments are mapped. -/
  mapped : ∀ va < 0x800000000000, s.translate r va ≠ none ↔ va / 4096 ∈ elfPages ps
  /-- Each of them has a record. -/
  recorded : ∀ v, v ∈ records.map (fun p => p.vaddr / 4096) ↔ v ∈ elfPages ps
  once : (records.map fun p => p.vaddr / 4096).Nodup
  frames : ∀ p ∈ records, p.vaddr % 4096 = 0 ∧
    ∃ flags, s.translate r p.vaddr = some (BitVec.ofNat 64 p.phys, flags)
  bytes : ∀ p ∈ elfLoads ps, ∀ i < p.filesz,
    s.byteAt r (p.vaddr + i) = some (buf.getD (p.offset + i) 0)
  zeros : ∀ va, va / 4096 ∈ elfPages ps →
    (∀ p ∈ elfLoads ps, ¬ (p.vaddr ≤ va ∧ va < p.vaddr + p.filesz)) → s.byteAt r va = some 0
  /-- What the hardware permits is what the segment says. -/
  permissions : ∀ p ∈ elfLoads ps, ∀ va, va / 4096 ∈ p.pages → ∃ es,
    s.lookup r (indexAt va) = some es ∧
      Perm.effective es =
        ⟨true, decide (p.flags &&& elfPfW ≠ 0), decide (p.flags &&& elfPfX ≠ 0)⟩

/-- The pages of an accepted image, built, are the image. -/
theorem ElfImage.of_built {s : Phys} {t : Owner} {shared : List Nat} {buf : List (BitVec 8)}
    {ps : List ElfPhdr} {maxPages pageCount : Nat} (h : Built s t (imagePages buf ps))
    (ho : OwnerOk s t shared) (hs : s.pmm.totalPages ≤ 2 ^ 40)
    (hsound : SegmentsSound buf.length maxPages ps pageCount) :
    ElfImage buf ps s t.pml4 t.userPages := by
  have hva : ∀ {records : List PageRecord} {L : List PageIn},
      List.Forall₂ (PageOk s t.pml4) records L →
      records.map (fun p => p.vaddr / 4096) = L.map fun x => x.va / 4096 := fun hf => by
    induction hf with
    | nil => rfl
    | cons hr _ ih => rw [List.map_cons, List.map_cons, hr.vaddr, ih]
  have hnumbers := hva h.pages
  -- the page at `va`, for a segment that has it
  have hpage : ∀ p ∈ elfLoads ps, ∀ va, va / 4096 ∈ p.pages →
      s.byteAt t.pml4 va = some (if p.vaddr ≤ va ∧ va < p.vaddr + p.filesz then
        buf.getD (p.offset + (va - p.vaddr)) 0 else 0) ∧
      ∃ es, s.lookup t.pml4 (indexAt va) = some es ∧
        Perm.effective es = Perm.ofEntry (elfPageFlags p) := by
    intro p hp va hva
    obtain ⟨hb, hl⟩ := h.page ho hs (mem_imagePages hp hva)
      (show va / 4096 = va / 4096 * 4096 / 4096 by omega)
    refine ⟨?_, hl⟩
    rw [hb, elfPageIn_get (hsound.inFile p hp).1 (Nat.mod_lt _ (by decide)),
      show va / 4096 * 4096 + va % 4096 = va by omega]
  refine ⟨fun va hva => ?_, fun v => ?_, ?_, fun p hp => ?_, fun p hp i hi => ?_,
    fun va hva hno => ?_, fun p hp va hva => ?_⟩
  · rw [h.mapped_iff ho hs hva, pageNumbers_image]
  · rw [hnumbers, ← pageNumbers_image buf ps, pageNumbers, List.mem_toFinset]
  · rw [hnumbers]
    exact hsound.nodup buf
  · obtain ⟨h1, -, -, h2⟩ := ho.records p hp
    exact ⟨h1, h2⟩
  · have hsize := (hsound.inFile p hp).2
    have hin : (p.vaddr + i) / 4096 ∈ p.pages :=
      Finset.mem_image_of_mem _ (Finset.mem_Ico.mpr ⟨by omega, by omega⟩)
    rw [(hpage p hp _ hin).1, if_pos ⟨by omega, by omega⟩, Nat.add_sub_cancel_left]
  · obtain ⟨p, hp, hv⟩ := mem_elfPages.mp hva
    rw [(hpage p hp va hv).1, if_neg (hno p hp)]
  · obtain ⟨es, h1, h2⟩ := (hpage p hp va hva).2
    exact ⟨es, h1, h2.trans (elfPageFlags_ok p).2.2.2⟩

/-! ## Records of earlier pages -/

/-- A result, with the records `pre` before its own. -/
def behind (pre : List PageRecord) (x : Bool × Phys × List PageRecord) :
    Bool × Phys × List PageRecord := (x.1, x.2.1, pre ++ x.2.2)

section Behind

variable (binary : Nat) (buf : List (BitVec 8)) (pml4 : Nat) (p : ElfPhdr) (pre : List PageRecord)

theorem elfLoadPage_behind (va : Nat) (s : Phys) (records : List PageRecord) :
    elfLoadPage binary buf pml4 p va s (pre ++ records) =
      (elfLoadPage binary buf pml4 p va s records).map (behind pre) := by
  unfold elfLoadPage
  generalize s.allocFrame = a
  obtain ⟨phys, s⟩ := a
  dsimp only
  split
  · rfl
  · cases elfFileBytes binary buf p va with
    | error => rfl
    | ok =>
      rw [List.append_assoc]
      rfl

theorem elfLoadPages_behind (n va : Nat) (s : Phys) (records : List PageRecord) :
    elfLoadPages binary buf pml4 p n va s (pre ++ records) =
      (elfLoadPages binary buf pml4 p n va s records).map (behind pre) := by
  induction n generalizing va s records with
  | zero => rfl
  | succ n ih =>
    unfold elfLoadPages
    rw [elfLoadPage_behind]
    cases elfLoadPage binary buf pml4 p va s records with
    | error => rfl
    | ok x =>
      obtain ⟨ok, s', records'⟩ := x
      cases ok with
      | false => rfl
      | true => exact ih (va + elfPageSize) s' records'

theorem elfLoadSegment_behind (s : Phys) (records : List PageRecord) :
    elfLoadSegment binary buf pml4 p s (pre ++ records) =
      (elfLoadSegment binary buf pml4 p s records).map (behind pre) := by
  unfold elfLoadSegment
  cases add 64 p.vaddr p.memsz with
  | error => rfl
  | ok stop =>
    dsimp only [bind, Except.bind]
    split
    · rfl
    · cases sub stop (p.vaddr &&& elfPageMask) with
      | error => rfl
      | ok bytes => exact elfLoadPages_behind ..

/-- What the loader does does not depend on the records it finds. -/
theorem elfLoadLoop_behind (phoff n i : Nat) (s : Phys) (records : List PageRecord) :
    elfLoadLoop binary buf pml4 phoff n i s (pre ++ records) =
      (elfLoadLoop binary buf pml4 phoff n i s records).map (behind pre) := by
  induction n generalizing i s records with
  | zero => rfl
  | succ n ih =>
    unfold elfLoadLoop
    cases readPhdr binary buf phoff i with
    | error => rfl
    | ok q =>
      dsimp only [bind, Except.bind]
      split
      · rw [elfLoadSegment_behind]
        cases elfLoadSegment binary buf pml4 q s records with
        | error => rfl
        | ok x =>
          obtain ⟨ok, s', records'⟩ := x
          cases ok with
          | false => rfl
          | true => exact ih (i + 1) s' records'
      · exact ih (i + 1) s records

end Behind

/-! ## `elf_load` -/

section Load

variable {binary : BitVec 64} {buf : List (BitVec 8)} {h : ElfHeader} {s : Phys} {r : Nat}
  {maxPages pageCount : Nat} {records : List PageRecord} {capacity : BitVec 32}

/-- The loader in a fresh address space. -/
theorem elfLoadLoop_fresh (hs : s.Fresh r)
    (ha : ElfAccepted binary.toNat maxPages buf h pageCount) : ∃ rest,
    Returns (elfLoadLoop binary.toNat buf r h.phoff h.phnum 0 s [])
      (Loading s [] [] (bareOwner r) (bareOwner r) [] rest (imagePages buf (elfPhdrs buf h))) := by
  obtain ⟨rest, hsp⟩ := hs.spaces
  have hlist : (List.range' 0 h.phnum).map (elfPhdrAt buf h.phoff) = elfPhdrs buf h := by
    rw [← List.range_eq_range']
    rfl
  have hbuild : Building s s [] [] (bareOwner r) ((bareOwner r).withPages []) [] rest [] [] :=
    .start hsp (.nil hs.empty rfl)
  have hnd : ((imagePages buf (elfPhdrs buf h)).map PageIn.va).Nodup := by
    refine .of_map (· / 4096) ?_
    rw [List.map_map]
    exact ha.sound.nodup buf
  have hload := @elfLoadLoop_returns binary.toNat buf h.phnum s s [] [] (bareOwner r)
    (bareOwner r) []
    rest [] [] h 0 ha.fits ha.table (by omega) (fun p hp => by
      rw [hlist] at hp
      exact ⟨ha.fits, (ha.sound.inFile p hp).1, (ha.sound.inFile p hp).2, (ha.sound.inUser p hp).2⟩)
    (.nil s) hbuild (by rw [hlist, List.nil_append]; exact hnd)
  rw [hlist, List.nil_append] at hload
  exact ⟨rest, hload⟩

/-- `*info` does not matter for what the validation returns. -/
theorem elfValidate_fst (binary : BitVec 64) (buf : List (BitVec 8)) (maxPages : BitVec 32)
    (info info' : Option ElfImageInfo) : (elfValidate binary buf maxPages info).map Prod.fst =
      (elfValidate binary buf maxPages info').map Prod.fst := by
  unfold elfValidate
  split
  · rfl
  cases sub 18446744073709551615 binary.toNat with
  | error => rfl
  | ok room =>
    dsimp only [bind, Except.bind]
    split
    · rfl
    cases copyOut binary.toNat buf binary.toNat 64 with
    | error => rfl
    | ok bytes =>
      dsimp only
      cases headerValid (ElfHeader.decode bytes) buf.length with
      | error => rfl
      | ok valid =>
        dsimp only
        split
        · rfl
        cases elfLoop binary.toNat buf maxPages.toNat (ElfHeader.decode bytes)
            (ElfHeader.decode bytes).phnum 0 {} with
        | error => rfl
        | ok scan =>
          cases scan with
          | none => rfl
          | some scan =>
            dsimp only
            split <;> rfl

/-- An image that is accepted with one `info` is accepted with another. -/
theorem elfValidate_accepts {maxPages : BitVec 32} {info image : ElfImageInfo}
    (hv : elfValidate binary buf maxPages (some info) = .ok (true, some image))
    (info' : ElfImageInfo) :
    elfValidate binary buf maxPages (some info') = .ok (true, some image) ∧
      ElfAccepted binary.toNat maxPages.toNat buf image.header image.pageCount := by
  rcases elfValidate_cases binary buf maxPages (some info) with hno | ⟨n, hyes, ha⟩
  · cases hv.symm.trans hno
  · obtain rfl : image = ⟨ElfHeader.decode (buf.take 64), n⟩ := by
      have := hv.symm.trans hyes
      simpa using this
    have hfst := elfValidate_fst binary buf maxPages (some info) (some info')
    rw [hv] at hfst
    rcases elfValidate_cases binary buf maxPages (some info') with hno | ⟨n', hyes', ha'⟩
    · rw [hno] at hfst
      cases hfst
    · -- both are the number of pages of the segments
      obtain rfl : n = n' := ha.sound.count.trans ha'.sound.count.symm
      exact ⟨hyes', ha⟩

/-- **`elf_load` builds exactly the image**. -/
theorem elf_load_exact {info image : ElfImageInfo} (hs : s.Fresh r)
    (hcap : records.length ≤ capacity.toNat)
    (hv : elfValidate binary buf (capacity - .ofNat 32 records.length) (some info) =
      .ok (true, some image)) :
    ∃ entry s' new, elfLoad binary buf r records capacity s = .ok (entry, s', records ++ new) ∧
      (records ++ new).length ≤ capacity.toNat ∧
      Moves s.pmm s'.pmm (s.tables r lowerHalf)
        (s'.tables r lowerHalf ++ new.map PageRecord.phys) ∧
      ((∀ k < framesFor (elfPages (elfPhdrs buf image.header)), s.Granted k) →
        entry = image.header.entry ∧ entry ≠ 0 ∧ new.length = image.pageCount ∧
          ElfImage buf (elfPhdrs buf image.header) s' r new) ∧
      ((¬ ∀ k < framesFor (elfPages (elfPhdrs buf image.header)), s.Granted k) → entry = 0) := by
  obtain ⟨hblank, ha⟩ := elfValidate_accepts hv
    { header := ElfHeader.decode [], pageCount := 0 }
  obtain ⟨rest, x, hx, hload⟩ := elfLoadLoop_fresh hs ha
  have hload' : elfLoad binary buf r records capacity s =
      .ok (if x.1 then image.header.entry else 0, x.2.1, records ++ x.2.2) := by
    unfold elfLoad
    rw [if_neg (by have := hs.root; omega)]
    dsimp only
    rw [hblank]
    show (elfLoadLoop binary.toNat buf r image.header.phoff image.header.phnum 0 s records >>= _) =
      _
    have hbehind :=
      elfLoadLoop_behind binary.toNat buf r records image.header.phoff image.header.phnum
      0 s []
    rw [List.append_nil] at hbehind
    rw [hbehind, hx]
    rfl
  have hlimit : (capacity - .ofNat 32 records.length).toNat = capacity.toNat - records.length := by
    have hlt := capacity.isLt
    have hof : (BitVec.ofNat 32 records.length).toNat = records.length :=
      (BitVec.toNat_ofNat ..).trans (Nat.mod_eq_of_lt (by omega))
    rw [BitVec.toNat_sub, hof]
    omega
  have hlen := ha.sound.length buf
  have hpages : pageNumbers (imagePages buf (elfPhdrs buf image.header)) =
      elfPages (elfPhdrs buf image.header) := pageNumbers_image ..
  have htab : owned s (bareOwner r) = s.tables r lowerHalf := List.append_nil _
  cases hload with
  | @done s' new paid build =>
    have hcount : new.length = image.pageCount := build.length.trans hlen
    refine ⟨_, s', new, hload', ?_, ?_, fun _ => ⟨rfl, ?_, hcount, ?_⟩, fun hno => ?_⟩
    · have := ha.sound.limit
      rw [List.length_append]
      omega
    · have hm := build.work.moves
      rw [htab] at hm
      exact hm
    · obtain ⟨p, hp, -, hle, -⟩ := ha.found
      have hlow := (ha.sound.inUser p hp).1
      show image.header.entry ≠ 0
      change 4096 ≤ p.vaddr at hlow
      omega
    · exact .of_built build.built (build.spaces.owner _ build.mem) build.spaces.small ha.sound
    · exact absurd (hpages ▸ paid.granted) hno
  | @short s' mapped lost L' short fits build =>
    refine ⟨_, s', mapped ++ lost, hload', ?_, ?_, fun hall => ?_, fun _ => rfl⟩
    · have := ha.sound.limit
      rw [List.length_append]
      omega
    · have hm := build.work.moves
      rw [htab] at hm
      refine hm.congr fun a _ => ?_
      simp only [owned, Owner.withPages, bareOwner, List.map_append, List.count_append]
      omega
    · obtain ⟨k, hk, hno⟩ := short
      rw [hpages] at hk
      exact absurd (hall k hk) hno

end Load

/-- A program of one instruction: one segment, readable and executable, that holds the whole
file. -/
def tinyElf : List (BitVec 8) :=
  [0x7f, 0x45, 0x4c, 0x46, 2, 1, 1, 0, 0, 0, 0, 0, 0, 0, 0, 0,
   2, 0, 62, 0, 1, 0, 0, 0, 0x78, 0, 0x40, 0, 0, 0, 0, 0,
   64, 0, 0, 0, 0, 0, 0, 0, 0, 0, 0, 0, 0, 0, 0, 0,
   0, 0, 0, 0, 64, 0, 56, 0, 1, 0, 0, 0, 0, 0, 0, 0,
   1, 0, 0, 0, 5, 0, 0, 0, 0, 0, 0, 0, 0, 0, 0, 0,
   0, 0, 0x40, 0, 0, 0, 0, 0, 0, 0, 0, 0, 0, 0, 0, 0,
   0x79, 0, 0, 0, 0, 0, 0, 0, 0x79, 0, 0, 0, 0, 0, 0, 0,
   0, 0x10, 0, 0, 0, 0, 0, 0, 0xc3]

theorem elf_load_exact_tiny : ∃ s s' new, tinyPhys.vmmCreateAddressSpace = (8192, s) ∧
    elfLoad 4096 tinyElf 8192 [] 4 s = .ok (0x400078, s', new) ∧
    ElfImage tinyElf (elfPhdrs tinyElf (ElfHeader.decode (tinyElf.take 64))) s' 8192 new := by
  obtain ⟨s, hc, hs, hdeny, hfree⟩ := tinyPhys_fresh
  have hacc :
    ((elfValidate 4096 tinyElf (4 - .ofNat 32 0) (some ⟨ElfHeader.decode [], 0⟩)).toOption.map
      Prod.fst) = some true := by decide +kernel
  have hcost :
      framesFor (elfPages (elfPhdrs tinyElf (ElfHeader.decode (tinyElf.take 64)))) = 4 := by
    decide +kernel
  rcases elfValidate_cases 4096 tinyElf (4 - .ofNat 32 0) (some ⟨ElfHeader.decode [], 0⟩) with
    hno | ⟨n, hv, -⟩
  · rw [hno] at hacc
    cases hacc
  have hv : elfValidate 4096 tinyElf (4 - .ofNat 32 ([] : List PageRecord).length)
      (some ⟨ElfHeader.decode [], 0⟩) =
        .ok (true, some ⟨ElfHeader.decode (tinyElf.take 64), n⟩) := hv
  obtain ⟨entry, s', new, he, -, -, hall, -⟩ :=
    @elf_load_exact 4096 tinyElf s 8192 [] 4 _ _ hs (Nat.zero_le _) hv
  obtain ⟨rfl, -, -, himage⟩ := hall fun k hk => by
    rw [hcost] at hk
    refine ⟨by rw [hdeny]; rfl, ?_⟩
    rw [hfree]
    omega
  have hentry : (ElfHeader.decode (tinyElf.take 64)).entry = 0x400078 := rfl
  refine ⟨s, s', new, hc, ?_, himage⟩
  rw [← hentry]
  exact he

end GenOS
