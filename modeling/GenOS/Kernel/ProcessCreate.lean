import GenOS.Fs.ElfImage
import GenOS.Kernel.ProcessFork

/-!
# User tasks

`create_user_task` makes a process whose address space is the image of the file and a stack between
two guard pages (`UserImage`), or leaves everything as it was.
-/

namespace GenOS

open Checked Phys Pmm

variable {c c' : HeapClient} {s s' : Phys} {m : Shm} {t child : Process}
  {u u' : UserTask} {o : Owner}
variable {os₁ os₂ : List Owner} {us : List UserTask} {shared rest rest' ps ps' : List Nat}
variable {records : List PageRecord} {L : List PageIn} {k k₁ k' : Kernel} {r : Nat}
variable {binary : BitVec 64} {buf : List (BitVec 8)}

/-! ## Room for the records -/

/-- A frame in use that is no table of the kernel keeps its contents. -/
theorem Memory.kmalloc_mem {os : List Owner} {size p g : Nat} (h : Memory c os shared rest ps)
    (he : c.kmalloc size = some (p, c')) (hg : g ∉ c.phys.kernelTables)
    (hf : ¬ c.phys.pmm.FreeAt g) :
    c'.phys.mem g = c.phys.mem g := by
  obtain ⟨p', c'', F, he', hgrown, -⟩ := h.holding.kmalloc size
  rw [he] at he'
  cases he'
  exact (hgrown.phys.others g hg hf).1

theorem userPagesReserve_mem {ok : Bool} {g count : Nat} (h : UserOk c os₁ os₂ u shared rest ps)
    (hb : u.pagesBlock = 0) (he : userPagesReserve c u count = some (ok, c', u'))
    (hg : g ∉ c.phys.kernelTables)
    (hf : ¬ c.phys.pmm.FreeAt g) : c'.phys.mem g = c.phys.mem g := by
  unfold userPagesReserve at he
  rw [hb] at he
  split at he
  · cases he
    rfl
  split at he
  · cases he
    rfl
  obtain ⟨data, c₁, ha, -, -⟩ := h.memory.kmalloc (doubled count u.userPageCapacity * 2 * 8)
  have hm := h.memory.kmalloc_mem ha hg hf
  simp only [ha, Option.bind_eq_bind, Option.bind_some, ne_eq, not_true_eq_false, if_false] at he
  split at he
  · cases he
    exact hm
  · cases he
    exact hm

/-! ## The image -/

/-- What `elf_load` comes to in the address space of `t`: nothing is loaded, or the pages of the
image as far as there are frames. -/
theorem elfLoad_loading (h : Building s s os₁ os₂ o (o.withPages []) shared rest [] [])
    (hr : o.pml4 ≠ 0)
    (capacity : BitVec 32) : ∃ entry s' records,
      elfLoad binary buf o.pml4 [] capacity s = .ok (entry, s', records) ∧
      ((entry = 0 ∧ ∃ mapped lost L, records = mapped ++ lost ∧
          Building s s' os₁ os₂ o (o.withPages mapped) shared rest (lost.map PageRecord.phys) L) ∨
        ∃ n, ElfAccepted binary.toNat capacity.toNat buf (ElfHeader.decode (buf.take 64)) n ∧
          entry = (ElfHeader.decode (buf.take 64)).entry ∧ entry ≠ 0 ∧
          Paid s s' (imagePages buf (elfPhdrs buf (ElfHeader.decode (buf.take 64)))) ∧
          Building s s' os₁ os₂ o (o.withPages records) shared rest []
            (imagePages buf (elfPhdrs buf (ElfHeader.decode (buf.take 64))))) := by
  have hzero : capacity - .ofNat 32 ([] : List PageRecord).length = capacity := BitVec.sub_zero _
  have hargs : ¬ (o.pml4 = 0 ∨ capacity.toNat < ([] : List PageRecord).length) :=
    not_or.mpr ⟨hr, Nat.not_lt_zero _⟩
  unfold elfLoad
  rw [if_neg hargs, hzero]
  dsimp only
  rcases elfValidate_cases binary buf capacity
    (some { header := ElfHeader.decode [], pageCount := 0 }) with
    hno | ⟨n, hyes, ha⟩
  · rw [hno]
    exact ⟨0, s, [], rfl, .inl ⟨rfl, [], [], [], rfl, h⟩⟩
  rw [hyes]
  generalize ElfHeader.decode (buf.take 64) = header at *
  have hlist : (List.range' 0 header.phnum).map (elfPhdrAt buf header.phoff) =
      elfPhdrs buf header := by
    rw [← List.range_eq_range']
    rfl
  have hnd : ((imagePages buf (elfPhdrs buf header)).map PageIn.va).Nodup := by
    refine .of_map (· / 4096) ?_
    rw [List.map_map]
    exact ha.sound.nodup buf
  obtain ⟨x, hx, hload⟩ := elfLoadLoop_returns (n := header.phnum) (h := header)
    (i := 0) ha.fits ha.table (by omega)
    (fun p hp => by
      rw [hlist] at hp
      exact ⟨ha.fits, (ha.sound.inFile p hp).1, (ha.sound.inFile p hp).2, (ha.sound.inUser p hp).2⟩)
    (.nil s) h (by rw [hlist, List.nil_append]; exact hnd)
  rw [hlist, List.nil_append] at hload
  have hentry : header.entry ≠ 0 := by
    obtain ⟨p, hp, -, hle, -⟩ := ha.found
    have hlow : 4096 ≤ p.vaddr := (ha.sound.inUser p hp).1
    omega
  refine ⟨if x.1 then header.entry else 0, x.2.1, x.2.2, ?_, ?_⟩
  · show (elfLoadLoop binary.toNat buf o.pml4 header.phoff header.phnum 0 s [] >>= _) = _
    rw [hx]
    rfl
  · cases hload with
    | done paid build => exact .inr ⟨n, ha, rfl, hentry, paid, build⟩
    | @short s' mapped lost L' short fits build => exact .inl ⟨rfl, mapped, lost, L', rfl, build⟩

/-! ## The stack -/

/-- A page of the stack. -/
def stackPage (i : Nat) : PageIn := ⟨userStackBase + i * 4096, vmmFlagsUserData, fun _ => 0#64⟩

/-- The pages of the stack from page `i` on. -/
def stackFrom (i n : Nat) : List PageIn := (List.range' i n).map stackPage

theorem stackPage_ok {i : Nat} (hi : i < userStackPages) : (stackPage i).Ok := by
  have hi : i < 4 := hi
  refine ⟨?_, ?_, (by decide : vmmFlagsUserData &&& ~~~pteFlagMask = 0#64),
    (by decide : vmmFlagsUserData.has ptePresent = true),
    (by decide : vmmFlagsUserData.has pteCow = false)⟩
  · show (0x80001000 + i * 4096) % 4096 = 0
    omega
  · show 0x80001000 + i * 4096 < 0x800000000000
    omega

theorem stackPage_injective {i j : Nat} (h : (stackPage i).va = (stackPage j).va) : i = j := by
  have h : 0x80001000 + i * 4096 = 0x80001000 + j * 4096 := h
  omega

/-- **The loop that maps the stack** adds its pages, as far as there are frames. -/
theorem mapStack_loading {s₀ : Phys} {t₀ : Owner} :
    ∀ {n i : Nat} {s : Phys} {records : List PageRecord}
    {L : List PageIn}, Paid s₀ s L →
    Building s₀ s os₁ os₂ t₀ (o.withPages records) shared rest [] L →
    i + n ≤ userStackPages → (∀ j, i ≤ j → j < i + n → ∀ y ∈ L, y.va ≠ (stackPage j).va) →
    Loading s₀ os₁ os₂ t₀ o shared rest (L ++ stackFrom i n) (Kernel.mapStack o.pml4 n i s records)
  | 0, i, s, records, L, hp, h, _, _ => by
    unfold stackFrom
    rw [Kernel.mapStack, List.range'_zero, List.map_nil, List.append_nil]
    exact .done hp h
  | n + 1, i, s, records, L, hp, h, hi, hnew => by
    have hcons : L ++ stackFrom i (n + 1) = L ++ [stackPage i] ++ stackFrom (i + 1) n := by
      unfold stackFrom
      rw [List.range'_succ, List.map_cons, List.append_assoc, List.singleton_append]
    have hx := stackPage_ok (i := i) (by omega)
    have hlen : records.length = L.length := h.length
    rw [hcons, Kernel.mapStack]
    rcases newPage_spec h hp hx (hnew i (Nat.le_refl _) (by omega)) with ⟨he, hs, hb⟩ |
      ⟨f, s₁, he, h0, ⟨s', hm, hs, hb⟩ | ⟨s', hm, hp', hb⟩⟩
    · rw [he]
      have hshort := @Loading.short s₀ os₁ os₂ t₀ o shared rest
        (L ++ [stackPage i]) _ records [] L hs (by
        rw [List.append_nil, List.length_append, hlen]
        exact Nat.le_add_right ..) hb
      rw [List.append_nil] at hshort
      exact hshort.stop _
    · rw [he]
      dsimp only
      rw [if_neg h0]
      have hm : (s₁.zeroFrame f).vmmMapPageIn o.pml4 (userStackBase + i * 4096) (BitVec.ofNat 64 f)
        vmmFlagsUserData = (false, s') := hm
      rw [hm]
      have hshort := @Loading.short s₀ os₁ os₂ t₀ o shared rest (L ++ [stackPage i]) s' records
        [⟨f, userStackBase + i * 4096⟩] L hs (by
          rw [List.length_append, List.length_append, hlen]
          exact Nat.le_refl _) hb
      exact hshort.stop _
    · rw [he]
      dsimp only
      rw [if_neg h0]
      have hm : (s₁.zeroFrame f).vmmMapPageIn o.pml4 (userStackBase + i * 4096) (BitVec.ofNat 64 f)
        vmmFlagsUserData = (true, s') := hm
      rw [hm]
      refine mapStack_loading hp' hb (by omega) fun j h1 h2 y hy => ?_
      rcases List.mem_append.mp hy with hy | hy
      · exact hnew j (by omega) (by omega) y hy
      · rw [List.mem_singleton.mp hy]
        exact fun he => absurd (stackPage_injective he) (by omega)

/-- Pages that the check finds clear are not among those that were built. -/
theorem stackClear_new (h : Built s o L) (ho : OwnerOk s o shared) (hs : s.pmm.totalPages ≤ 2 ^ 40)
    (hc : Kernel.stackClear s o.pml4 = true) : ∀ i < userStackPages + 2,
      s.translate o.pml4 (userStackBase - 4096 + i * 4096) = none ∧
        ∀ y ∈ L, y.va ≠ userStackBase - 4096 + i * 4096 := fun i hi => by
  have hlt : userStackBase - 4096 + i * 4096 < 0x800000000000 := by
    have hi : i < 6 := hi
    show 0x80001000 - 4096 + i * 4096 < 0x800000000000
    omega
  have hnone : s.translate o.pml4 (userStackBase - 4096 + i * 4096) = none := by
    have hpte := List.all_eq_true.mp hc i (List.mem_range.mpr hi)
    rw [Option.isNone_iff_eq_none] at hpte
    exact (vmmPteIn_none ho.root (canonical_lower hlt)).mp hpte
  refine ⟨hnone, fun y hy he => ?_⟩
  refine (h.mapped_iff ho hs hlt).mpr ?_ hnone
  unfold pageNumbers
  rw [List.mem_toFinset, ← he]
  exact List.mem_map_of_mem hy

/-! ## The new owner -/

/-- The leaf of a page that was built. -/
theorem Phys.Built.leaf {x : PageIn} {va : Nat} (h : Built s o L) (ho : OwnerOk s o shared)
    (hs : s.pmm.totalPages ≤ 2 ^ 40) (hx : x ∈ L) (hva : va / 4096 = x.va / 4096) :
    ∃ p, s.translate o.pml4 va = some (p, x.flags) := by
  obtain ⟨r, hr, hrx⟩ := exists_of_mem_right h.pages hx
  obtain ⟨above, h3, -, hl⟩ := hrx.lookup hva
  have hf := (ho.records r hr).tracked
  have hb := Word.built (Word.address_ofNat hf.aligned (by have := hf.lt; omega)) (h.ok x hx).flag
  obtain ⟨a, b, d, rfl⟩ := List.length_eq_three.mp h3
  have hcan : canonical va = true := canonical_lower (by
    have := (h.ok x hx).user
    have := (h.ok x hx).aligned
    omega)
  refine ⟨BitVec.ofNat 64 r.phys, ?_⟩
  unfold translate
  rw [hcan, if_pos rfl, hl]
  show some (vmmPteAddress (BitVec.ofNat 64 r.phys ||| x.flags),
    (BitVec.ofNat 64 r.phys ||| x.flags) &&& pteFlagMask) = _
  rw [hb.address, hb.flag]

/-- No page may be both written and run, if none of those that were built may. -/
theorem Phys.Built.wxOk (h : Built s o L) (ho : OwnerOk s o shared) (hs : s.pmm.totalPages ≤ 2 ^ 40)
    (hL : ∀ x ∈ L, x.flags.has pteWrite = true → x.flags.has pteNx = true) : WxOk s o.pml4 :=
  fun va hva p fl hq hw => by
    have hlook : s.lookup o.pml4 (indexAt va) ≠ none := fun hc => by
      rw [translate_of_none hc] at hq
      cases hq
    obtain ⟨x, hx, hat⟩ := h.only _ (inRange_indexAt va) (index_lower hva) hlook
    obtain ⟨q, hq'⟩ := h.leaf ho hs hx (page_of_indexAt hat hva (h.ok x hx).user)
    obtain ⟨-, rfl⟩ : p = q ∧ fl = x.flags := by simpa using hq.symm.trans hq'
    refine hL x hx (hw.resolve_right fun hc => ?_)
    rw [(h.ok x hx).cow] at hc
    cases hc

theorem elfPageFlags_wx {p : ElfPhdr} (hp : ¬ (p.writable ∧ p.executable))
    (hw : (elfPageFlags p).has pteWrite = true) : (elfPageFlags p).has pteNx = true := by
  unfold elfPageFlags at hw ⊢
  by_cases hx : p.flags &&& elfPfX = 0
  · rw [if_pos hx, Word.has_nx, BitVec.getLsbD_or,
      show pteNx.getLsbD 63 = true by decide, Bool.or_true]
  · have hnw : ¬ p.flags &&& elfPfW ≠ 0 := fun h => hp ⟨h, hx⟩
    simp only [if_neg hnw, if_neg hx] at hw
    exact absurd hw (by decide)

/-- The pages of a user image: those of the file, and the stack. -/
def userPagesOf (buf : List (BitVec 8)) : List PageIn :=
  imagePages buf (elfPhdrs buf (ElfHeader.decode (buf.take 64))) ++ stackFrom 0 userStackPages

theorem userPagesOf_wx {maxPages n : Nat}
    (ha : ElfAccepted r maxPages buf (ElfHeader.decode (buf.take 64)) n) :
    ∀ x ∈ userPagesOf buf, x.flags.has pteWrite = true → x.flags.has pteNx = true := fun x hx => by
  rcases List.mem_append.mp hx with hx | hx
  · obtain ⟨p, hp, hx⟩ := List.mem_flatMap.mp hx
    obtain ⟨i, -, rfl⟩ := List.mem_map.mp hx
    have hp' := List.mem_filter.mp hp
    refine elfPageFlags_wx (ha.sound.noWriteExecute p hp'.1 ?_)
    exact (of_decide_eq_true hp'.2).1
  · obtain ⟨i, -, rfl⟩ := List.mem_map.mp hx
    exact fun _ => (by decide : vmmFlagsUserData.has pteNx = true)

/-- A user image: the pages of the file and the stack were built, and the guards of the stack are
unmapped. -/
structure UserImage (buf : List (BitVec 8)) (s : Phys) (o : Owner) : Prop where
  sound : ∃ maxPages n,
    SegmentsSound buf.length maxPages (elfPhdrs buf (ElfHeader.decode (buf.take 64))) n
  built : Built s o (userPagesOf buf)
  below : s.translate o.pml4 (userStackBase - 4096) = none
  above : s.translate o.pml4 (userStackBase + userStackPages * 4096) = none

/-- An address of the stack. -/
def InStack (va : Nat) : Prop := userStackBase ≤ va ∧ va < userStackBase + userStackPages * 4096

/-- The program of the file, with an empty stack, is in the address space `r`, as its user sees
it. -/
structure UserProgram (buf : List (BitVec 8)) (ps : List ElfPhdr) (s : Phys) (r : Nat) : Prop where
  /-- Exactly the pages of the segments and of the stack are mapped. -/
  mapped : ∀ va < 0x800000000000, s.translate r va ≠ none ↔ va / 4096 ∈ elfPages ps ∨ InStack va
  bytes : ∀ p ∈ elfLoads ps, ∀ i < p.filesz,
    s.byteAt r (p.vaddr + i) = some (buf.getD (p.offset + i) 0)
  zeros : ∀ va, va / 4096 ∈ elfPages ps →
    (∀ p ∈ elfLoads ps, ¬ (p.vaddr ≤ va ∧ va < p.vaddr + p.filesz)) → s.byteAt r va = some 0
  stack : ∀ va, InStack va → s.byteAt r va = some 0
  permissions : ∀ p ∈ elfLoads ps, ∀ va, va / 4096 ∈ p.pages →
    ∃ es, s.lookup r (indexAt va) = some es ∧
    Perm.effective es = ⟨true, decide (p.flags &&& elfPfW ≠ 0), decide (p.flags &&& elfPfX ≠ 0)⟩
  /-- The stack may be written, and not run. -/
  stackPermissions : ∀ va, InStack va → ∃ es, s.lookup r (indexAt va) = some es ∧
    Perm.effective es = ⟨true, true, false⟩

/-- A page of a segment, among the pages that were built. -/
theorem Phys.Built.segment {p : ElfPhdr} {phdrs : List ElfPhdr} {maxPages n va : Nat}
    (h : Built s o L)
    (ho : OwnerOk s o shared) (hs : s.pmm.totalPages ≤ 2 ^ 40)
    (hL : ∀ x ∈ imagePages buf phdrs, x ∈ L)
    (hsound : SegmentsSound buf.length maxPages phdrs n) (hp : p ∈ elfLoads phdrs)
    (hva : va / 4096 ∈ p.pages) :
    s.byteAt o.pml4 va = some (if p.vaddr ≤ va ∧ va < p.vaddr + p.filesz then
      buf.getD (p.offset + (va - p.vaddr)) 0 else 0) ∧
    ∃ es, s.lookup o.pml4 (indexAt va) = some es ∧
    Perm.effective es = Perm.ofEntry (elfPageFlags p) := by
  obtain ⟨hb, hl⟩ := h.page ho hs (hL _ (mem_imagePages hp hva))
    (show va / 4096 = va / 4096 * 4096 / 4096 by omega)
  refine ⟨?_, hl⟩
  rw [hb, elfPageIn_get (hsound.inFile p hp).1 (Nat.mod_lt _ (by decide)),
    show va / 4096 * 4096 + va % 4096 = va by omega]

theorem inStack_page {va : Nat} (h : InStack va) : ∃ x ∈ stackFrom 0 userStackPages,
    va / 4096 = x.va / 4096 := by
  have h : 0x80001000 ≤ va ∧ va < 0x80001000 + 4 * 4096 := h
  refine ⟨stackPage ((va - 0x80001000) / 4096),
    List.mem_map_of_mem (List.mem_range'_1.mpr ⟨Nat.zero_le _, ?_⟩), ?_⟩
  · show (va - 0x80001000) / 4096 < 0 + 4
    omega
  · show va / 4096 = (0x80001000 + (va - 0x80001000) / 4096 * 4096) / 4096
    omega

theorem page_inStack {x : PageIn} {va : Nat} (hx : x ∈ stackFrom 0 userStackPages)
    (he : va / 4096 = x.va / 4096) :
    InStack va := by
  obtain ⟨i, hi, rfl⟩ := List.mem_map.mp hx
  have hi : i < 4 := by simpa using List.mem_range'_1.mp hi
  have he : va / 4096 = (0x80001000 + i * 4096) / 4096 := he
  show 0x80001000 ≤ va ∧ va < 0x80001000 + 4 * 4096
  omega

theorem stackPerm : Perm.ofEntry vmmFlagsUserData = ⟨true, true, false⟩ := by decide

/-- **What was built is the program.** -/
theorem UserImage.program (h : UserImage buf s o) (ho : OwnerOk s o shared)
    (hs : s.pmm.totalPages ≤ 2 ^ 40) :
    UserProgram buf (elfPhdrs buf (ElfHeader.decode (buf.take 64))) s o.pml4 := by
  obtain ⟨maxPages, n, hsound⟩ := h.sound
  generalize hphdrs : elfPhdrs buf (ElfHeader.decode (buf.take 64)) = phdrs at hsound ⊢
  have hbuilt := h.built
  have hpages : userPagesOf buf = imagePages buf phdrs ++
    stackFrom 0 userStackPages := by rw [← hphdrs]; rfl
  rw [hpages] at hbuilt
  have hsegment :=
    fun {p va} => @Phys.Built.segment s o shared _ buf p phdrs maxPages n va hbuilt ho hs
    (fun x hx => List.mem_append_left _ hx) hsound
  have hstack : ∀ va, InStack va → s.byteAt o.pml4 va = some 0 ∧ ∃ es,
    s.lookup o.pml4 (indexAt va) = some es ∧
      Perm.effective es = ⟨true, true, false⟩ := fun va hva => by
    obtain ⟨x, hx, he⟩ := inStack_page hva
    obtain ⟨i, -, rfl⟩ := List.mem_map.mp hx
    obtain ⟨hb, es, hl, hperm⟩ := hbuilt.page ho hs (List.mem_append_right _ hx) he
    exact ⟨hb.trans (congrArg some (WordBytes.get_zero _)), es, hl, hperm.trans stackPerm⟩
  refine ⟨fun va hva => ?_, fun p hp i hi => ?_, fun va hva hno => ?_,
    fun va hva => (hstack va hva).1,
    fun p hp va hva => ?_, fun va hva => (hstack va hva).2⟩
  · rw [hbuilt.mapped_iff ho hs hva, pageNumbers, List.mem_toFinset, List.mem_map]
    constructor
    · rintro ⟨x, hx, he⟩
      rcases List.mem_append.mp hx with hx | hx
      · refine .inl ?_
        rw [← pageNumbers_image buf phdrs, pageNumbers, List.mem_toFinset]
        exact List.mem_map.mpr ⟨x, hx, he⟩
      · exact .inr (page_inStack hx he.symm)
    · rintro (hin | hin)
      · rw [← pageNumbers_image buf phdrs, pageNumbers, List.mem_toFinset, List.mem_map] at hin
        obtain ⟨x, hx, he⟩ := hin
        exact ⟨x, List.mem_append_left _ hx, he⟩
      · obtain ⟨x, hx, he⟩ := inStack_page hin
        exact ⟨x, List.mem_append_right _ hx, he.symm⟩
  · have hsize := (hsound.inFile p hp).2
    have hin : (p.vaddr + i) / 4096 ∈ p.pages :=
      Finset.mem_image_of_mem _ (Finset.mem_Ico.mpr ⟨by omega, by omega⟩)
    rw [(hsegment hp hin).1, if_pos ⟨by omega, by omega⟩, Nat.add_sub_cancel_left]
  · obtain ⟨p, hp, hv⟩ := mem_elfPages.mp hva
    rw [(hsegment hp hv).1, if_neg (hno p hp)]
  · obtain ⟨es, h1, h2⟩ := (hsegment hp hva).2
    exact ⟨es, h1, h2.trans (elfPageFlags_ok p).2.2.2⟩

/-! ## `create_user_task` -/

theorem withPages_nil (h : o.userPages = []) : o.withPages [] = o := by
  unfold Owner.withPages
  rw [← h]

/-- Pages were built for the last owner. -/
theorem Phys.Building.memory {os : List Owner} {o' : Owner} {lost : List Nat}
    (hm : Memory c (os ++ [o]) shared rest ps)
    (hb : Building c.phys s os [] o o' shared (c.heap.frames ++ rest) lost L) :
    Memory (c.setPhys s) (os ++ [o']) shared (lost ++ rest) ps ∧ Stable c (c.setPhys s) os ∧
      Trade c (c.setPhys s) (owned c.phys o) (lost ++ owned s o') := by
  refine ⟨hm.setPhys
    (hb.spaces.perm (.refl _) (List.perm_append_comm_assoc ..)) hb.work.kernel hb.work.mem,
    .setPhys hb.work.kernel hb.work.mem hb.work.moves fun v hv => hb.work.unaffected v ?_,
    .setPhys hb.work.kernel hb.work.mem hb.work.moves⟩
  rw [List.append_nil]
  exact hv

/-- A process in the making whose image was not finished. -/
structure BuildFailed (c c' : HeapClient) (m : Shm) (us : List UserTask) (rest ps : List Nat)
    (u u' : UserTask)
    (o : Owner) (lost : List Nat) : Prop where
  memory : Memory c' (owners us ++ [o]) m.frames (lost ++ rest)
    (u'.blocks ++ (userBlocks us ++ m.blocks ++ ps))
  stable : Stable c c' (owners us)
  trade : Trade c c' (owned c.phys u.toOwner) (lost ++ owned c'.phys o)
  same : SameSpace u u'
  root : u'.pml4 = o.pml4
  pages : (u'.userPages.map PageRecord.phys).Perm (o.userPages.map PageRecord.phys ++ lost)
  attached : u'.shmAttached = u.shmAttached

namespace Kernel

/-- A page beside the image and the stack is not mapped. -/
theorem guard_none {va : Nat} (h : Built s o (userPagesOf buf)) (ho : OwnerOk s o shared)
    (hs : s.pmm.totalPages ≤ 2 ^ 40) (ha : va % 4096 = 0) (hva : va < 0x800000000000)
    (hout : va < userStackBase ∨ userStackBase + userStackPages * 4096 ≤ va)
    (hnew : ∀ y ∈ imagePages buf (elfPhdrs buf (ElfHeader.decode (buf.take 64))), y.va ≠ va) :
    s.translate o.pml4 va = none := by
  by_contra hne
  have hin := (h.mapped_iff ho hs hva).mp hne
  unfold pageNumbers at hin
  rw [List.mem_toFinset, List.mem_map] at hin
  obtain ⟨x, hx, he⟩ := hin
  have hal := (h.ok x hx).aligned
  have hxva : x.va = va := by omega
  rcases List.mem_append.mp hx with hx | hx
  · exact hnew x hx hxva
  · obtain ⟨i, hi, rfl⟩ := List.mem_map.mp hx
    have hi : i < 4 := by simpa using List.mem_range'_1.mp hi
    have hxva : 0x80001000 + i * 4096 = va := hxva
    have hout : va < 0x80001000 ∨ 0x80001000 + 4 * 4096 ≤ va := hout
    omega

/-- What is loaded for a user task: nothing more than can be released, or its image. -/
theorem loadUserTask_spec {os : List Owner}
    (h : Building k.phys k.phys os [] t.toOwner (t.toOwner.withPages [])
    shared rest [] []) (hr : t.pml4 ≠ 0) (hp : t.userPages = []) :
    ∃ ok s records,
      k.loadUserTask t binary buf = some (ok, k.setPhys s, { t with userPages := records }) ∧
      ((ok = false ∧ ∃ mapped lost L, records = mapped ++ lost ∧ Building k.phys s os [] t.toOwner
          (t.toOwner.withPages mapped) shared rest (lost.map PageRecord.phys) L) ∨
        ok = true ∧
          (∃ n maxPages, ElfAccepted binary.toNat maxPages buf (ElfHeader.decode (buf.take 64)) n) ∧
          Building k.phys s os [] t.toOwner (t.toOwner.withPages records) shared rest []
            (userPagesOf buf) ∧
          UserImage buf s (t.toOwner.withPages records)) := by
  obtain ⟨entry, s₂, records, he, hload⟩ := @elfLoad_loading _ _ _ _ _ _ binary buf h hr
    (.ofNat 32 (t.userPageCapacity - userStackPages))
  rw [← hp] at he
  have he :
    elfLoad binary buf t.pml4 t.userPages (.ofNat 32 (t.userPageCapacity - userStackPages)) k.phys =
    .ok (entry, s₂, records) := he
  unfold loadUserTask
  simp only [he, Except.toOption, Option.bind_eq_bind, Option.bind_some]
  rcases hload with ⟨rfl, mapped, lost, L, hrec, hb⟩ | ⟨n, ha, -, hentry, hpaid, hb⟩
  · rw [if_pos rfl]
    exact ⟨false, s₂, records, rfl, .inl ⟨rfl, mapped, lost, L, hrec, hb⟩⟩
  rw [if_neg hentry]
  have hok := hb.spaces.owner _ hb.mem
  by_cases hclear : stackClear s₂ t.pml4 = true
  on_goal 2 =>
    have hno : stackClear s₂ t.pml4 = false := Bool.eq_false_of_not_eq_true hclear
    rw [if_pos (by rw [phys_setPhys, hno]; rfl)]
    exact ⟨false, s₂, records, rfl, .inl ⟨rfl, records, [], _, (List.append_nil _).symm, hb⟩⟩
  rw [if_neg (by rw [phys_setPhys, hclear]; exact Bool.false_ne_true)]
  have hnew := stackClear_new hb.built hok hb.spaces.small hclear
  have hstack : ∀ j, 0 ≤ j → j < 0 + userStackPages →
    ∀ y ∈ imagePages buf (elfPhdrs buf (ElfHeader.decode (buf.take 64))),
      y.va ≠ (stackPage j).va := fun j _ hj y hy he => by
    have hj : j < 0 + 4 := hj
    refine (hnew (j + 1) (show j + 1 < 6 by omega)).2 y hy (he.trans ?_)
    show 0x80001000 + j * 4096 = 0x80001000 - 4096 + (j + 1) * 4096
    omega
  have hload := mapStack_loading hpaid hb (Nat.le_refl _) hstack
  have hphys : (k.setPhys s₂).phys = s₂ := rfl
  rw [hphys]
  generalize mapStack t.pml4 userStackPages 0 s₂ records = x at hload
  refine ⟨x.1, x.2.1, x.2.2, rfl, ?_⟩
  cases hload with
  | @short s' mapped lost L' short fits build => exact .inl ⟨rfl, mapped, lost, L', rfl, build⟩
  | @done s' records' paid build =>
    refine .inr ⟨rfl, ⟨n, _, ha⟩, build, ⟨_, n, ha.sound⟩, build.built, ?_, ?_⟩
    · exact guard_none build.built
        (build.spaces.owner _ build.mem) build.spaces.small rfl (by decide)
        (.inl (by decide)) (hnew 0 (by decide)).2
    · exact guard_none build.built
        (build.spaces.owner _ build.mem) build.spaces.small rfl (by decide)
        (.inr (Nat.le_refl _)) (hnew 5 (by decide)).2

/-- **What is built for a user task** is its image, or can be released. -/
theorem buildUserTask_spec {n : Nat} (h : World k.heap k.shm (us ++ [t.toUserTask]) rest ps)
    (ho : t.toUserTask.owns = true) (hb : Bare t.toUserTask)
    (hempty : ∀ i < 256, k.phys.mem t.pml4 i = 0#64)
    (ha : ElfAccepted binary.toNat 65532 buf (ElfHeader.decode (buf.take 64)) n) :
    ∃ ok c' u',
      k.buildUserTask t binary buf n =
        some (ok, { k with heap := c' }, { t with toUserTask := u' }) ∧
      ((ok = false ∧ ∃ o lost, BuildFailed k.heap c' k.shm us rest ps t.toUserTask u' o lost) ∨
        ok = true ∧ SameSpace t.toUserTask u' ∧ World c' k.shm (us ++ [u']) rest ps ∧
          Stable k.heap c' (GenOS.owners us) ∧ UserImage buf c'.phys u'.toOwner ∧
          recordsOf u'.toOwner = []) := by
  have hlimit : n ≤ 65532 := ha.sound.limit
  have huser := h.userOk_last ho
  have hcount : n + userStackPages ≤ 65536 := by
    show n + 4 ≤ 65536
    omega
  obtain ⟨room, c₁, u₁, he₁, hu₁, hst₁, hr₁, hroom⟩ := userPagesReserve_spec huser hcount
  have hs₁ := hr₁.sameSpace
  have hsame₁ : u₁.shmAttached = t.shmAttached ∧ u₁.userPages = [] ∧ u₁.allocations = [] ∧
      u₁.allocationBlocks = [] := by
    obtain ⟨block, capacity, he⟩ := hr₁.owner
    rw [he]
    exact ⟨rfl, hb.pages, hb.allocations, hb.nodes⟩
  have hown₁ : owned c₁.phys u₁.toOwner = owned k.phys t.toOwner := by
    have hown := userPagesReserve_owned huser he₁ (List.mem_append_right _ List.mem_cons_self)
    obtain ⟨block, capacity, he⟩ := hr₁.owner
    rw [he]
    exact hown
  have htr₁ : Trade k.heap c₁ (owned k.phys t.toOwner) (owned c₁.phys u₁.toOwner) := by
    rw [hown₁]
    exact (hst₁.trade huser.memory).frame (owned k.phys t.toOwner)
  have hst₁ : Stable k.heap c₁ (GenOS.owners us ++ [t.toOwner]) := hst₁.stable
  have hstable₁ : Stable k.heap c₁ (GenOS.owners us) := hst₁.mono fun v hv =>
    List.mem_append_left _ hv
  have hm₁ : Memory c₁ (GenOS.owners us ++ [u₁.toOwner]) k.shm.frames rest
    (u₁.blocks ++ (userBlocks us ++ k.shm.blocks ++ ps)) := hu₁.memory
  unfold buildUserTask
  simp only [he₁, Option.bind_eq_bind, Option.bind_some]
  cases room with
  | false =>
    refine ⟨false, c₁, u₁, rfl,
      .inl ⟨rfl, u₁.toOwner, [], hm₁, hstable₁, htr₁, hs₁, rfl, ?_, hsame₁.1⟩⟩
    rw [List.append_nil]
  | true =>
  -- the address space is still empty
  have htm : t.toOwner ∈ GenOS.owners us ++ t.toOwner :: [] :=
    List.mem_append_right _ List.mem_cons_self
  have hroot : t.pml4 ∈ k.phys.tables t.pml4 lowerHalf := Radix.root_mem_tables ..
  have hempty₁ : ∀ i < 256, c₁.phys.mem u₁.pml4 i = 0#64 := fun i hi => by
    rw [hs₁.root, userPagesReserve_mem huser hb.pagesBlock he₁ (fun hg => ?_)
      (huser.memory.spaces.used_table (mem_allTables htm hroot))]
    · exact hempty i hi
    · exact huser.memory.spaces.tables_disjoint (List.mem_append_left _ hg) hroot
  have hstart : Building c₁.phys c₁.phys (GenOS.owners us) [] u₁.toOwner
    (u₁.toOwner.withPages []) k.shm.frames
      (c₁.heap.frames ++ rest) [] [] := by
    rw [withPages_nil (o := u₁.toOwner) hsame₁.2.1]
    exact .start hm₁.spaces (.nil hempty₁ hsame₁.2.1)
  simp only [Bool.not_true, Bool.false_eq_true, if_false]
  obtain ⟨ok, s, records, he, hload⟩ := @loadUserTask_spec
    { t with toUserTask := u₁ } _ _ { k with heap := c₁ } binary buf _ hstart
    (hs₁.root ▸ (owns_iff.mp ho).2) hsame₁.2.1
  rw [he]
  refine ⟨ok, c₁.setPhys s, { u₁ with userPages := records }, rfl, ?_⟩
  rcases hload with ⟨rfl, mapped, lost, L, hrec, hbuild⟩ |
    ⟨rfl, ⟨n', maxPages, ha'⟩, hbuild, himage⟩
  · obtain ⟨hm, hst, htr⟩ := hbuild.memory hm₁
    refine .inl ⟨rfl, _, _, hm, hstable₁.trans hst, htr₁.trans htr, ⟨hs₁.thread, hs₁.root⟩,
      rfl, ?_, hsame₁.1⟩
    rw [hrec, List.map_append]
    exact .refl _
  · obtain ⟨hm, hst, -⟩ := hbuild.memory hm₁
    have hk : SameSpace t.toUserTask { u₁ with userPages := records } := ⟨hs₁.thread, hs₁.root⟩
    have hlen : records.length = n + userStackPages := by
      have hlen : records.length = (userPagesOf buf).length := hbuild.length
      unfold userPagesOf stackFrom at hlen
      rwa [List.length_append, ha.sound.length buf, List.length_map, List.length_range'] at hlen
    have hsound : OwnerSound s k.shm { u₁ with userPages := records } := by
      refine .of_pages ?_ (hs₁.thread.trans (owns_iff.mp ho).1) hsame₁.2.2.1 hsame₁.2.2.2
        (hsame₁.1.trans hb.attached) ?_ hu₁.layout.capacity ?_
      · exact hbuild.built.wxOk (hbuild.spaces.owner _ hbuild.mem) hbuild.spaces.small
          (userPagesOf_wx ha')
      · exact Nat.le_trans (Nat.le_of_eq hlen) (hroom rfl)
      · exact Nat.le_trans (Nat.le_of_eq hlen) hcount
    have hstable := hstable₁.trans hst
    have hm' :
      Memory (c₁.setPhys s)
        (GenOS.owners us ++ { u₁ with userPages := records }.toOwner :: []) k.shm.frames
        rest
          (UserTask.blocks { u₁ with userPages := records } ++
            (userBlocks us ++ k.shm.blocks ++ ps)) := hm
    refine .inr ⟨rfl, hk, ?_, hstable, himage, ?_⟩
    · exact h.replace_last (hk.owns.trans ho) ⟨hm', hsound.layout⟩ hsame₁.1 hsound
        hstable.unaffected
    · exact recordsOf_bare hsame₁.2.2.1 (hsame₁.1.trans hb.attached)

/-- What a successful `create_user_task` did. -/
structure Started (k k' : Kernel) (buf : List (BitVec 8)) (child : Process) : Prop where
  tasks : k'.tasks = k.tasks ++ [child]
  pid : child.pid = k.nextPid ∧ child.tgid = k.nextPid ∧ child.isThread = false
  root : child.pml4 ≠ 0
  next : k'.nextPid = (k.nextPid + 1) % 2 ^ 32
  image : UserImage buf k'.phys child.toOwner
  bare : recordsOf child.toOwner = []
  others : ∀ u ∈ k.owners, Unaffected k.phys k'.phys u

theorem Started.spares (h : Started k k' buf child) : k.Spares k' r := fun u hu _ => by
  refine .inl ⟨?_, h.others u hu⟩
  unfold owners
  rw [h.tasks, users_append, owners_append]
  exact List.mem_append_left _ hu

/-- A file that passed its check becomes a process, or everything is left as it was. -/
theorem startUserTask_spec {n : Nat} (h : k.Sound rest ps)
    (hacc : ElfAccepted binary.toNat 65532 buf (ElfHeader.decode (buf.take 64)) n) :
    ∃ b k', k.startUserTask binary buf n = some (b, k') ∧ k'.Sound rest ps ∧
      ((b = 0 ∧ Traded k k' [] []) ∨ b ≠ 0 ∧ ∃ child, Started k k' buf child) := by
  unfold startUserTask
  rcases make_cases h with ⟨k', he, hst, hs⟩ |
    ⟨b, k₁, hb, he, ⟨k₂, k', he₂, hf, hst, hs⟩ | ⟨k₂, start, he₂, hm⟩⟩
  · simp only [he, Option.bind_eq_bind, Option.bind_some]
    exact ⟨0, k', rfl, hs, .inl ⟨rfl, hst⟩⟩
  · have hf : k₂.free (Process.blank b).block = some k' := hf
    simp only [he, he₂, hf, Option.bind_eq_bind, Option.bind_some]
    exact ⟨0, k', rfl, hs, .inl ⟨rfl, hst⟩⟩
  obtain ⟨child, hchild⟩ : ∃ x : Process, x = { Process.blank b with
    kernelStackPhys := start, kernelStackPages := GenOS.kernelStackPages } := ⟨_, rfl⟩
  have hbare : Bare child.toUserTask := by
    rw [hchild]
    exact bare_blank b
  have hpid : child.pid = 0 ∧ child.isThread = false ∧ child.block = b := by
    rw [hchild]
    exact ⟨rfl, rfl, rfl⟩
  rw [← hchild] at hm he₂
  simp only [he, he₂, Option.bind_eq_bind, Option.bind_some]
  rcases vmmCreateAddressSpace_spec hm.sound.world.memory.spaces.inv with ha | ⟨a, s, ha, h0, hcr⟩
  · -- no address space
    have ha : k₂.phys.vmmCreateAddressSpace = (0, { k₂.phys with asked := k₂.phys.asked + 1 }) := ha
    obtain ⟨k', hd, hst, hs⟩ := noSpace_spec (t := { child with pml4 := 0 }) ⟨hm.still, hm.sound⟩
      (hbare.withRoot 0)
      rfl hpid.1 (k₂.phys.asked + 1)
    rw [ha]
    dsimp only
    rw [if_pos rfl, hd]
    exact ⟨0, k', rfl, hs, .inl ⟨rfl, hst⟩⟩
  have ha : k₂.phys.vmmCreateAddressSpace = (a, s) := ha
  obtain ⟨hst, hw, -⟩ := addSpace_spec hm hcr h0 hpid.2.1 hbare
  have hbare' : Bare { child.toUserTask with pml4 := a } := hbare.withRoot a
  have hw :
    World (k₂.setPhys s).heap (k₂.setPhys s).shm
      (users k.tasks ++ [{ child.toUserTask with pml4 := a }])
      (child.stack ++ (stackFrames k.tasks ++ rest))
      (child.block :: (taskBlocks k.tasks ++ ps)) := by
    rw [hst.shm]
    exact hw
  rw [ha]
  dsimp only
  rw [if_neg h0]
  obtain ⟨ok, c', u', hbuild, hres⟩ := buildUserTask_spec (t := { child with pml4 := a }) hw
    (owns_iff.mpr ⟨hpid.2.1, h0⟩) hbare' (fun i hi => hcr.empty i hi) hacc
  rw [hbuild]
  simp only [Option.bind_some]
  rcases hres with ⟨rfl, o, lost, hf⟩ | ⟨rfl, hk, hw', hst', himage, hrec⟩
  · -- the image was not finished
    simp only [Bool.false_eq_true, if_false]
    have hU :
        Unfinished k { k₂.setPhys s with heap := c' }
          { child with toUserTask := u' } o lost rest ps := by
      refine ⟨⟨⟨hst.tasks, hst.shm, hst.next, hst.stable.trans hf.stable⟩, hst.trade.trans ?_⟩,
        hst.shm ▸ hf.memory,
        hf.same.thread.trans hpid.2.1, hpid.1, hf.root, hf.pages,
        fun x hx => World.bare_unattached hbare' x (hf.attached ▸ hx)⟩
      exact (hf.trade.frame child.stack).perm List.perm_append_comm List.perm_append_comm
    obtain ⟨k', hd, hst', hs'⟩ := taskDiscard_spec h hU
    rw [hd]
    exact ⟨0, k', rfl, hs', .inl ⟨rfl, hst'⟩⟩
  simp only [if_true]
  obtain ⟨k₃, hk₃⟩ : ∃ x : Kernel, x = { k₂.setPhys s with heap := c' } := ⟨_, rfl⟩
  have htasks : k₃.tasks = k.tasks := by
    rw [hk₃]
    exact hst.tasks
  have hnext : k₃.nextPid = k.nextPid := by
    rw [hk₃]
    exact hst.next
  have hth : u'.isThread = false := hk.thread.trans hpid.2.1
  obtain ⟨hs, ⟨hid, hgroup⟩, hnext'⟩ :=
    publish_process (t := { child with toUserTask := u' }) h htasks hnext hth
    (by rw [hk₃]; exact hw')
  rw [← hk₃]
  refine ⟨_, _, rfl, hs,
    .inr ⟨hpid.2.2.symm ▸ hb, _, congrArg (· ++ _) htasks, ⟨hid, hgroup, hth⟩, ?_, hnext',
    ?_, hrec, ?_⟩⟩
  · exact fun hz => h0 (hk.root.symm.trans hz)
  · subst hk₃
    exact himage
  · subst hk₃
    exact fun o hom => (hst.stable.unaffected o hom).trans (hst'.unaffected o hom)

theorem maxImagePages_toNat : maxImagePages.toNat = 65532 := by decide

theorem createUserTask_eq {valid : Bool} {image : Option ElfImageInfo}
    (h : elfValidate binary buf maxImagePages (some blankImage) = .ok (valid, image)) :
    k.createUserTask binary buf =
      if !valid then some (0, k) else k.startUserTask binary buf
        (image.getD blankImage).pageCount := by
  unfold createUserTask
  rw [h]
  rfl

/-- **`create_user_task`** makes a process with the image of the file, or leaves everything as it
was. -/
theorem createUserTask_spec (h : k.Sound rest ps) (binary : BitVec 64) (buf : List (BitVec 8)) :
    ∃ b k', k.createUserTask binary buf = some (b, k') ∧ k'.Sound rest ps ∧
      ((b = 0 ∧ Traded k k' [] []) ∨ b ≠ 0 ∧ ∃ child, Started k k' buf child) := by
  rcases elfValidate_cases binary buf maxImagePages (some blankImage) with hno | ⟨n, hyes, hacc⟩
  · rw [createUserTask_eq hno]
    exact ⟨0, k, rfl, h, .inl ⟨rfl, .refl h⟩⟩
  · rw [maxImagePages_toNat] at hacc
    rw [createUserTask_eq hyes]
    exact startUserTask_spec h hacc

end Kernel

end GenOS
