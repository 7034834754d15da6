import GenOS.Fs.VfsIdentity

/-!
# Runs without a new file in a named slot

`Numbered.Inv` holds after every operation that does not make a file in a slot that an open
descriptor names, and `Own` follows from it.
-/

namespace GenOS

open Splice

variable {n : Numbered} {tar : TarRead} {op : VfsOp} {s : Vfs} {f : VfsFd} {slot : Nat → Nat}
  {opened : Nat → Nat → Nat} {p k : Nat} {fd : Int}

theorem length_le_overwrite (l : List UInt8) (o : Nat) (src : List UInt8) :
    l.length ≤ (overwrite l o src).length ∧
      (src ≠ [] → o + src.length ≤ (overwrite l o src).length) := by
  unfold overwrite
  split
  · next h => exact ⟨Nat.le_refl _, fun hne => absurd h hne⟩
  · rw [length_splice]
    exact ⟨Nat.le_max_left _ _, fun _ => Nat.le_max_right _ _⟩

/-- A write fails, or the bytes that fit are written. -/
theorem Vfs.vfsWrite_cases (h : s.Ready) (p : Nat) (fd : Int) {src : List UInt8}
    (hlen : src.length < 9223372036854775808) (alloc : HeapBlockBytes) :
    s.vfsWrite p fd src alloc = (s, -1) ∨ ∃ k t, s.WritableAt p fd k ∧
      s.vfsWrite p fd src alloc =
        (t, ((fitting (s.fds p fd.toNat).offset src.length : Nat) : Int)) ∧
      WriteTo s t p fd.toNat k (src.take (fitting (s.fds p fd.toNat).offset src.length)) := by
  by_cases hw : ∃ k, s.WritableAt p fd k
  · obtain ⟨k, hw⟩ := hw
    rcases vfsWrite_spec h hw hlen alloc with ⟨t, heq, -, ht⟩ | ⟨-, -, -, heq⟩
    · exact .inr ⟨k, t, hw, heq, ht⟩
    · exact .inl heq
  · exact .inl (vfsWrite_closed (not_exists.mp hw) src alloc)

theorem Vfs.install_files (s : Vfs) (p : Nat) (f : VfsFd) : (s.install p f).1.files = s.files := by
  unfold Vfs.install
  split <;> rfl

/-- A new descriptor, of the file in its slot. -/
theorem VfsFd.On.install (h : ∀ q j, (s.fds q j).On s.files slot (opened q j)) (p : Nat)
    (ho : f.offset = 0) (hs : ∀ k, f.tmpfsIdx = some k → f.size ≤ (s.files k).size) (q j : Nat) :
    ((s.install p f).1.fds q j).On (s.install p f).1.files slot
      (if q = p ∧ (s.install p f).2 = some j then
        (((s.install p f).1.fds p j).tmpfsIdx.map slot).getD (opened q j)
      else opened q j) := by
  unfold Vfs.install
  cases hfree : s.freeFd p with
  | none =>
    rw [if_neg fun hq => by cases hq.2]
    exact h q j
  | some i =>
    dsimp only
    rw [Vfs.setFd_fds]
    by_cases hqj : q = p ∧ j = i
    · obtain ⟨rfl, rfl⟩ := hqj
      rw [if_pos ⟨rfl, rfl⟩, if_pos ⟨rfl, rfl⟩, Vfs.setFd_fds, if_pos ⟨rfl, rfl⟩]
      cases hi : f.tmpfsIdx with
      | none => exact .of_archive hi
      | some k => exact .start hi ho (hs k hi)
    · rw [if_neg hqj, if_neg fun hq => hqj ⟨hq.1, (Option.some.inj hq.2).symm⟩]
      exact h q j

/-- `tmpfs_unlink` touches no file that stays. -/
theorem Tmpfs.tmpfsUnlink_inUse (fs : Tmpfs) (name : List UInt8)
    (h : ((fs.tmpfsUnlink name).1 k).inUse = true) : (fs.tmpfsUnlink name).1 k = fs k := by
  unfold Tmpfs.tmpfsUnlink at h ⊢
  cases hopen : fs.tmpfsOpen name with
  | none => rfl
  | some i =>
    rw [hopen] at h
    dsimp only at h ⊢
    by_cases hk : k = i
    · rw [hk, Function.update_self] at h
      cases h
    · exact Function.update_of_ne hk _ _

namespace Numbered

open Vfs

/-- Every open descriptor is of the file it was opened on, or of none. -/
structure Inv (n : Numbered) : Prop where
  ready : n.vfs.Ready
  names : ∀ p i, (n.vfs.fds p i).On n.vfs.files n.inSlot (n.opened p i)
  texts : Texts n.vfs.files n.inSlot n.text n.steps

theorem init_inv : Inv init :=
  ⟨init_ready, fun _ _ => .of_archive rfl,
    ⟨fun _ hu => absurd hu Bool.false_ne_true, fun _ hu => absurd hu Bool.false_ne_true,
      fun _ _ hu => absurd hu Bool.false_ne_true, fun _ _ => rfl⟩⟩

theorem exec_of_none (h : n.vfs.makes tar op = none) : n.exec tar op =
    ⟨n.vfs.exec tar op, n.steps + 1, n.inSlot, n.reopened tar n.inSlot op, n.rewritten op⟩ := by
  unfold exec
  rw [h]

theorem exec_of_some (h : n.vfs.makes tar op = some k) : n.exec tar op =
    ⟨n.vfs.exec tar op, n.steps + 1, Function.update n.inSlot k n.steps,
      n.reopened tar (Function.update n.inSlot k n.steps) op, n.rewritten op⟩ := by
  unfold exec
  rw [h]

/-! ## Through one descriptor -/

/-- A write that fails. -/
theorem rewritten_of_failed {src : List UInt8} {alloc : HeapBlockBytes} {r : Vfs}
    (h : n.vfs.vfsWrite p fd src alloc = (r, -1)) :
      n.rewritten (.write p fd src alloc) = n.text := by
  unfold rewritten
  dsimp only
  rw [h]
  cases (n.vfs.fds p fd.toNat).tmpfsIdx with
  | none => rfl
  | some k => exact Function.update_eq_self _ _

/-- What a descriptor reads and where it goes on. -/
theorem Inv.read (h : n.Inv) (p : Nat) (fd : Int) (count : Nat) :
    (n.vfs.vfsRead p fd count).1.files = n.vfs.files ∧
      (∀ q j, ((n.vfs.vfsRead p fd count).1.fds q j).On n.vfs.files n.inSlot (n.opened q j)) ∧
      (∀ k, (n.vfs.fds p fd.toNat).Names k → (n.vfs.vfsRead p fd count).2.2 = [] ∨
        (n.vfs.vfsRead p fd count).2.2 =
          ((n.text (n.opened p fd.toNat)).drop (n.vfs.fds p fd.toNat).offset).take count) := by
  by_cases ho : n.vfs.Opened p fd
  · rw [vfsRead_eq ho]
    split
    · exact ⟨rfl, h.names, fun _ _ => .inl rfl⟩
    dsimp only
    have hon := h.names p fd.toNat
    have hmoved : ∀ (c : Cache) (o : Nat), (∀ k, (n.vfs.fds p fd.toNat).Names k →
        (n.vfs.files k).inUse = true → o ≤ (n.vfs.files k).size) →
        ∀ q j, ((({ n.vfs with cache := c } : Vfs).moveTo p fd.toNat o).fds q j).On n.vfs.files
          n.inSlot (n.opened q j) := by
      intro c o hle q j
      rw [moveTo, setFd_fds]
      split
      · next hqj =>
        rw [hqj.1, hqj.2]
        exact hon.setOffset hle
      · exact h.names q j
    rcases (n.vfs.fds p fd.toNat).fetch_cases n.vfs.files with
      ⟨k, hi, hk, hu⟩ | ⟨src, hi, -, heq⟩ | heq
    · rw [VfsFd.fetch_tmpfs h.ready.clean hi hk hu]
      obtain ⟨hslot, hoff, -⟩ := hon k ⟨ho.file, hi⟩ hu
      refine ⟨by split <;> rfl, ?_, fun _ _ => .inr ?_⟩
      · split
        · refine hmoved _ _ fun j hj _ => ?_
          obtain rfl := Option.some.inj (hi.symm.trans hj.2)
          refine Nat.le_trans (Nat.mod_le _ _) ?_
          rw [Int.toNat_natCast, List.length_take, List.length_drop, TmpfsFile.length_content]
          omega
        · exact h.names
      · rw [h.texts.content k hu, hslot]
    · -- a file of the archive
      have hnone : ∀ k, ¬ (n.vfs.fds p fd.toNat).Names k := fun k hk => by
        rw [VfsFd.Names, hi] at hk
        cases hk.2
      refine ⟨by split <;> rfl, ?_, fun k hk => absurd hk (hnone k)⟩
      split
      · exact hmoved _ _ fun k hk => absurd hk (hnone k)
      · exact h.names
    · rw [heq]
      exact ⟨rfl, h.names, fun _ _ => .inl rfl⟩
  · rw [vfsRead_closed ho]
    exact ⟨rfl, h.names, fun _ _ => .inl rfl⟩

/-- What a write through a descriptor leaves. -/
theorem Inv.write (h : n.Inv) (p : Nat) (fd : Int) {src : List UInt8}
    (hlen : src.length < 9223372036854775808) (alloc : HeapBlockBytes) :
    (∀ q j, ((n.vfs.vfsWrite p fd src alloc).1.fds q j).On
        (n.vfs.vfsWrite p fd src alloc).1.files n.inSlot (n.opened q j)) ∧
      Texts (n.vfs.vfsWrite p fd src alloc).1.files n.inSlot (n.rewritten (.write p fd src alloc))
        (n.steps + 1) := by
  rcases vfsWrite_cases h.ready p fd hlen alloc with heq | ⟨k, t, hw, heq, ht⟩
  · rw [rewritten_of_failed heq, heq]
    exact ⟨h.names, h.texts.mono fun k hu => ⟨hu, rfl⟩⟩
  obtain ⟨hslot, -, -⟩ := h.names p fd.toNat k ⟨hw.file, hw.index⟩ hw.inUse
  have hre : n.rewritten (.write p fd src alloc) =
      Function.update n.text (n.inSlot k) (t.files k).content := by
    unfold rewritten
    dsimp only
    rw [hw.index, heq, ht.content, h.texts.content k hw.inUse]
    rfl
  have hsizes : ∀ j, (t.files j).inUse = true →
      (n.vfs.files j).inUse = true ∧ (n.vfs.files j).size ≤ (t.files j).size := by
    intro j hj
    by_cases hjk : j = k
    · rw [hjk, ← TmpfsFile.length_content, ← TmpfsFile.length_content, ht.content]
      exact ⟨hw.inUse, (length_le_overwrite _ _ _).1⟩
    · rw [ht.others j hjk] at hj ⊢
      exact ⟨hj, Nat.le_refl _⟩
  rw [hre, heq]
  refine ⟨fun q j => ?_, h.texts.write hw.inUse ht.others⟩
  rw [ht.fds, setFd_fds]
  by_cases hqj : q = p ∧ j = fd.toNat
  · rw [if_pos hqj, hqj.1, hqj.2, wroteFd]
    split
    · exact (h.names p fd.toNat).mono hsizes
    · next hne =>
      intro i hi _
      obtain rfl : k = i := Option.some.inj (hw.index.symm.trans hi.2)
      refine ⟨hslot, ?_, Nat.le_refl _⟩
      rw [← TmpfsFile.length_content, ht.content]
      exact (length_le_overwrite _ _ _).2 fun h0 => hne (by rw [h0]; rfl)
  · rw [if_neg hqj]
    exact (h.names q j).mono hsizes

theorem Inv.seek (h : n.Inv) (p : Nat) (fd offset whence : Int) :
    (n.vfs.vfsSeek p fd offset whence).1.files = n.vfs.files ∧
      ∀ q j, ((n.vfs.vfsSeek p fd offset whence).1.fds q j).On n.vfs.files n.inSlot
        (n.opened q j) := by
  by_cases hv : fd < 0 ∨ (vfsMaxFds : Int) ≤ fd ∨ (n.vfs.fds p fd.toNat).type ≠ .file ∨
      whence ≠ 0 ∧ whence ≠ 1 ∧ whence ≠ 2
  · rw [vfsSeek_invalid hv]
    exact ⟨rfl, h.names⟩
  obtain ⟨h0, h1, ht, hw⟩ := by simpa only [not_or] using hv
  have ht := Decidable.not_not.mp ht
  rw [vfsSeek_eq (Int.not_lt.mp h0) (Int.not_le.mp h1) ht (by omega)]
  refine ⟨rfl, fun q j => ?_⟩
  rw [setFd_fds]
  split
  · next hqj =>
    rw [hqj.1, hqj.2]
    refine (h.names p fd.toNat).setOffset fun k hk hu => ?_
    have hsize := ((h.ready.inRange p fd.toNat).tmpfs k hk.1 hk.2).2
    exact Nat.le_trans (seekPos_le (Nat.lt_of_le_of_lt hsize (by decide)) _ _)
      (h.names p fd.toNat k hk hu).2.2
  · exact h.names q j

theorem Inv.close (h : n.Inv) (p : Nat) (fd : Int) :
    (n.vfs.vfsClose p fd).1.files = n.vfs.files ∧
      ∀ q j, ((n.vfs.vfsClose p fd).1.fds q j).On n.vfs.files n.inSlot (n.opened q j) := by
  unfold vfsClose
  split
  · exact ⟨rfl, h.names⟩
  split
  · exact ⟨rfl, h.names⟩
  refine ⟨rfl, fun q j => ?_⟩
  rw [setFd_fds]
  split
  · exact .of_archive rfl
  · exact h.names q j

/-- An operation that makes no file and writes to none. -/
theorem Inv.quiet (h : n.Inv) (hready : (n.vfs.exec tar op).Ready)
    (hmakes : n.vfs.makes tar op = none) (htext : n.rewritten op = n.text)
    (hfiles : ∀ k, ((n.vfs.exec tar op).files k).inUse = true →
      (n.vfs.exec tar op).files k = n.vfs.files k)
    (hnames : ∀ q j, ((n.vfs.exec tar op).fds q j).On n.vfs.files n.inSlot
      (n.reopened tar n.inSlot op q j)) : Inv (n.exec tar op) := by
  have hkeep : ∀ k, ((n.vfs.exec tar op).files k).inUse = true →
      (n.vfs.files k).inUse = true ∧ (n.vfs.exec tar op).files k = n.vfs.files k := fun k hk =>
    ⟨hfiles k hk ▸ hk, hfiles k hk⟩
  rw [exec_of_none hmakes, htext]
  refine ⟨hready, fun q j => (hnames q j).mono fun k hk => ?_, h.texts.mono fun k hk => ?_⟩
  · exact ⟨(hkeep k hk).1, Nat.le_of_eq (congrArg TmpfsFile.size (hkeep k hk).2.symm)⟩
  · exact ⟨(hkeep k hk).1, congrArg TmpfsFile.content (hkeep k hk).2⟩

theorem reopened_open (p : Nat) (filename : List UInt8) (flags : BitVec 32) (alloc : HeapBlockBytes)
    (q j : Nat) : n.reopened tar slot (.open p filename flags alloc) q j =
      if q = p ∧ (n.vfs.vfsOpen tar p filename flags alloc).2 = some j then
        (((n.vfs.vfsOpen tar p filename flags alloc).1.fds p j).tmpfsIdx.map slot).getD
          (n.opened q j)
      else n.opened q j := rfl

theorem Inv.open (h : n.Inv) (p : Nat) (filename : List UInt8) (flags : BitVec 32)
    (alloc : HeapBlockBytes)
    (hready : (n.vfs.exec tar (.open p filename flags alloc)).Ready)
    (hop : ¬ n.vfs.Reuses tar (.open p filename flags alloc)) :
    Inv (n.exec tar (.open p filename flags alloc)) := by
  rcases vfsOpen_cases tar n.vfs p filename flags alloc with
    ⟨k, block, f, hmakes, hi, ho, hsize, heq⟩ | ⟨hmakes, heq | ⟨f, ho, hsize, heq⟩⟩
  · -- a new file, in a slot that no open descriptor names
    rw [exec_of_some hmakes]
    refine ⟨hready, fun q j => ?_, ?_⟩
    · show ((n.vfs.vfsOpen tar p filename flags alloc).1.fds q j).On
        (n.vfs.vfsOpen tar p filename flags alloc).1.files _
        (n.reopened tar _ (.open p filename flags alloc) q j)
      rw [reopened_open, heq]
      refine VfsFd.On.install (fun q j => ?_) p ho (fun k _ => hsize ▸ Nat.zero_le _) q j
      exact (h.names q j).create (fun hk => hop ⟨k, q, j, hmakes, hk⟩) _ _
    · show Texts (n.vfs.vfsOpen tar p filename flags alloc).1.files _ n.text _
      rw [heq, install_files]
      exact h.texts.create filename block k
  · refine h.quiet hready hmakes rfl (fun k _ => ?_) fun q j => ?_
    · exact congrFun (congrArg (fun r : Vfs × Option Nat => r.1.files) heq) k
    · show ((n.vfs.vfsOpen tar p filename flags alloc).1.fds q j).On _ _ _
      rw [reopened_open, heq, if_neg fun hq => by cases hq.2]
      exact h.names q j
  · refine h.quiet hready hmakes rfl (fun k _ => ?_) fun q j => ?_
    · show (n.vfs.vfsOpen tar p filename flags alloc).1.files k = _
      rw [heq, install_files]
    · show ((n.vfs.vfsOpen tar p filename flags alloc).1.fds q j).On _ _ _
      rw [reopened_open, heq]
      have hon := VfsFd.On.install h.names p ho hsize q j
      rwa [install_files] at hon

theorem Inv.create (h : n.Inv) (filename : List UInt8) (alloc : HeapBlockBytes)
    (hready : (n.vfs.exec tar (.create filename alloc)).Ready)
    (hop : ¬ n.vfs.Reuses tar (.create filename alloc)) :
    Inv (n.exec tar (.create filename alloc)) := by
  have hmakes : n.vfs.makes tar (.create filename alloc) =
      if n.vfs.files.tmpfsOpen filename = none ∧ alloc.isSome then n.vfs.files.freeSlot else none :=
    rfl
  have hsame : ∀ {r}, n.vfs.files.tmpfsCreate filename alloc = (n.vfs.files, r) →
      n.vfs.makes tar (.create filename alloc) = none → Inv (n.exec tar (.create filename alloc)) :=
    fun heq hnone => h.quiet hready hnone rfl
      (fun k _ => congrFun (congrArg Prod.fst heq) k) h.names
  cases hopen : n.vfs.files.tmpfsOpen filename with
  | some i =>
    have heq : n.vfs.files.tmpfsCreate filename alloc = (n.vfs.files, some i) := by
      unfold Tmpfs.tmpfsCreate
      rw [hopen]
    exact hsame heq (hmakes.trans (if_neg fun hc => by rw [hopen] at hc; cases hc.1))
  | none =>
    rcases tmpfsCreate_makes hopen with ⟨k, block, hk, halloc, heq⟩ | ⟨hno, heq⟩
    · have hk' := hmakes.trans ((if_pos ⟨hopen, halloc⟩).trans hk)
      rw [exec_of_some hk']
      have hfiles : (n.vfs.exec tar (.create filename alloc)).files =
          Function.update n.vfs.files k (Tmpfs.created filename block) := congrArg Prod.fst heq
      refine ⟨hready, fun q j => ?_, ?_⟩
      · rw [hfiles]
        exact (h.names q j).create (fun hn => hop ⟨k, q, j, hk', hn⟩) _ _
      · rw [hfiles]
        exact h.texts.create filename block k
    · refine hsame heq ?_
      rw [hmakes]
      rcases hno with hno | hno
      · rw [hno, ite_self]
      · exact if_neg fun hc => by simp [hno] at hc

/-- One operation. -/
theorem Inv.exec (h : n.Inv) (htar : tar.Fits) (hfits : op.Fits) (hop : ¬ n.vfs.Reuses tar op) :
    Inv (n.exec tar op) := by
  have hready := h.ready.exec htar hfits
  cases op with
  | «open» p filename flags alloc => exact h.open p filename flags alloc hready hop
  | read p fd count =>
    obtain ⟨hfiles, hnames, -⟩ := h.read p fd count
    exact h.quiet hready rfl rfl (fun k _ => congrFun hfiles k) hnames
  | write p fd src alloc =>
    obtain ⟨hnames, htexts⟩ := h.write p fd hfits alloc
    exact ⟨hready, hnames, htexts⟩
  | seek p fd offset whence =>
    obtain ⟨hfiles, hnames⟩ := h.seek p fd offset whence
    exact h.quiet hready rfl rfl (fun k _ => congrFun hfiles k) hnames
  | close p fd =>
    obtain ⟨hfiles, hnames⟩ := h.close p fd
    exact h.quiet hready rfl rfl (fun k _ => congrFun hfiles k) hnames
  | create filename alloc => exact h.create filename alloc hready hop
  | unlink filename =>
    exact h.quiet hready rfl rfl (fun k hk => Tmpfs.tmpfsUnlink_inUse _ _ hk) h.names
  | newTask p =>
    refine h.quiet hready rfl rfl (fun k _ => rfl) fun q j => ?_
    show VfsFd.On _ _ (Function.update n.vfs.fds p (fun _ => {}) q j) (n.opened q j)
    by_cases hq : q = p
    · rw [hq, Function.update_self]
      exact .of_archive rfl
    · rw [Function.update_of_ne hq]
      exact h.names q j
  | copyTask parent child =>
    refine h.quiet hready rfl rfl (fun k _ => rfl) fun q j => ?_
    show VfsFd.On _ _ (Function.update n.vfs.fds child (n.vfs.fds parent) q j)
      (n.opened (if q = child then parent else q) j)
    by_cases hq : q = child
    · rw [hq, Function.update_self, if_pos rfl]
      exact h.names parent j
    · rw [Function.update_of_ne hq, if_neg hq]
      exact h.names q j

/-- **Descriptor identity**, of one state. -/
theorem Inv.own (h : n.Inv) (p : Nat) (fd : Int) : n.Own p fd := by
  refine ⟨fun k hk count => (h.read p fd count).2.2 k hk, fun src alloc k hk => ?_,
    fun hnone count files => ?_⟩
  · have hw := vfsWrite_files hk
    obtain ⟨hslot, hoff, -⟩ := h.names p fd.toNat k ⟨hw.file, hw.index⟩ hw.inUse
    refine ⟨hslot, ?_⟩
    rw [← hslot, ← h.texts.content k hw.inUse, TmpfsFile.length_content]
    exact hoff
  · -- the archive and the cache
    unfold Vfs.vfsRead
    dsimp only
    generalize n.vfs.fds p fd.toNat = f at hnone
    obtain ⟨type, name, data, size, offset, writable, tmpfsIdx⟩ := f
    obtain rfl : tmpfsIdx = none := hnone
    split
    · rfl
    split
    · rfl
    split
    · rfl
    cases data with
    | none => rfl
    | some src =>
      dsimp only
      split <;> rfl

/-! ## Runs -/

theorem after_vfs (tar : TarRead) (ops : List VfsOp) : (after tar ops).vfs = Vfs.after tar ops := by
  suffices h : ∀ n : Numbered,
      (ops.foldl (Numbered.exec tar) n).vfs = ops.foldl (Vfs.exec tar) n.vfs from h init
  induction ops with
  | nil => exact fun _ => rfl
  | cons op ops ih => exact fun n => ih (n.exec tar op)

/-- No operation from `s` on makes a file in a slot that an open descriptor names. -/
def Spares (tar : TarRead) : Vfs → List VfsOp → Prop
  | _, [] => True
  | s, op :: ops => ¬ s.Reuses tar op ∧ Spares tar (s.exec tar op) ops

theorem Inv.run (htar : tar.Fits) {ops : List VfsOp} (h : n.Inv) (hfits : ∀ op ∈ ops, op.Fits)
    (hspares : Spares tar n.vfs ops) : Inv (ops.foldl (Numbered.exec tar) n) := by
  induction ops generalizing n with
  | nil => exact h
  | cons op ops ih =>
    obtain ⟨hop, hrest⟩ := hspares
    exact ih (h.exec htar (hfits op List.mem_cons_self) hop)
      (fun o ho => hfits o (List.mem_cons_of_mem op ho)) hrest

/-- **Descriptor identity**, after every run that makes no file in a slot with an open descriptor.
The numbers are beside the state of the code. -/
theorem descriptor_identity (tar : TarRead) (ops : List VfsOp) (htar : tar.Fits)
    (hfits : ∀ op ∈ ops, op.Fits) (hspares : Spares tar Vfs.init ops) (p : Nat) (fd : Int) :
    (after tar ops).vfs = Vfs.after tar ops ∧ (after tar ops).Own p fd :=
  ⟨after_vfs tar ops, (init_inv.run htar hfits hspares).own p fd⟩

/-- A file that is deleted while it is open. -/
def deletedFile : List VfsOp :=
  [.open 0 [70] oCreate (some fun _ => 0), .write 0 0 [1] none, .open 0 [70] 0 none, .unlink [70]]

theorem descriptor_identity_deleted : (after (fun _ => none) deletedFile).Own 0 1 := by
  refine (descriptor_identity (fun _ => none) deletedFile (fun name file h => by cases h)
    (by simp [deletedFile, VfsOp.Fits]) ⟨fun h => ?_, fun h => ?_, fun h => ?_, fun h => ?_,
      trivial⟩ 0 1).2
  · obtain ⟨k, p, i, -, ht, -⟩ := h
    cases ht
  · obtain ⟨k, p, i, hk, -⟩ := h
    cases hk
  · obtain ⟨k, p, i, hk, -⟩ := h
    rw [makes_open, if_neg fun hc => absurd hc.2.2.2.2 Bool.false_ne_true] at hk
    cases hk
  · obtain ⟨k, p, i, hk, -⟩ := h
    cases hk

/-- Another task makes a file then, in the slot that descriptor 1 names. -/
def madeInItsSlot : List VfsOp :=
  deletedFile ++ [.open 1 [71] oCreate (some fun _ => 0), .write 1 0 [7] none]

/-- Descriptor 1 reads the byte of the new file. -/
theorem descriptor_of_deleted_reads_new :
    ¬ (after (fun _ => none) madeInItsSlot).Own 0 1 := fun h => by
  have hread : ((after (fun _ => none) madeInItsSlot).vfs.vfsRead 0 1 1).2.2 = [7] := by
    rfl
  rcases h.reads 0 ⟨rfl, rfl⟩ 1 with h0 | h1
  · rw [hread] at h0
    cases h0
  · rw [hread] at h1
    exact absurd h1 (by decide)

end Numbered

end GenOS
