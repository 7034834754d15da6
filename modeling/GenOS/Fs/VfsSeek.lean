import GenOS.Fs.VfsCoherence

/-!
# Seeks

`vfs_seek` adds in `int64_t` and clamps to the size that the descriptor remembers. Both are exact
when the sum does not overflow, and the file has that size or the position is within it.
-/

namespace GenOS

variable {fs fs' : Tmpfs} {s : Vfs} {p i k : Nat} {name : List UInt8} {alloc : HeapBlockBytes}
  {tar : TarRead}

theorem toInt32_mod_le (n : Nat) : (toInt32 (n % 4294967296)).toNat ≤ n := by
  have := Nat.mod_le n 4294967296
  unfold toInt32
  split <;> omega

/-! ## How far a transfer goes -/

namespace Cache

theorem length_copyOut_le (c : Cache) (e off chunk : Nat) :
    (c.copyOut e off chunk).length ≤ chunk := by
  unfold copyOut
  rw [List.length_map, List.length_range]
  exact Nat.min_le_left _ _

theorem cacheReadLoop_length {c c' : Cache} {f : File} {offset count fuel : Nat}
    {done bytes : List UInt8} (hd : done.length ≤ count)
    (h : c.cacheReadLoop f offset count fuel done = (c', some bytes)) : bytes.length ≤ count := by
  induction fuel generalizing c done with
  | zero =>
    obtain rfl := Option.some.inj (congrArg Prod.snd h)
    exact hd
  | succ fuel ih =>
    unfold cacheReadLoop at h
    split at h
    · dsimp only at h
      split at h
      · exact absurd (congrArg Prod.snd h) nofun
      · next c₁ e _ =>
        split at h
        · obtain rfl := Option.some.inj (congrArg Prod.snd h)
          exact hd
        · refine ih ?_ h
          rw [List.length_append]
          have := length_copyOut_le c₁ e ((offset + done.length) % cacheBlockSize)
            (min (cacheBlockSize - (offset + done.length) % cacheBlockSize) (count - done.length))
          omega
    · obtain rfl := Option.some.inj (congrArg Prod.snd h)
      exact hd

theorem cacheRead_le (c : Cache) (f : File) (offset count : Nat) :
    (c.cacheRead f offset count).2.1.toNat ≤ f.size - offset := by
  unfold cacheRead
  split
  · exact Nat.zero_le _
  · dsimp only
    split
    · next bytes heq =>
      have h1 := cacheReadLoop_length (Nat.zero_le _) heq
      have h2 := toInt32_mod_le bytes.length
      dsimp only
      omega
    · exact Nat.zero_le _

end Cache

namespace Tmpfs

/-- Files in use stay in use, and none gets shorter. -/
def Extends (fs fs' : Tmpfs) : Prop :=
  ∀ k, (fs k).inUse = true → (fs' k).inUse = true ∧ (fs k).size ≤ (fs' k).size

theorem Extends.refl (fs : Tmpfs) : Extends fs fs := fun _ hu => ⟨hu, Nat.le_refl _⟩

theorem Extends.update {f : TmpfsFile}
    (h : (fs k).inUse = true → f.inUse = true ∧ (fs k).size ≤ f.size) :
    Extends fs (Function.update fs k f) := by
  intro j hj
  by_cases hjk : j = k
  · rw [hjk, Function.update_self]
    exact h (hjk ▸ hj)
  · rw [Function.update_of_ne hjk]
    exact ⟨hj, Nat.le_refl _⟩

theorem tmpfsCreate_extends (fs : Tmpfs) (name : List UInt8) (alloc : HeapBlockBytes) :
    Extends fs (fs.tmpfsCreate name alloc).1 := by
  rcases tmpfsCreate_cases fs name alloc with
    ⟨_, _, heq⟩ | ⟨_, ⟨_, heq⟩ | ⟨i, block, _, hfree, _, heq⟩⟩
  · rw [heq]
    exact .refl fs
  · rw [heq]
    exact .refl fs
  · rw [heq]
    exact .update fun hu => absurd (hu.symm.trans hfree) nofun

theorem tmpfsRead_le (fs : Tmpfs) (k offset count : Nat) :
    (fs.tmpfsRead k offset count).1.toNat ≤ (fs k).size - offset := by
  unfold tmpfsRead
  split
  · exact Nat.zero_le _
  · split
    · exact Nat.zero_le _
    · dsimp only
      split
      · exact Nat.zero_le _
      · refine Nat.le_trans (toInt32_mod_le _) ?_
        split <;> omega

theorem tmpfsGetEntry_of_inUse (hk : k < tmpfsMaxFiles) (hu : (fs k).inUse = true) :
    fs.tmpfsGetEntry k = some ((fs k).name.take 99, (fs k).size) := by
  unfold tmpfsGetEntry
  rw [if_neg (Nat.not_le.mpr hk), if_neg (by simp [hu])]

/-- A write never shortens, and the bytes that it reports are within the file. -/
theorem tmpfsWrite_extends (fs : Tmpfs) (k offset : Nat) (src : List UInt8)
    (alloc : HeapBlockBytes) :
    Extends fs (fs.tmpfsWrite k offset src alloc).1 ∧
      (offset ≤ tmpfsMaxSize → 0 < (fs.tmpfsWrite k offset src alloc).2 →
        offset + (fs.tmpfsWrite k offset src alloc).2.toNat ≤
          ((fs.tmpfsWrite k offset src alloc).1 k).size) := by
  have hneg : ∀ {P : Prop}, (0 : Int) < -1 → P := fun h => absurd h (by decide)
  rcases tmpfsWrite_cases fs k offset src alloc with
    ⟨_, heq⟩ | ⟨_, hu, ⟨_, heq⟩ | ⟨h0, ⟨_, heq⟩ | ⟨g, hg, heq⟩⟩⟩
  · rw [heq]
    exact ⟨.refl fs, fun _ => hneg⟩
  · rw [heq]
    exact ⟨.refl fs, fun _ h => absurd h (Int.lt_irrefl 0)⟩
  · rw [heq]
    exact ⟨.refl fs, fun _ => hneg⟩
  · rw [heq]
    obtain ⟨h1, h2⟩ := grow_same hg
    obtain ⟨hend, hmax⟩ := writeEnd_eq h0
    unfold stored
    refine ⟨.update fun hu => ⟨h1.trans hu, ?_⟩, fun ho hpos => ?_⟩
    · dsimp only
      split <;> omega
    · -- what is reported is the count modulo `2³²`
      dsimp only at hpos ⊢
      rw [Function.update_self]
      dsimp only
      have hle : offset + (toInt32 (writeCount offset src.length % 4294967296)).toNat ≤
          writeEnd offset src.length := by
        simp only [tmpfsMaxSize] at hmax ho
        unfold toInt32 at hpos ⊢
        split at hpos <;> omega
      split <;> omega

end Tmpfs

/-! ## Sizes that descriptors remember -/

/-- The size of the open file. -/
def VfsFd.fileSize (fs : Tmpfs) (f : VfsFd) : Nat :=
  match f.tmpfsIdx with
  | some k => (fs k).size
  | none => f.size

/-- The remembered size and the offset of an open file are within its size. -/
structure VfsFd.Within (fs : Tmpfs) (f : VfsFd) : Prop where
  size : f.type = .file → f.size ≤ f.fileSize fs
  offset : f.type = .file → f.offset ≤ f.fileSize fs
  fits : f.type = .file → f.size < 18446744073709551616

namespace VfsFd

variable {f : VfsFd}

theorem fileSize_some (h : f.tmpfsIdx = some k) : f.fileSize fs = (fs k).size := by
  unfold fileSize
  rw [h]

theorem fileSize_none (h : f.tmpfsIdx = none) : f.fileSize fs = f.size := by
  unfold fileSize
  rw [h]

theorem Within.of_closed (h : f.type ≠ .file) : f.Within fs :=
  ⟨fun ht => absurd ht h, fun ht => absurd ht h, fun ht => absurd ht h⟩

theorem Within.mono (h : f.Within fs) (hl : f.Live fs) (he : Tmpfs.Extends fs fs') :
    f.Within fs' := by
  have hle : f.type = .file → f.fileSize fs ≤ f.fileSize fs' := by
    intro ht
    cases hidx : f.tmpfsIdx with
    | none => exact Nat.le_of_eq ((fileSize_none hidx).trans (fileSize_none hidx).symm)
    | some k =>
      rw [fileSize_some hidx, fileSize_some hidx]
      exact (he k (hl k ht hidx).2).2
  exact ⟨fun ht => Nat.le_trans (h.size ht) (hle ht),
    fun ht => Nat.le_trans (h.offset ht) (hle ht), h.fits⟩

/-- A descriptor of a file at its start. -/
theorem Within.start (hs : f.size ≤ f.fileSize fs) (ho : f.offset = 0)
    (hf : f.size < 18446744073709551616) : f.Within fs :=
  ⟨fun _ => hs, fun _ => ho ▸ Nat.zero_le _, fun _ => hf⟩

theorem Within.setOffset (h : f.Within fs) {o : Nat} (ho : f.type = .file → o ≤ f.fileSize fs) :
    Within fs { f with offset := o } :=
  ⟨h.size, ho, h.fits⟩

end VfsFd

/-- What an archive passes as a size is a `size_t`. -/
def TarRead.Fits (tar : TarRead) : Prop :=
  ∀ name file, tar name = some file → file.size < 18446744073709551616

/-! ## The position -/

/-- The position that `vfs_seek` clamps to, from its base. -/
def seekPos (size : Nat) (base offset : Int) : Nat :=
  let newPos := (base + offset).bmod 18446744073709551616
  let newPos := if newPos < 0 then 0 else newPos
  let newPos := if toInt64 size < newPos then toInt64 size else newPos
  (newPos % 18446744073709551616).toNat

/-- `(int64_t)f->offset` or `(int64_t)f->size`, or 0. -/
def VfsFd.seekBase (f : VfsFd) (whence : Int) : Int :=
  if whence = 0 then 0 else if whence = 1 then toInt64 f.offset else toInt64 f.size

/-- It fits an `int64_t`. -/
def InInt64 (x : Int) : Prop := -9223372036854775808 ≤ x ∧ x < 9223372036854775808

instance (x : Int) : Decidable (InInt64 x) := inferInstanceAs (Decidable (_ ∧ _))

theorem bmod_of_inInt64 {x : Int} (h : InInt64 x) : x.bmod 18446744073709551616 = x := by
  obtain ⟨h1, h2⟩ := h
  rw [Int.bmod_def]
  split <;> omega

theorem seekPos_le {size : Nat} (hs : size < 18446744073709551616) (base offset : Int) :
    seekPos size base offset ≤ size := by
  unfold seekPos
  dsimp only
  generalize (base + offset).bmod 18446744073709551616 = x
  unfold toInt64
  split <;> split <;> split <;> omega

/-- With the sum in range the position is that of a clamp to the size as an `int64_t`. -/
theorem seekPos_eq {size : Nat} {base offset : Int} (hs : size < 9223372036854775808)
    (h : InInt64 (base + offset)) :
    (seekPos size base offset : Int) = max 0 (min (base + offset) size) := by
  unfold seekPos
  dsimp only
  rw [bmod_of_inInt64 h]
  obtain ⟨h1, h2⟩ := h
  unfold toInt64
  rw [if_pos hs]
  split <;> split <;> omega

/-- A size with the top bit set is where every seek ends. -/
theorem seekPos_of_large {size : Nat} (hs : 9223372036854775808 ≤ size)
    (hlt : size < 18446744073709551616) (base offset : Int) : seekPos size base offset = size := by
  unfold seekPos
  dsimp only
  generalize (base + offset).bmod 18446744073709551616 = x
  unfold toInt64
  rw [if_neg (Nat.not_lt.mpr hs)]
  split <;> split <;> omega

namespace Vfs

/-- What the descriptors of all tasks keep. -/
def Sized (s : Vfs) : Prop := ∀ p i, (s.fds p i).Within s.files

theorem Sized.files (h : Sized s) (ha : Attached s) (he : Tmpfs.Extends s.files fs) :
    Sized { s with files := fs } :=
  fun p i => (h p i).mono (ha.live p i) he

theorem Sized.setFd {f : VfsFd} (h : Sized s) (hf : f.Within s.files) : Sized (s.setFd p i f) :=
  forall_setFd h hf p i

theorem Sized.install {f : VfsFd} (h : Sized s) (hf : f.Within s.files) :
    Sized (s.install p f).1 := by
  unfold Vfs.install
  split
  · exact h.setFd hf
  · exact h

theorem Sized.vfsOpen (h : Sized s) (ha : Attached s) (htar : tar.Fits) (p : Nat)
    (filename : List UInt8) (flags : BitVec 32) (alloc : HeapBlockBytes) :
    Sized (s.vfsOpen tar p filename flags alloc).1 := by
  unfold Vfs.vfsOpen
  split
  · exact h.install (.of_closed nofun)
  · split
    · next tidx ht =>
      obtain ⟨h1, h2, _⟩ := Tmpfs.tmpfsOpen_some ht
      rw [Tmpfs.tmpfsGetEntry_of_inUse h1 h2]
      exact h.install (.start (Nat.le_refl _) rfl (Nat.lt_of_le_of_lt (ha.small tidx) (by decide)))
    · split
      · split
        · have he := Tmpfs.tmpfsCreate_extends s.files filename alloc
          split
          · exact h
          · next files tidx heq =>
            rw [heq] at he
            exact (h.files ha he).install (.start (Nat.zero_le _) rfl (Nat.zero_lt_succ _))
        · exact h
      · next file hfile => exact h.install (.start (Nat.le_refl _) rfl (htar filename file hfile))

theorem Sized.vfsRead (h : Sized s) (p : Nat) (fd : Int) (count : Nat) :
    Sized (s.vfsRead p fd count).1 := by
  unfold Vfs.vfsRead
  have hfd := h p fd.toNat
  generalize s.fds p fd.toNat = f at hfd ⊢
  split
  · exact h
  obtain ⟨type, name, data, size, offset, writable, tmpfsIdx⟩ := f
  dsimp only
  split
  · exact h
  split
  · exact h
  cases tmpfsIdx with
  | some idx =>
    dsimp only
    split
    · refine h.setFd (hfd.setOffset fun ht => ?_)
      have ho : offset ≤ (s.files idx).size := hfd.offset ht
      have hle := Tmpfs.tmpfsRead_le s.files idx offset count
      exact Nat.le_trans (Nat.mod_le _ _) (by show _ ≤ (s.files idx).size; omega)
    · exact h
  | none =>
    cases data with
    | none => exact h
    | some src =>
      have hcache : ∀ c, Sized { s with cache := c } := fun _ => h
      dsimp only
      split
      · refine (hcache _).setFd (hfd.setOffset fun ht => ?_)
        have ho : offset ≤ size := hfd.offset ht
        have hle := s.cache.cacheRead_le ⟨name, src, size⟩ offset count
        exact Nat.le_trans (Nat.mod_le _ _) (by show _ ≤ size; dsimp only at hle; omega)
      · exact hcache _

theorem Sized.vfsWrite (h : Sized s) (ha : Attached s) (p : Nat) (fd : Int) (src : List UInt8)
    (alloc : HeapBlockBytes) : Sized (s.vfsWrite p fd src alloc).1 := by
  unfold Vfs.vfsWrite
  have hfd := h p fd.toNat
  have hlive := ha.live p fd.toNat
  generalize s.fds p fd.toNat = f at hfd hlive ⊢
  split
  · exact h
  obtain ⟨type, name, data, size, offset, writable, tmpfsIdx⟩ := f
  dsimp only
  split
  · exact h
  next htype =>
  split
  · exact h
  cases tmpfsIdx with
  | none => exact h
  | some idx =>
    have ht : type = .file := by simpa using htype
    obtain ⟨hlt, hu⟩ := hlive idx ht rfl
    have ho : offset ≤ (s.files idx).size := hfd.offset ht
    obtain ⟨hext, hres⟩ := Tmpfs.tmpfsWrite_extends s.files idx offset src alloc
    have hsmall := (Tmpfs.tmpfsWrite_kept s.files idx offset src alloc).small ha.small idx
    dsimp only
    split
    · next hpos =>
      rw [Tmpfs.tmpfsGetEntry_of_inUse hlt (hext idx hu).1]
      refine (h.files ha hext).setFd ⟨fun _ => Nat.le_refl _, fun _ => ?_, fun _ => ?_⟩
      · exact Nat.le_trans (Nat.mod_le _ _) (hres (Nat.le_trans ho (ha.small idx)) hpos)
      · exact Nat.lt_of_le_of_lt hsmall (by decide)
    · exact h.files ha hext

theorem vfsSeek_invalid {fd offset whence : Int}
    (h : fd < 0 ∨ (vfsMaxFds : Int) ≤ fd ∨ (s.fds p fd.toNat).type ≠ .file ∨
      whence ≠ 0 ∧ whence ≠ 1 ∧ whence ≠ 2) : (s.vfsSeek p fd offset whence).1 = s := by
  unfold Vfs.vfsSeek
  by_cases h1 : fd < 0 ∨ (vfsMaxFds : Int) ≤ fd
  · rw [if_pos h1]
  rw [if_neg h1]
  dsimp only
  by_cases h2 : (s.fds p fd.toNat).type ≠ .file
  · rw [if_pos h2]
  obtain ⟨h3, h4, h5⟩ : whence ≠ 0 ∧ whence ≠ 1 ∧ whence ≠ 2 := by
    rcases h with h | h | h | h
    · exact absurd (.inl h) h1
    · exact absurd (.inr h) h1
    · exact absurd h h2
    · exact h
  rw [if_neg h2, if_neg h3, if_neg h4, if_neg h5]

theorem vfsSeek_eq {fd whence : Int} (h0 : 0 ≤ fd) (h1 : fd < vfsMaxFds)
    (ht : (s.fds p fd.toNat).type = .file) (hw : whence = 0 ∨ whence = 1 ∨ whence = 2)
    (offset : Int) :
    (s.vfsSeek p fd offset whence).1 = s.setFd p fd.toNat
      { s.fds p fd.toNat with
        offset :=
          seekPos (s.fds p fd.toNat).size ((s.fds p fd.toNat).seekBase whence) offset } := by
  unfold Vfs.vfsSeek
  rw [if_neg (by omega)]
  dsimp only
  rw [if_neg (by simp [ht])]
  rcases hw with rfl | rfl | rfl <;> rfl

theorem Sized.vfsSeek (h : Sized s) (p : Nat) (fd offset whence : Int) :
    Sized (s.vfsSeek p fd offset whence).1 := by
  by_cases hv : fd < 0 ∨ (vfsMaxFds : Int) ≤ fd ∨ (s.fds p fd.toNat).type ≠ .file ∨
      whence ≠ 0 ∧ whence ≠ 1 ∧ whence ≠ 2
  · rw [vfsSeek_invalid hv]
    exact h
  · obtain ⟨h0, h1, ht, hw⟩ := by simpa only [not_or] using hv
    have hfd := h p fd.toNat
    have ht := Decidable.not_not.mp ht
    rw [vfsSeek_eq (Int.not_lt.mp h0) (Int.not_le.mp h1) ht (by omega)]
    exact h.setFd (hfd.setOffset fun _ =>
      Nat.le_trans (seekPos_le (hfd.fits ht) _ _) (hfd.size ht))

theorem Sized.vfsClose (h : Sized s) (p : Nat) (fd : Int) : Sized (s.vfsClose p fd).1 := by
  unfold Vfs.vfsClose
  split
  · exact h
  · split
    · exact h
    · exact h.setFd (.of_closed nofun)

/-- One operation. -/
theorem Sized.exec (h : Sized s) (ha : Attached s) (htar : tar.Fits) {op : VfsOp}
    (hop : op.Keeps) : Sized (s.exec tar op) := by
  cases op with
  | «open» p filename flags alloc => exact h.vfsOpen ha htar p filename flags alloc
  | read p fd count => exact h.vfsRead p fd count
  | write p fd src alloc => exact h.vfsWrite ha p fd src alloc
  | seek p fd offset whence => exact h.vfsSeek p fd offset whence
  | close p fd => exact h.vfsClose p fd
  | create filename alloc => exact h.files ha (Tmpfs.tmpfsCreate_extends s.files filename alloc)
  | unlink filename => exact absurd rfl (hop filename)
  | newTask p => exact forall_newFds h (.of_closed nofun) p
  | copyTask parent child => exact forall_copyFds h parent child

theorem sized_after (htar : tar.Fits) (ops : List VfsOp) (hops : ∀ op ∈ ops, op.Keeps) :
    Sized (after tar ops) := by
  induction ops using List.reverseRecOn with
  | nil => exact fun _ _ => .of_closed nofun
  | append_singleton ops op ih =>
    have hinit : ∀ o ∈ ops, o.Keeps := fun o ho => hops o (List.mem_append_left _ ho)
    have h := ih hinit
    have ha := attached_after tar ops hinit
    unfold after
    rw [List.foldl_append]
    exact h.exec ha htar (hops op (by simp))

/-! ## Exact seeks -/

/-- The position that a seek asks for. -/
def seekTarget (s : Vfs) (f : VfsFd) (offset whence : Int) : Int :=
  (if whence = 0 then 0 else if whence = 1 then (f.offset : Int) else f.fileSize s.files) + offset

/-- The sum does not overflow, and the offset becomes the target clamped to the file. -/
structure SeekExact (s : Vfs) (p : Nat) (fd offset whence : Int) : Prop where
  sum : InInt64 ((s.fds p fd.toNat).seekBase whence + offset)
  offset : (((s.vfsSeek p fd offset whence).1.fds p fd.toNat).offset : Int) =
    max 0 (min (s.seekTarget (s.fds p fd.toNat) offset whence)
      ((s.fds p fd.toNat).fileSize s.files))

/-- The target is below `2⁶³`, and the descriptor remembers the size of the file or a size that the
target is within. A size of the archive with the top bit set is read as a negative one. -/
def SeekFits (s : Vfs) (f : VfsFd) (offset whence : Int) : Prop :=
  if f.fileSize s.files < 9223372036854775808 then
    f.size = f.fileSize s.files ∧ s.seekTarget f offset whence < 9223372036854775808 ∨
      s.seekTarget f offset whence ≤ if whence = 2 then 0 else (f.size : Int)
  else
    (f.fileSize s.files : Int) ≤ s.seekTarget f offset whence ∧
      9223372036854775808 ≤ s.seekTarget f offset whence - offset

/-- A file with a size beyond `int64_t` is one of the archive. -/
theorem Attached.size_eq (ha : Attached s) (i : Nat)
    (hs : 9223372036854775808 ≤ (s.fds p i).fileSize s.files) :
    (s.fds p i).size = (s.fds p i).fileSize s.files := by
  cases hidx : (s.fds p i).tmpfsIdx with
  | none => exact (VfsFd.fileSize_none hidx).symm
  | some k =>
    rw [VfsFd.fileSize_some hidx] at hs
    have hsmall := ha.small k
    simp only [tmpfsMaxSize] at hsmall
    omega

theorem toInt64_of_lt {n : Nat} (h : n < 9223372036854775808) : toInt64 n = n := if_pos h

theorem Sized.seek_exact_iff (h : Sized s) (ha : Attached s) {fd offset whence : Int} (h0 : 0 ≤ fd)
    (h1 : fd < vfsMaxFds) (ht : (s.fds p fd.toNat).type = .file)
    (hw : whence = 0 ∨ whence = 1 ∨ whence = 2) (hd : InInt64 offset) :
    SeekExact s p fd offset whence ↔ SeekFits s (s.fds p fd.toNat) offset whence := by
  have heq : ((s.vfsSeek p fd offset whence).1.fds p fd.toNat).offset =
      seekPos (s.fds p fd.toNat).size ((s.fds p fd.toNat).seekBase whence) offset := by
    rw [vfsSeek_eq h0 h1 ht hw]
    show (Function.update s.fds p (Function.update (s.fds p) fd.toNat _) p fd.toNat).offset = _
    rw [Function.update_self, Function.update_self]
  have hiff : SeekExact s p fd offset whence ↔
      InInt64 ((s.fds p fd.toNat).seekBase whence + offset) ∧
        (seekPos (s.fds p fd.toNat).size ((s.fds p fd.toNat).seekBase whence) offset : Int) =
          max 0 (min (s.seekTarget (s.fds p fd.toNat) offset whence)
            ((s.fds p fd.toNat).fileSize s.files)) := by
    rw [← heq]
    exact ⟨fun h => ⟨h.sum, h.offset⟩, fun h => ⟨h.1, h.2⟩⟩
  have hfd := h p fd.toNat
  have hlarge := ha.size_eq (p := p) fd.toNat
  have hsize := hfd.size ht
  have hoff := hfd.offset ht
  have hlt := hfd.fits ht
  rw [hiff]
  unfold SeekFits seekTarget VfsFd.seekBase
  generalize (s.fds p fd.toNat).fileSize s.files = S at *
  generalize (s.fds p fd.toNat).size = size at *
  generalize (s.fds p fd.toNat).offset = o at *
  by_cases hS : S < 9223372036854775808
  · rw [if_pos hS, toInt64_of_lt (Nat.lt_of_le_of_lt hoff hS),
      toInt64_of_lt (Nat.lt_of_le_of_lt hsize hS)]
    by_cases hin :
      InInt64 ((if whence = 0 then 0 else if whence = 1 then (o : Int) else size) + offset)
    · rw [seekPos_eq (Nat.lt_of_le_of_lt hsize hS) hin]
      obtain ⟨hin1, hin2⟩ := hin
      rcases hw with rfl | rfl | rfl <;>
        simp [InInt64] at hin1 hin2 ⊢ <;> omega
    · -- the base of the code is not negative: the sum is too large, and so is the target
      refine ⟨fun h => absurd h.1 hin, fun h => absurd ?_ hin⟩
      obtain ⟨hd1, hd2⟩ := hd
      unfold InInt64
      rcases hw with rfl | rfl | rfl <;> simp at h ⊢ <;> omega
  · obtain rfl : size = S := hlarge (Nat.not_lt.mp hS)
    rw [if_neg hS, seekPos_of_large (Nat.not_lt.mp hS) hlt]
    obtain ⟨hd1, hd2⟩ := hd
    unfold InInt64 toInt64
    rcases hw with rfl | rfl | rfl <;> simp [hS] <;> omega

/-- A seek by 0 from the offset is exact exactly when it does not move it. -/
theorem Sized.seek_cur (h : Sized s) (ha : Attached s) {fd : Int}
    (ht : (s.fds p fd.toNat).type = .file) :
    SeekExact s p fd 0 1 ↔
      ((s.vfsSeek p fd 0 1).1.fds p fd.toNat).offset = (s.fds p fd.toNat).offset := by
  have ho := (h p fd.toNat).offset ht
  have htarget : s.seekTarget (s.fds p fd.toNat) 0 1 = (s.fds p fd.toNat).offset := by
    rw [seekTarget, if_neg (by decide), if_pos rfl, Int.add_zero]
  refine ⟨fun he => ?_, fun hstays => ⟨?_, ?_⟩⟩
  · have hpos := he.offset
    rw [htarget] at hpos
    omega
  · rw [VfsFd.seekBase, if_neg (by decide), if_pos rfl, Int.add_zero]
    have hlt := (h p fd.toNat).fits ht
    have hlarge := ha.size_eq (p := p) fd.toNat
    unfold InInt64 toInt64
    split <;> omega
  · rw [htarget, hstays]
    omega

/-- After any operations but unlinks, a seek of an open file is exact exactly when it fits, and one
by 0 from the offset leaves it exactly when that one fits. -/
theorem vfs_seek_exact (tar : TarRead) (htar : tar.Fits) (ops : List VfsOp)
    (hops : ∀ op ∈ ops, op.Keeps) (p : Nat) (fd offset whence : Int) (h0 : 0 ≤ fd)
    (h1 : fd < vfsMaxFds) (ht : ((after tar ops).fds p fd.toNat).type = .file)
    (hw : whence = 0 ∨ whence = 1 ∨ whence = 2) (hd : InInt64 offset) :
    (SeekExact (after tar ops) p fd offset whence ↔
      SeekFits (after tar ops) ((after tar ops).fds p fd.toNat) offset whence) ∧
    ((((after tar ops).vfsSeek p fd 0 1).1.fds p fd.toNat).offset =
        ((after tar ops).fds p fd.toNat).offset ↔
      SeekFits (after tar ops) ((after tar ops).fds p fd.toNat) 0 1) := by
  have hs := sized_after htar ops hops
  have ha := attached_after tar ops hops
  exact ⟨hs.seek_exact_iff ha h0 h1 ht hw hd,
    (hs.seek_cur ha ht).symm.trans (hs.seek_exact_iff ha h0 h1 ht (by decide) (by decide))⟩

/-- Descriptor 1 of a file of one byte, that grows by another. -/
def growing : List VfsOp :=
  [.open 0 [97] oCreate (some fun _ => 0), .write 0 0 [7] none, .open 0 [97] 0 none,
    .write 0 0 [8] none, .read 0 1 2]

theorem vfs_seek_exact_back : SeekExact (after (fun _ => none) growing) 0 0 (-1) 1 :=
  (vfs_seek_exact (fun _ => none) nofun growing (by simp [growing, VfsOp.Keeps]) 0 0 (-1) 1
    (by decide) (by decide) rfl (by decide) (by decide)).1.mpr
    ((if_pos (by decide)).mpr (.inr (by decide)))

/-- A seek by 0 moves descriptor 1 back to the size that it remembers, and one by `2⁶³ - 1`
overflows. -/
theorem vfs_seek_inexact :
    ((after (fun _ => none) growing).fds 0 1).offset = 2 ∧
      (((after (fun _ => none) growing).vfsSeek 0 1 0 1).1.fds 0 1).offset = 1 ∧
      ¬ SeekExact (after (fun _ => none) growing) 0 1 0 1 ∧
      ¬ SeekExact (after (fun _ => none) growing) 0 0 9223372036854775807 1 := by
  refine ⟨rfl, rfl, fun h => ?_, fun h => ?_⟩
  · exact absurd h.offset (by decide)
  · exact absurd h.sum.2 (by decide)

end Vfs

end GenOS
