import GenOS.Fs.VfsSplit

/-!
# What every call keeps

Every call of the file system keeps `Ready`: the buffers their bounds and the zeros behind the end
of the file, the offsets their range, the cache its lists and names.
-/

namespace GenOS

variable {s : Vfs} {f : VfsFd} {fs : Tmpfs} {k : Nat} {tar : TarRead}

namespace Tmpfs

variable {g : TmpfsFile} {name : List UInt8}

theorem Clean.update (h : fs.Clean) (hb : g.Bounded) (hz : g.Zeroed)
    (he : g.inUse = false → g.size = 0) : Clean (Function.update fs k g) := by
  refine ⟨h.bounded.update hb, fun j => ?_, fun j => ?_⟩
  · by_cases hj : j = k
    · rw [hj, Function.update_self]
      exact hz
    · rw [Function.update_of_ne hj]
      exact h.zeroed j
  · by_cases hj : j = k
    · rw [hj, Function.update_self]
      exact he
    · rw [Function.update_of_ne hj]
      exact h.empty j

theorem Clean.create (h : fs.Clean) (name : List UInt8) (alloc : HeapBlockBytes) :
    Clean (fs.tmpfsCreate name alloc).1 := by
  rcases tmpfsCreate_cases fs name alloc with
    ⟨_, _, heq⟩ | ⟨_, ⟨_, heq⟩ | ⟨i, block, _, _, _, heq⟩⟩
  · rwa [heq]
  · rwa [heq]
  · rw [heq]
    exact h.update (created_bounded name block) (fun b _ hb => if_pos hb) nofun

theorem Clean.unlink (h : fs.Clean) (name : List UInt8) : Clean (fs.tmpfsUnlink name).1 := by
  unfold tmpfsUnlink
  split
  · exact h.update ⟨Nat.le_refl _, Nat.zero_le _, nofun⟩ (fun _ _ _ => rfl) fun _ => rfl
  · exact h

theorem Clean.write (h : fs.Clean) (k : Nat) {offset : Nat} {src : List UInt8}
    (hw : offset + src.length < 18446744073709551616) (alloc : HeapBlockBytes) :
    Clean (fs.tmpfsWrite k offset src alloc).1 := by
  rcases tmpfsWrite_cases fs k offset src alloc with
    ⟨_, heq⟩ | ⟨_, hu, ⟨_, heq⟩ | ⟨h0, ⟨_, heq⟩ | ⟨g, hg, heq⟩⟩⟩
  · rwa [heq]
  · rwa [heq]
  · rwa [heq]
  · rw [heq]
    rcases TmpfsFile.grow_cases (h.bounded k) hu (writeEnd_eq h0).2 alloc with
      ⟨_, _, hnone⟩ | ⟨_, g', hg', hgrown⟩
    · rw [hg] at hnone
      cases hnone
    · obtain rfl := Option.some.inj (hg.symm.trans hg')
      rw [stored_eq fs g hw h0]
      have hlen : (src.take (fitting offset src.length)).length = fitting offset src.length := by
        rw [List.length_take, fitting]
        omega
      have hgrown' : TmpfsFile.Grown (fs k) g
          (offset + (src.take (fitting offset src.length)).length) := by
        rw [hlen, fitting, ← writeCount_of_lt hw, ← writeEnd_of_lt hw h0]
        exact hgrown
      refine h.update (TmpfsFile.written_bounded hgrown' (h.bounded k))
        (TmpfsFile.written_zeroed hgrown' (h.zeroed k)) fun hn => ?_
      have hg : g.inUse = false := hn
      rw [hgrown.inUse, hu] at hg
      cases hg

end Tmpfs

namespace VfsFd

theorem InRange.of_closed (h : f.type ≠ .file) : f.InRange :=
  ⟨fun _ ht => absurd ht h, fun ht => absurd ht h, fun _ ht => absurd ht h⟩

theorem InRange.setOffset (h : f.InRange) {o : Nat}
    (h1 : ∀ k, f.type = .file → f.tmpfsIdx = some k → o ≤ tmpfsMaxSize)
    (h2 : f.type = .file → f.tmpfsIdx = none → o ≤ f.size) : InRange { f with offset := o } :=
  ⟨fun k ht hi => ⟨h1 k ht hi, (h.tmpfs k ht hi).2⟩, fun ht hi => ⟨h2 ht hi, (h.archive ht hi).2⟩,
    h.slot⟩

end VfsFd

/-- What is written is no larger than an object can be. -/
def VfsOp.Fits : VfsOp → Prop
  | .write _ _ src _ => src.length < 9223372036854775808
  | _ => True

namespace Vfs

theorem Ready.setFd (h : s.Ready) (hf : f.InRange) (p i : Nat) : Ready (s.setFd p i f) :=
  ⟨h.clean, forall_setFd h.inRange hf p i, h.tagged⟩

theorem Ready.install (h : s.Ready) (hf : f.InRange) (p : Nat) : Ready (s.install p f).1 := by
  unfold Vfs.install
  split
  · exact h.setFd hf p _
  · exact h

theorem Ready.files (h : s.Ready) (hf : fs.Clean) : Ready { s with files := fs } :=
  ⟨hf, h.inRange, h.tagged⟩

theorem Ready.vfsOpen (h : s.Ready) (htar : tar.Fits) (p : Nat) (filename : List UInt8)
    (flags : BitVec 32) (alloc : HeapBlockBytes) :
    Ready (s.vfsOpen tar p filename flags alloc).1 := by
  unfold Vfs.vfsOpen
  split
  · exact h.install (.of_closed (by nofun)) p
  · split
    · next tidx ht =>
      obtain ⟨h1, h2, _⟩ := Tmpfs.tmpfsOpen_some ht
      rw [Tmpfs.tmpfsGetEntry_of_inUse h1 h2]
      refine h.install ⟨fun _ _ _ => ⟨Nat.zero_le _, h.clean.small tidx⟩, fun _ => by nofun,
        fun k _ hk => ?_⟩ p
      obtain rfl := Option.some.inj hk
      exact h1
    · split
      · split
        · have hc := h.clean.create filename alloc
          have hidx := (Tmpfs.tmpfsCreate_kept s.files filename alloc).2
          split
          · exact h
          · next files tidx heq =>
            rw [heq] at hc hidx
            refine (h.files hc).install ⟨fun _ _ _ => ⟨Nat.zero_le _, Nat.zero_le _⟩,
              fun _ => by nofun, fun k _ hk => ?_⟩ p
            exact (hidx k hk).1
        · exact h
      · next file hfile =>
        exact h.install ⟨fun _ _ => by nofun, fun _ _ => ⟨Nat.zero_le _, htar filename file hfile⟩,
          fun _ _ => by nofun⟩ p

theorem Ready.vfsRead (h : s.Ready) (p : Nat) (fd : Int) (count : Nat) :
    Ready (s.vfsRead p fd count).1 := by
  by_cases ho : s.Opened p fd
  · rw [vfsRead_eq ho]
    split
    · exact h
    · dsimp only
      have hr := h.inRange p fd.toNat
      have hcache : ∀ c : Cache, c.Tagged → Ready { s with cache := c } := fun c hc =>
        ⟨h.clean, h.inRange, hc⟩
      rcases (s.fds p fd.toNat).fetch_cases s.files with ⟨k, hi, hk, hu⟩ | ⟨src, hi, -, heq⟩ | heq
      · rw [VfsFd.fetch_tmpfs h.clean hi hk hu]
        dsimp only
        split
        · next hpos =>
          have hs := h.clean.small k
          rw [List.length_take, List.length_drop, TmpfsFile.length_content] at hpos
          refine (hcache _ h.tagged).setFd (hr.setOffset (fun _ _ _ => ?_) fun _ hn => ?_) p _
          · refine Nat.le_trans (Nat.mod_le _ _) ?_
            rw [Int.toNat_natCast, List.length_take, List.length_drop, TmpfsFile.length_content]
            omega
          · exact absurd (hi.symm.trans hn) nofun
        · exact hcache _ h.tagged
      · have hle := s.cache.cacheRead_le ⟨(s.fds p fd.toNat).name, src, (s.fds p fd.toNat).size⟩
          (s.fds p fd.toNat).offset count
        have ht := h.tagged.read ⟨(s.fds p fd.toNat).name, src, (s.fds p fd.toNat).size⟩
          (s.fds p fd.toNat).offset count
        rw [heq]
        split
        · refine (hcache _ ht).setFd (hr.setOffset (fun _ _ hn => ?_) fun hf _ => ?_) p _
          · exact absurd (hi.symm.trans hn) nofun
          · have ho := (hr.archive hf hi).1
            exact Nat.le_trans (Nat.mod_le _ _) (by dsimp only at hle ⊢; omega)
        · exact hcache _ ht
      · rw [heq]
        exact hcache _ h.tagged
  · rw [vfsRead_closed ho]
    exact h

theorem Ready.vfsWrite (h : s.Ready) (p : Nat) (fd : Int) {src : List UInt8}
    (hlen : src.length < 9223372036854775808) (alloc : HeapBlockBytes) :
    Ready (s.vfsWrite p fd src alloc).1 := by
  by_cases hw : ∃ k, s.WritableAt p fd k
  · obtain ⟨k, hw⟩ := hw
    have hr := (h.inRange p fd.toNat).tmpfs k hw.file hw.index
    have hc :=
      h.clean.write k (show (s.fds p fd.toNat).offset + src.length < 18446744073709551616 by
      have ho := hr.1
      simp only [tmpfsMaxSize] at ho
      omega) alloc
    rcases vfsWrite_spec h hw hlen alloc with ⟨t, heq, hfiles, ht⟩ | ⟨_, _, _, heq⟩
    · rw [heq]
      rw [← hfiles] at hc
      refine ⟨hc, ?_, ht.cache ▸ h.tagged⟩
      rw [ht.fds]
      refine forall_setFd h.inRange ?_ p fd.toNat
      unfold wroteFd
      split
      · exact h.inRange p fd.toNat
      · refine ⟨fun _ _ _ => ⟨?_, hc.small k⟩, fun _ hn => absurd (hw.index.symm.trans hn) nofun,
          (h.inRange p fd.toNat).slot⟩
        rw [List.length_take, fitting]
        have ho := hr.1
        dsimp only
        omega
    · rw [heq]
      exact h
  · rw [vfsWrite_closed (not_exists.mp hw)]
    exact h

theorem Ready.vfsSeek (h : s.Ready) (p : Nat) (fd offset whence : Int) :
    Ready (s.vfsSeek p fd offset whence).1 := by
  by_cases hv : fd < 0 ∨ (vfsMaxFds : Int) ≤ fd ∨ (s.fds p fd.toNat).type ≠ .file ∨
      whence ≠ 0 ∧ whence ≠ 1 ∧ whence ≠ 2
  · rw [vfsSeek_invalid hv]
    exact h
  · obtain ⟨h0, h1, ht, hw⟩ := by simpa only [not_or] using hv
    have hr := h.inRange p fd.toNat
    have ht := Decidable.not_not.mp ht
    have hs : (s.fds p fd.toNat).size < 18446744073709551616 := by
      cases hi : (s.fds p fd.toNat).tmpfsIdx with
      | some k => exact Nat.lt_of_le_of_lt (hr.tmpfs k ht hi).2 (by decide)
      | none => exact (hr.archive ht hi).2
    rw [vfsSeek_eq (Int.not_lt.mp h0) (Int.not_le.mp h1) ht (by omega)]
    refine h.setFd (hr.setOffset (fun k ht hi => ?_) fun _ _ => seekPos_le hs _ _) p _
    exact Nat.le_trans (seekPos_le hs _ _) (hr.tmpfs k ht hi).2

theorem Ready.vfsClose (h : s.Ready) (p : Nat) (fd : Int) : Ready (s.vfsClose p fd).1 := by
  unfold Vfs.vfsClose
  split
  · exact h
  · split
    · exact h
    · exact h.setFd (.of_closed (by nofun)) p _

/-- One operation. -/
theorem Ready.exec (h : s.Ready) (htar : tar.Fits) {op : VfsOp} (hop : op.Fits) :
    Ready (s.exec tar op) := by
  cases op with
  | «open» p filename flags alloc => exact h.vfsOpen htar p filename flags alloc
  | read p fd count => exact h.vfsRead p fd count
  | write p fd src alloc => exact h.vfsWrite p fd hop alloc
  | seek p fd offset whence => exact h.vfsSeek p fd offset whence
  | close p fd => exact h.vfsClose p fd
  | create filename alloc => exact h.files (h.clean.create filename alloc)
  | unlink filename =>
    show Ready (s.vfsUnlink filename).1
    exact h.files (h.clean.unlink filename)
  | newTask p => exact ⟨h.clean, forall_newFds h.inRange (.of_closed (by nofun)) p, h.tagged⟩
  | copyTask parent child => exact ⟨h.clean, forall_copyFds h.inRange parent child, h.tagged⟩

theorem init_ready : Ready init :=
  ⟨⟨fun _ => ⟨Nat.le_refl _, Nat.zero_le _, nofun⟩, fun _ _ _ _ => rfl, fun _ _ => rfl⟩,
    fun _ _ => .of_closed (by nofun), Cache.cacheInit_tagged⟩

end Vfs

end GenOS
