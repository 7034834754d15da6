import Mathlib.Data.List.Induction
import GenOS.Fs.TmpfsFile
import GenOS.Fs.Vfs

/-!
# Reads through descriptors

While no file is unlinked, a descriptor of a `tmpfs` file stays one of that file. What `vfs_read`
returns through it is what the file holds now, unless the offset has reached the size that the
descriptor remembers: `vfs_write` updates that of the descriptor it writes through, and no other.
-/

namespace GenOS

variable {fs fs' : Tmpfs} {s : Vfs} {i k p : Nat} {name : List UInt8} {alloc : HeapBlockBytes}

/-! ## Files -/

namespace Tmpfs

/-- Files in use stay in use, and small ones small. -/
structure Kept (fs fs' : Tmpfs) : Prop where
  inUse : ∀ k, (fs k).inUse = true → (fs' k).inUse = true
  small : (∀ k, (fs k).size ≤ tmpfsMaxSize) → ∀ k, (fs' k).size ≤ tmpfsMaxSize

theorem Kept.refl (fs : Tmpfs) : Kept fs fs := ⟨fun _ => id, id⟩

/-- One file changed. -/
theorem Kept.update {f : TmpfsFile} (hu : f.inUse = true)
    (hs : (fs k).size ≤ tmpfsMaxSize → f.size ≤ tmpfsMaxSize) :
    Kept fs (Function.update fs k f) := by
  constructor
  · intro j hj
    by_cases hjk : j = k
    · rw [hjk, Function.update_self]
      exact hu
    · rwa [Function.update_of_ne hjk]
  · intro h j
    by_cases hjk : j = k
    · rw [hjk, Function.update_self]
      exact hs (h k)
    · rw [Function.update_of_ne hjk]
      exact h j

/-- `tmpfs_create` returns a file in use. -/
theorem tmpfsCreate_kept (fs : Tmpfs) (name : List UInt8) (alloc : HeapBlockBytes) :
    Kept fs (fs.tmpfsCreate name alloc).1 ∧ ∀ i, (fs.tmpfsCreate name alloc).2 = some i →
      i < tmpfsMaxFiles ∧ ((fs.tmpfsCreate name alloc).1 i).inUse = true := by
  rcases tmpfsCreate_cases fs name alloc with
    ⟨i, hopen, heq⟩ | ⟨_, ⟨_, heq⟩ | ⟨i, block, hlt, _, _, heq⟩⟩
  · rw [heq]
    refine ⟨.refl fs, fun j hj => ?_⟩
    obtain rfl := Option.some.inj hj
    exact ⟨(tmpfsOpen_some hopen).1, (tmpfsOpen_some hopen).2.1⟩
  · rw [heq]
    exact ⟨.refl fs, nofun⟩
  · rw [heq]
    refine ⟨.update rfl fun _ => Nat.zero_le _, fun j hj => ?_⟩
    obtain rfl := Option.some.inj hj
    refine ⟨hlt, ?_⟩
    dsimp only
    rw [Function.update_self]
    rfl

theorem grow_same {f g : TmpfsFile} {endPos : Nat} (h : f.grow endPos alloc = some g) :
    g.inUse = f.inUse ∧ g.size = f.size := by
  unfold TmpfsFile.grow at h
  split at h
  · cases alloc with
    | none => exact absurd h nofun
    | some block =>
      obtain rfl := Option.some.inj h
      exact ⟨rfl, rfl⟩
  · obtain rfl := Option.some.inj h
    exact ⟨rfl, rfl⟩

theorem tmpfsWrite_kept (fs : Tmpfs) (index offset : Nat) (src : List UInt8)
    (alloc : HeapBlockBytes) : Kept fs (fs.tmpfsWrite index offset src alloc).1 := by
  rcases tmpfsWrite_cases fs index offset src alloc with
    ⟨_, heq⟩ | ⟨_, hu, ⟨_, heq⟩ | ⟨h0, ⟨_, heq⟩ | ⟨g, hg, heq⟩⟩⟩
  · rw [heq]
    exact .refl fs
  · rw [heq]
    exact .refl fs
  · rw [heq]
    exact .refl fs
  · rw [heq]
    obtain ⟨h1, h2⟩ := grow_same hg
    refine .update (h1.trans hu) fun hsmall => ?_
    dsimp only
    split
    · exact (writeEnd_eq h0).2
    · rw [h2]
      exact hsmall

end Tmpfs

/-! ## Descriptors -/

/-- A descriptor of a `tmpfs` file has one in use. -/
def VfsFd.Live (fs : Tmpfs) (f : VfsFd) : Prop :=
  ∀ k, f.type = .file → f.tmpfsIdx = some k → k < tmpfsMaxFiles ∧ (fs k).inUse = true

theorem VfsFd.Live.mono {f : VfsFd} (h : f.Live fs) (hk : Tmpfs.Kept fs fs') : f.Live fs' :=
  fun k ht hi => ⟨(h k ht hi).1, hk.inUse k (h k ht hi).2⟩

/-- What the files and the descriptors of all tasks keep. -/
structure Vfs.Attached (s : Vfs) : Prop where
  live : ∀ p i, (s.fds p i).Live s.files
  small : ∀ k, (s.files k).size ≤ tmpfsMaxSize

/-- An operation other than `vfs_unlink`. -/
def VfsOp.Keeps (op : VfsOp) : Prop := ∀ name, op ≠ .unlink name

namespace Vfs

theorem Attached.files (h : Attached s) (hk : Tmpfs.Kept s.files fs) :
    Attached { s with files := fs } :=
  ⟨fun p i => (h.live p i).mono hk, hk.small h.small⟩

/-- What every descriptor has, and the stored one too. -/
theorem forall_setFd {P : VfsFd → Prop} {f : VfsFd} (h : ∀ p i, P (s.fds p i)) (hf : P f)
    (p i : Nat) : ∀ q j, P ((s.setFd p i f).fds q j) := by
  intro q j
  show P (Function.update s.fds p (Function.update (s.fds p) i f) q j)
  by_cases hq : q = p
  · rw [hq, Function.update_self]
    by_cases hj : j = i
    · rw [hj, Function.update_self]
      exact hf
    · rw [Function.update_of_ne hj]
      exact h p j
  · rw [Function.update_of_ne hq]
    exact h q j

theorem forall_newFds {P : VfsFd → Prop} (h : ∀ p i, P (s.fds p i)) (h0 : P {}) (p : Nat) :
    ∀ q j, P ((s.newFds p).fds q j) := by
  intro q j
  show P (Function.update s.fds p (fun _ => {}) q j)
  by_cases hq : q = p
  · rw [hq, Function.update_self]
    exact h0
  · rw [Function.update_of_ne hq]
    exact h q j

theorem forall_copyFds {P : VfsFd → Prop} (h : ∀ p i, P (s.fds p i)) (parent child : Nat) :
    ∀ q j, P ((s.copyFds parent child).fds q j) := by
  intro q j
  show P (Function.update s.fds child (s.fds parent) q j)
  by_cases hq : q = child
  · rw [hq, Function.update_self]
    exact h parent j
  · rw [Function.update_of_ne hq]
    exact h q j

theorem Attached.setFd (h : Attached s) {f : VfsFd} (hf : f.Live s.files) :
    Attached (s.setFd p i f) :=
  ⟨forall_setFd h.live hf p i, h.small⟩

theorem Attached.install (h : Attached s) {f : VfsFd} (hf : f.Live s.files) :
    Attached (s.install p f).1 := by
  unfold Vfs.install
  split
  · exact h.setFd hf
  · exact h

theorem Attached.vfsOpen (h : Attached s) (tar : TarRead) (p : Nat) (filename : List UInt8)
    (flags : BitVec 32) (alloc : HeapBlockBytes) :
    Attached (s.vfsOpen tar p filename flags alloc).1 := by
  unfold Vfs.vfsOpen
  split
  · exact h.install nofun
  · split
    · next tidx ht =>
      obtain ⟨h1, h2, _⟩ := Tmpfs.tmpfsOpen_some ht
      refine h.install fun k _ hk => ?_
      obtain rfl := Option.some.inj hk
      exact ⟨h1, h2⟩
    · split
      · split
        · obtain ⟨hkept, hidx⟩ := Tmpfs.tmpfsCreate_kept s.files filename alloc
          split
          · exact h
          · next files tidx heq =>
            rw [heq] at hkept hidx
            refine (h.files hkept).install fun k _ hk => ?_
            obtain rfl := Option.some.inj hk
            exact hidx _ rfl
        · exact h
      · exact h.install nofun

theorem Attached.vfsRead (h : Attached s) (p : Nat) (fd : Int) (count : Nat) :
    Attached (s.vfsRead p fd count).1 := by
  unfold Vfs.vfsRead
  have hcache : ∀ c, Attached { s with cache := c } := fun c => ⟨h.live, h.small⟩
  split
  · exact h
  · dsimp only
    split
    · exact h
    · split
      · exact h
      · have hlive := h.live p fd.toNat
        cases hidx : (s.fds p fd.toNat).tmpfsIdx with
        | some idx =>
          dsimp only
          split
          · exact h.setFd fun k ht hk => hlive k ht (hidx.trans hk)
          · exact h
        | none =>
          cases hdata : (s.fds p fd.toNat).data with
          | none => exact h
          | some src =>
            dsimp only
            split
            · exact (hcache _).setFd nofun
            · exact hcache _

theorem Attached.vfsWrite (h : Attached s) (p : Nat) (fd : Int) (src : List UInt8)
    (alloc : HeapBlockBytes) : Attached (s.vfsWrite p fd src alloc).1 := by
  unfold Vfs.vfsWrite
  split
  · exact h
  · dsimp only
    split
    · exact h
    · split
      · exact h
      · cases hidx : (s.fds p fd.toNat).tmpfsIdx with
        | none => exact h
        | some idx =>
          dsimp only
          have hk := Tmpfs.tmpfsWrite_kept s.files idx (s.fds p fd.toNat).offset src alloc
          split
          · exact (h.files hk).setFd fun k ht he =>
              (h.live p fd.toNat).mono hk k ht (hidx.trans he)
          · exact h.files hk

theorem Attached.vfsSeek (h : Attached s) (p : Nat) (fd offset whence : Int) :
    Attached (s.vfsSeek p fd offset whence).1 := by
  unfold Vfs.vfsSeek
  split
  · exact h
  · dsimp only
    split
    · exact h
    · split
      · exact h
      · exact h.setFd (h.live p fd.toNat)

theorem Attached.vfsClose (h : Attached s) (p : Nat) (fd : Int) :
    Attached (s.vfsClose p fd).1 := by
  unfold Vfs.vfsClose
  split
  · exact h
  · split
    · exact h
    · exact h.setFd nofun

/-- One operation. -/
theorem Attached.exec (h : Attached s) (tar : TarRead) {op : VfsOp} (hop : op.Keeps) :
    Attached (s.exec tar op) := by
  cases op with
  | «open» p filename flags alloc => exact h.vfsOpen tar p filename flags alloc
  | read p fd count => exact h.vfsRead p fd count
  | write p fd src alloc => exact h.vfsWrite p fd src alloc
  | seek p fd offset whence => exact h.vfsSeek p fd offset whence
  | close p fd => exact h.vfsClose p fd
  | create filename alloc => exact h.files (Tmpfs.tmpfsCreate_kept s.files filename alloc).1
  | unlink filename => exact absurd rfl (hop filename)
  | newTask p => exact ⟨forall_newFds h.live nofun p, h.small⟩
  | copyTask parent child => exact ⟨forall_copyFds h.live parent child, h.small⟩

theorem attached_after (tar : TarRead) (ops : List VfsOp) (hops : ∀ op ∈ ops, op.Keeps) :
    Attached (after tar ops) := by
  induction ops using List.reverseRecOn with
  | nil => exact ⟨fun _ _ => nofun, fun _ => Nat.zero_le _⟩
  | append_singleton ops op ih =>
    unfold after
    rw [List.foldl_append]
    have h := ih fun o ho => hops o (List.mem_append_left _ ho)
    exact h.exec tar (hops op (by simp))

/-! ## Coherence -/

/-- A read through the descriptor returns what the file `k` holds at the offset, and 0 only at its
end. -/
structure ReadsFile (s : Vfs) (p : Nat) (fd : Int) (count k : Nat) : Prop where
  bytes : (s.vfsRead p fd count).2.2 =
    ((s.files k).content.drop (s.fds p fd.toNat).offset).take count
  result : (s.vfsRead p fd count).2.1 = (s.vfsRead p fd count).2.2.length
  zero : (s.vfsRead p fd count).2.1 = 0 → (s.files k).size ≤ (s.fds p fd.toNat).offset

theorem Attached.vfsRead_eq (h : Attached s) {fd : Int} (h0 : 0 ≤ fd) (h1 : fd < vfsMaxFds)
    (ht : (s.fds p fd.toNat).type = .file) (hk : (s.fds p fd.toNat).tmpfsIdx = some k)
    (count : Nat) :
    (s.vfsRead p fd count).2 =
      if (s.fds p fd.toNat).size ≤ (s.fds p fd.toNat).offset then (0, [])
      else (((((s.files k).content.drop (s.fds p fd.toNat).offset).take count).length : Int),
        ((s.files k).content.drop (s.fds p fd.toNat).offset).take count) := by
  obtain ⟨hlt, hu⟩ := h.live p fd.toNat k ht hk
  unfold Vfs.vfsRead
  rw [if_neg (by omega)]
  dsimp only
  rw [if_neg (by simp [ht])]
  split
  · rfl
  · rw [hk]
    dsimp only
    rw [← Tmpfs.tmpfsRead_eq hlt hu (h.small k) (s.fds p fd.toNat).offset count]
    split <;> rfl

/-- After any operations but unlinks, a read of a `tmpfs` file through a descriptor returns the
bytes that the file holds exactly when the offset is below the size that the descriptor remembers,
or beyond the end of the file. -/
theorem vfs_read_coherent (tar : TarRead) (ops : List VfsOp) (hops : ∀ op ∈ ops, op.Keeps)
    (p : Nat) (fd : Int) (h0 : 0 ≤ fd) (h1 : fd < vfsMaxFds) (k count : Nat) (hc : count ≠ 0)
    (ht : ((after tar ops).fds p fd.toNat).type = .file)
    (hk : ((after tar ops).fds p fd.toNat).tmpfsIdx = some k) :
    ReadsFile (after tar ops) p fd count k ↔
      ((after tar ops).fds p fd.toNat).offset < ((after tar ops).fds p fd.toNat).size ∨
        ((after tar ops).files k).size ≤ ((after tar ops).fds p fd.toNat).offset := by
  have h := attached_after tar ops hops
  generalize after tar ops = s at h ht hk ⊢
  have heq := h.vfsRead_eq h0 h1 ht hk count
  have hlen : (((s.files k).content.drop (s.fds p fd.toNat).offset).take count).length =
      min count ((s.files k).size - (s.fds p fd.toNat).offset) := by
    simp [TmpfsFile.content]
  constructor
  · intro hr
    by_cases hle : (s.fds p fd.toNat).size ≤ (s.fds p fd.toNat).offset
    · rw [if_pos hle] at heq
      exact .inr (hr.zero (congrArg Prod.fst heq))
    · exact .inl (Nat.not_le.mp hle)
  · intro hor
    by_cases hle : (s.fds p fd.toNat).size ≤ (s.fds p fd.toNat).offset
    · -- at the end of the file
      have hend := hor.resolve_left (Nat.not_lt.mpr hle)
      rw [if_pos hle] at heq
      refine ⟨?_, ?_, fun _ => hend⟩
      · rw [heq]
        refine (List.eq_nil_of_length_eq_zero ?_).symm
        rw [hlen, Nat.sub_eq_zero_of_le hend, Nat.min_zero]
      · rw [heq]
        rfl
    · rw [if_neg hle] at heq
      refine ⟨by rw [heq], by rw [heq], fun hz => ?_⟩
      rw [heq] at hz
      have hz := Int.ofNat_eq_zero.mp hz
      omega

/-- Descriptors 0 and 1 of one file, and a byte written through the first. -/
def twoFds : List VfsOp :=
  [.open 0 [97] oCreate (some fun _ => 0), .open 0 [97] 0 none, .write 0 0 [7] none]

theorem vfs_read_coherent_first :
    ReadsFile (after (fun _ => none) (twoFds ++ [.seek 0 0 0 0])) 0 0 1 0 :=
  (vfs_read_coherent (fun _ => none) (twoFds ++ [.seek 0 0 0 0]) (by simp [twoFds, VfsOp.Keeps]) 0 0
    (by decide) (by decide) 0 1 (by decide) rfl rfl).mpr
    (.inl (by decide))

/-- The byte is not read through the second. -/
theorem vfs_read_stale : ¬ ReadsFile (after (fun _ => none) twoFds) 0 1 1 0 := fun h =>
  absurd (h.zero (by decide)) (by decide)

end Vfs

end GenOS
