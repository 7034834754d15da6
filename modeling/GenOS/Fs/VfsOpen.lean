import GenOS.Fs.TmpfsFile
import GenOS.Fs.Vfs

/-!
# Calls of `vfs_open` that fail

`vfs_open` looks for a free descriptor last. With `O_CREATE` the file exists by then, and a full
table leaves it behind.
-/

namespace GenOS

variable {fs : Tmpfs} {s : Vfs} {p : Nat} {f : VfsFd} {name filename : List UInt8}
  {flags : BitVec 32} {alloc : HeapBlockBytes} {tar : TarRead}

namespace Tmpfs

/-- The same files, with the same contents. -/
structure SameFiles (fs fs' : Tmpfs) : Prop where
  inUse : ∀ k, (fs' k).inUse = (fs k).inUse
  name : ∀ k, (fs k).inUse = true → (fs' k).name = (fs k).name
  content : ∀ k, (fs k).inUse = true → (fs' k).content = (fs k).content

theorem SameFiles.refl (fs : Tmpfs) : SameFiles fs fs :=
  ⟨fun _ => rfl, fun _ _ => rfl, fun _ _ => rfl⟩

end Tmpfs

namespace Vfs

/-- Neither the files nor the descriptors of the task have changed. -/
structure NoEffect (s s' : Vfs) (p : Nat) : Prop where
  files : Tmpfs.SameFiles s.files s'.files
  fds : s'.fds p = s.fds p

theorem NoEffect.refl (s : Vfs) (p : Nat) : NoEffect s s p := ⟨.refl s.files, rfl⟩

theorem freeFd_eq_none : s.freeFd p = none ↔ ∀ i < vfsMaxFds, (s.fds p i).type ≠ .none := by
  simp [freeFd]

theorem install_none (s : Vfs) (p : Nat) (f : VfsFd) :
    (s.install p f).2 = none ↔ s.freeFd p = none := by
  unfold install
  split
  · next i hi => simp [hi]
  · next hnone => simp [hnone]

theorem install_eq_self (h : (s.install p f).2 = none) : (s.install p f).1 = s := by
  rw [install_none] at h
  unfold install
  rw [h]

/-- The call makes a file. -/
structure OpenCreates (tar : TarRead) (s : Vfs) (filename : List UInt8) (flags : BitVec 32)
    (alloc : HeapBlockBytes) : Prop where
  root : filename ≠ [47]
  absent : s.files.tmpfsOpen filename = none
  archive : tar filename = none
  create : flags &&& oCreate ≠ 0
  slot : ∃ i < tmpfsMaxFiles, (s.files i).inUse = false
  room : alloc.isSome

/-- It makes one and no descriptor is free. -/
structure OpenStrays (tar : TarRead) (s : Vfs) (p : Nat) (filename : List UInt8)
    (flags : BitVec 32) (alloc : HeapBlockBytes) : Prop
    extends OpenCreates tar s filename flags alloc where
  full : ∀ i < vfsMaxFds, (s.fds p i).type ≠ .none

theorem vfsOpen_of_creates (h : OpenCreates tar s filename flags alloc) (p : Nat) :
    ∃ i files f, (s.files i).inUse = false ∧ (files i).inUse = true ∧
      s.vfsOpen tar p filename flags alloc = { s with files }.install p f := by
  unfold vfsOpen
  rw [if_neg h.root, h.absent]
  dsimp only
  rw [h.archive]
  dsimp only
  rw [if_pos h.create]
  rcases Tmpfs.tmpfsCreate_cases s.files filename alloc with
    ⟨_, hsome, _⟩ | ⟨_, ⟨hor, _⟩ | ⟨i, block, _, hfree, _, heq⟩⟩
  · exact absurd (h.absent.symm.trans hsome) nofun
  · -- there is a slot, and room for its buffer
    obtain ⟨i, hi, hfree⟩ := h.slot
    rcases hor with hall | hnone
    · exact absurd (hall i hi) (by simp [hfree])
    · exact absurd h.room (by simp [hnone])
  · rw [heq]
    refine ⟨i, _, _, hfree, ?_, rfl⟩
    rw [Function.update_self]
    rfl

/-- Otherwise nothing is stored before the descriptor is found. -/
theorem vfsOpen_of_not_creates (h : ¬ OpenCreates tar s filename flags alloc) (p : Nat) :
    s.vfsOpen tar p filename flags alloc = (s, none) ∨
      ∃ f, s.vfsOpen tar p filename flags alloc = s.install p f := by
  unfold vfsOpen
  split
  · exact .inr ⟨_, rfl⟩
  next hroot =>
  cases hopen : s.files.tmpfsOpen filename with
  | some tidx => exact .inr ⟨_, rfl⟩
  | none =>
    cases htar : tar filename with
    | some file => exact .inr ⟨_, rfl⟩
    | none =>
      dsimp only
      split
      · next hflag =>
        rcases Tmpfs.tmpfsCreate_cases s.files filename alloc with
          ⟨_, hsome, _⟩ | ⟨_, ⟨_, heq⟩ | ⟨i, block, hi, hfree, halloc, _⟩⟩
        · exact absurd (hopen.symm.trans hsome) nofun
        · rw [heq]
          exact .inl rfl
        · exact absurd ⟨hroot, hopen, htar, hflag, ⟨i, hi, hfree⟩, halloc ▸ rfl⟩ h
      · exact .inl rfl

/-- A call that returns `-1` has no effect unless it made a file that the full table of descriptors
has no place for. -/
theorem vfs_open_failure (tar : TarRead) (s : Vfs) (p : Nat) (filename : List UInt8)
    (flags : BitVec 32) (alloc : HeapBlockBytes) :
    ((s.vfsOpen tar p filename flags alloc).2 = none →
        NoEffect s (s.vfsOpen tar p filename flags alloc).1 p) ↔
      ¬ OpenStrays tar s p filename flags alloc := by
  constructor
  · intro h hs
    obtain ⟨i, files, f, hfree, huse, heq⟩ := vfsOpen_of_creates hs.toOpenCreates p
    rw [heq] at h
    have hnone := (install_none { s with files } p f).mpr (freeFd_eq_none.mpr hs.full)
    have hsame := (h hnone).files.inUse i
    rw [install_eq_self hnone, hfree] at hsame
    exact absurd hsame (by simp [huse])
  · intro hs hnone
    by_cases hc : OpenCreates tar s filename flags alloc
    · obtain ⟨i, files, f, _, _, heq⟩ := vfsOpen_of_creates hc p
      rw [heq, install_none] at hnone
      exact absurd ⟨hc, freeFd_eq_none.mp hnone⟩ hs
    · rcases vfsOpen_of_not_creates hc p with heq | ⟨f, heq⟩
      · rw [heq]
        exact .refl s p
      · rw [heq] at hnone ⊢
        rw [install_eq_self hnone]
        exact .refl s p

/-- The directory opened until the table of task 0 is full. -/
def fullTable : List VfsOp := List.replicate 16 (.open 0 [47] 0 none)

/-- `O_CREATE` of `x` fails then, and `x` exists. -/
theorem vfs_open_strays : ¬ ∀ (tar : TarRead) (ops : List VfsOp) (p : Nat)
    (filename : List UInt8) (flags : BitVec 32) (alloc : HeapBlockBytes),
    ((after tar ops).vfsOpen tar p filename flags alloc).2 = none →
      NoEffect (after tar ops) ((after tar ops).vfsOpen tar p filename flags alloc).1 p := by
  intro h
  have hsame := (h (fun _ => none) fullTable 0 [120] oCreate (some fun _ => 0)
    rfl).files.inUse 0
  exact absurd hsame (by decide)

end Vfs

end GenOS
