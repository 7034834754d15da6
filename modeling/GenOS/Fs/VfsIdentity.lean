import GenOS.Fs.VfsReady

/-!
# Which file a descriptor names

A descriptor names a `tmpfs` file by its slot, and `tmpfs_create` takes the slots of deleted files
again. `Numbered` is a run with a number for every file that was made: the number of the file last
made in each slot, that of the file each descriptor was opened on, and what was written to each
file. As long as no file is made in a slot that an open descriptor names (`Reuses`), a descriptor
reads and writes the file it was opened on, or none (`Own`).
-/

namespace GenOS

/-- The slot that `tmpfs_create` takes for a new file. -/
def Tmpfs.freeSlot (fs : Tmpfs) : Option Nat :=
  (List.range tmpfsMaxFiles).find? fun i => !(fs i).inUse

/-- An open descriptor of the slot `k`. -/
def VfsFd.Names (f : VfsFd) (k : Nat) : Prop := f.type = .file ∧ f.tmpfsIdx = some k

namespace Vfs

/-- The slot in which an operation makes a file. -/
def makes (tar : TarRead) (s : Vfs) : VfsOp → Option Nat
  | .open _ filename flags alloc =>
    if filename ≠ [47] ∧ s.files.tmpfsOpen filename = none ∧ (tar filename).isNone ∧
        flags &&& oCreate ≠ 0 ∧ alloc.isSome then s.files.freeSlot
    else none
  | .create filename alloc =>
    if s.files.tmpfsOpen filename = none ∧ alloc.isSome then s.files.freeSlot else none
  | _ => none

/-- The operation makes a file in a slot that an open descriptor names. -/
def Reuses (tar : TarRead) (s : Vfs) (op : VfsOp) : Prop :=
  ∃ k p i, s.makes tar op = some k ∧ (s.fds p i).Names k

end Vfs

/-! ## Runs with numbers -/

/-- A file is numbered by the step that makes it. -/
structure Numbered where
  vfs : Vfs
  steps : Nat
  /-- The file last made in each slot. -/
  inSlot : Nat → Nat
  /-- The file each descriptor was opened on. -/
  opened : Nat → Nat → Nat
  /-- What was written to each file. -/
  text : Nat → List UInt8

namespace Numbered

open Vfs

def init : Numbered := ⟨Vfs.init, 0, fun _ => 0, fun _ _ => 0, fun _ => []⟩

/-- `opened` after an operation, `inSlot` being the files in the slots then. -/
def reopened (tar : TarRead) (n : Numbered) (inSlot : Nat → Nat) : VfsOp → Nat → Nat → Nat
  | .open p filename flags alloc, q, j =>
    let r := n.vfs.vfsOpen tar p filename flags alloc
    if q = p ∧ r.2 = some j then
      ((r.1.fds p j).tmpfsIdx.map inSlot).getD (n.opened q j)
    else n.opened q j
  | .copyTask parent child, q, j => n.opened (if q = child then parent else q) j
  | _, q, j => n.opened q j

/-- `text` after an operation: what `vfs_write` took goes to the file in the slot it wrote to. -/
def rewritten (n : Numbered) : VfsOp → Nat → List UInt8
  | .write p fd src alloc =>
    match (n.vfs.fds p fd.toNat).tmpfsIdx with
    | some k => Function.update n.text (n.inSlot k)
        (overwrite (n.text (n.inSlot k)) (n.vfs.fds p fd.toNat).offset
          (src.take (n.vfs.vfsWrite p fd src alloc).2.toNat))
    | none => n.text
  | _ => n.text

def exec (tar : TarRead) (n : Numbered) (op : VfsOp) : Numbered :=
  let inSlot := match n.vfs.makes tar op with
    | some k => Function.update n.inSlot k n.steps
    | none => n.inSlot
  { vfs := n.vfs.exec tar op
    steps := n.steps + 1
    inSlot
    opened := n.reopened tar inSlot op
    text := n.rewritten op }

def after (tar : TarRead) (ops : List VfsOp) : Numbered := ops.foldl (exec tar) init

/-- **Descriptor identity**: through the descriptor only the file it was opened on is read and
written. -/
structure Own (n : Numbered) (p : Nat) (fd : Int) : Prop where
  /-- What it reads was written to that file. -/
  reads : ∀ k, (n.vfs.fds p fd.toNat).Names k → ∀ count,
    (n.vfs.vfsRead p fd count).2.2 = [] ∨ (n.vfs.vfsRead p fd count).2.2 =
      ((n.text (n.opened p fd.toNat)).drop (n.vfs.fds p fd.toNat).offset).take count
  /-- It writes to no other file, nor behind the end. -/
  writes : ∀ src alloc k, (n.vfs.vfsWrite p fd src alloc).1.files k ≠ n.vfs.files k →
    n.inSlot k = n.opened p fd.toNat ∧
      (n.vfs.fds p fd.toNat).offset ≤ (n.text (n.opened p fd.toNat)).length
  /-- A descriptor of an archive file reads no `tmpfs` file. -/
  archive : (n.vfs.fds p fd.toNat).tmpfsIdx = none → ∀ count files,
    ({ n.vfs with files } : Vfs).vfsRead p fd count =
      ({ (n.vfs.vfsRead p fd count).1 with files }, (n.vfs.vfsRead p fd count).2)

end Numbered

/-! ## What the steps keep -/

variable {s : Vfs} {fs fs' : Tmpfs} {slot : Nat → Nat} {text : Nat → List UInt8}
  {steps m k p i : Nat}
  {f : VfsFd} {n : Numbered} {tar : TarRead} {filename : List UInt8} {block : Nat → UInt8}

/-- The slots in use hold different files, and in them what was written to these. -/
structure Texts (fs : Tmpfs) (slot : Nat → Nat) (text : Nat → List UInt8) (steps : Nat) : Prop where
  content : ∀ k, (fs k).inUse = true → (fs k).content = text (slot k)
  old : ∀ k, (fs k).inUse = true → slot k < steps
  apart : ∀ j k, (fs j).inUse = true → (fs k).inUse = true → slot j = slot k → j = k
  fresh : ∀ m, steps ≤ m → text m = []

/-- The slot that a descriptor names holds the file `m`, or none. -/
def VfsFd.On (fs : Tmpfs) (slot : Nat → Nat) (f : VfsFd) (m : Nat) : Prop :=
  ∀ k, f.Names k → (fs k).inUse = true → slot k = m ∧ f.offset ≤ (fs k).size ∧ f.size ≤ (fs k).size

namespace Texts

theorem mono (h : Texts fs slot text steps)
    (hf : ∀ k, (fs' k).inUse = true → (fs k).inUse = true ∧ (fs' k).content = (fs k).content) :
    Texts fs' slot text (steps + 1) := by
  refine ⟨fun k hk => ?_, fun k hk => ?_, fun j k hj hk => ?_, fun m hm => ?_⟩
  · obtain ⟨hu, hc⟩ := hf k hk
    rw [hc]
    exact h.content k hu
  · exact Nat.lt_succ_of_lt (h.old k (hf k hk).1)
  · exact h.apart j k (hf j hj).1 (hf k hk).1
  · exact h.fresh m (by omega)

/-- A new file is empty, and its number is new. -/
theorem create (h : Texts fs slot text steps) (filename : List UInt8)
    (block : Nat → UInt8) (k : Nat) :
    Texts (Function.update fs k (Tmpfs.created filename block)) (Function.update slot k steps) text
      (steps + 1) := by
  have hother : ∀ {j}, j ≠ k → Function.update fs k (Tmpfs.created filename block) j = fs j ∧
      Function.update slot k steps j = slot j := fun hj =>
    ⟨Function.update_of_ne hj _ _, Function.update_of_ne hj _ _⟩
  refine ⟨fun j hj => ?_, fun j hj => ?_, fun i j hi hj hij => ?_, fun m hm => h.fresh m (by omega)⟩
  · by_cases hjk : j = k
    · rw [hjk, Function.update_self, Function.update_self, h.fresh steps (Nat.le_refl steps)]
      rfl
    · obtain ⟨h1, h2⟩ := hother hjk
      rw [h1] at hj ⊢
      rw [h2]
      exact h.content j hj
  · by_cases hjk : j = k
    · rw [hjk, Function.update_self]
      exact Nat.lt_succ_self steps
    · obtain ⟨h1, h2⟩ := hother hjk
      rw [h1] at hj
      rw [h2]
      exact Nat.lt_succ_of_lt (h.old j hj)
  · -- the number of the step is not the number of an older file
    by_cases hik : i = k
    · by_cases hjk : j = k
      · rw [hik, hjk]
      · obtain ⟨h1, h2⟩ := hother hjk
        rw [h1] at hj
        rw [hik, Function.update_self, h2] at hij
        have := h.old j hj
        omega
    · obtain ⟨h1, h2⟩ := hother hik
      rw [h1] at hi
      rw [h2] at hij
      by_cases hjk : j = k
      · rw [hjk, Function.update_self] at hij
        have := h.old i hi
        omega
      · obtain ⟨h3, h4⟩ := hother hjk
        rw [h3] at hj
        rw [h4] at hij
        exact h.apart i j hi hj hij

/-- A write to the file in slot `k`. -/
theorem write (h : Texts fs slot text steps) (hu : (fs k).inUse = true)
    (hf : ∀ j, j ≠ k → fs' j = fs j) :
    Texts fs' slot (Function.update text (slot k) (fs' k).content) (steps + 1) := by
  have huse : ∀ j, (fs' j).inUse = true → (fs j).inUse = true := fun j hj => by
    by_cases hjk : j = k
    · rwa [hjk]
    · rwa [hf j hjk] at hj
  refine ⟨fun j hj => ?_, fun j hj => Nat.lt_succ_of_lt (h.old j (huse j hj)), fun i j hi hj =>
    h.apart i j (huse i hi) (huse j hj), fun m hm => ?_⟩
  · by_cases hjk : j = k
    · rw [hjk, Function.update_self]
    · have hslot : slot j ≠ slot k := fun he => hjk (h.apart j k (huse j hj) hu he)
      rw [hf j hjk, Function.update_of_ne hslot]
      exact h.content j (huse j hj)
  · have hm' : m ≠ slot k := fun he => by
      have := h.old k hu
      omega
    rw [Function.update_of_ne hm']
    exact h.fresh m (by omega)

end Texts

namespace VfsFd.On

theorem of_archive (h : f.tmpfsIdx = none) : f.On fs slot m := fun k hn _ => by
  have hk := hn.2
  rw [h] at hk
  cases hk

/-- Files that go and files that grow. -/
theorem mono (h : f.On fs slot m)
    (hf : ∀ k, (fs' k).inUse = true → (fs k).inUse = true ∧ (fs k).size ≤ (fs' k).size) :
    f.On fs' slot m := fun k hn hk => by
  obtain ⟨hu, hs⟩ := hf k hk
  obtain ⟨h1, h2, h3⟩ := h k hn hu
  exact ⟨h1, Nat.le_trans h2 hs, Nat.le_trans h3 hs⟩

/-- A new file in a slot that the descriptor does not name. -/
theorem create (h : f.On fs slot m) (hk : ¬ f.Names k) (g : TmpfsFile) (steps : Nat) :
    f.On (Function.update fs k g) (Function.update slot k steps) m := fun j hn hj => by
  have hjk : j ≠ k := fun he => hk (he ▸ hn)
  rw [Function.update_of_ne hjk] at hj ⊢
  rw [Function.update_of_ne hjk]
  exact h j hn hj

/-- A descriptor that was opened just now. -/
theorem start (hk : f.tmpfsIdx = some k) (ho : f.offset = 0) (hs : f.size ≤ (fs k).size) :
    f.On fs slot (slot k) := fun j hn _ => by
  obtain rfl : k = j := Option.some.inj (hk.symm.trans hn.2)
  exact ⟨rfl, ho ▸ Nat.zero_le _, hs⟩

theorem setOffset {o : Nat} (h : f.On fs slot m)
    (ho : ∀ k, f.Names k → (fs k).inUse = true → o ≤ (fs k).size) :
    VfsFd.On fs slot { f with offset := o } m := fun k hn hk =>
  have hn : f.Names k := hn
  ⟨(h k hn hk).1, ho k hn hk, (h k hn hk).2.2⟩

end VfsFd.On

namespace Vfs

theorem setFd_fds (s : Vfs) (p i : Nat) (f : VfsFd) (q j : Nat) :
    (s.setFd p i f).fds q j = if q = p ∧ j = i then f else s.fds q j := by
  show Function.update s.fds p (Function.update (s.fds p) i f) q j = _
  by_cases hq : q = p
  · subst hq
    rw [Function.update_self]
    by_cases hj : j = i
    · rw [hj, Function.update_self, if_pos ⟨rfl, rfl⟩]
    · rw [Function.update_of_ne hj, if_neg fun h => hj h.2]
  · rw [Function.update_of_ne hq, if_neg fun h => hq h.1]

/-- A call of `tmpfs_create` for a name that no file has. -/
theorem tmpfsCreate_makes {alloc : HeapBlockBytes} (hopen : fs.tmpfsOpen filename = none) :
    (∃ k block, fs.freeSlot = some k ∧ alloc.isSome ∧
      fs.tmpfsCreate filename alloc =
        (Function.update fs k (Tmpfs.created filename block), some k)) ∨
    ((fs.freeSlot = none ∨ alloc.isSome = false) ∧ fs.tmpfsCreate filename alloc = (fs, none)) := by
  unfold Tmpfs.tmpfsCreate Tmpfs.freeSlot
  rw [hopen]
  dsimp only
  cases hslot : (List.range tmpfsMaxFiles).find? fun i => !(fs i).inUse with
  | none => exact .inr ⟨.inl rfl, rfl⟩
  | some k =>
    cases alloc with
    | none => exact .inr ⟨.inr rfl, rfl⟩
    | some block => exact .inl ⟨k, block, rfl, rfl, rfl⟩

theorem makes_open (tar : TarRead) (s : Vfs) (p : Nat) (filename : List UInt8) (flags : BitVec 32)
    (alloc : HeapBlockBytes) : s.makes tar (.open p filename flags alloc) =
      if filename ≠ [47] ∧ s.files.tmpfsOpen filename = none ∧ (tar filename).isNone ∧
        flags &&& oCreate ≠ 0 ∧ alloc.isSome then s.files.freeSlot
      else none := rfl

/-- What `vfs_open` stores: a descriptor at the start of a file, of a new one if it makes one. -/
theorem vfsOpen_cases (tar : TarRead) (s : Vfs) (p : Nat) (filename : List UInt8)
    (flags : BitVec 32)
    (alloc : HeapBlockBytes) :
    (∃ k block f, s.makes tar (.open p filename flags alloc) = some k ∧
      f.tmpfsIdx = some k ∧ f.offset = 0 ∧ f.size = 0 ∧ s.vfsOpen tar p filename flags alloc =
        { s with files := Function.update s.files k (Tmpfs.created filename block) }.install p f) ∨
    (s.makes tar (.open p filename flags alloc) = none ∧
      (s.vfsOpen tar p filename flags alloc = (s, none) ∨ ∃ f, f.offset = 0 ∧
        (∀ k, f.tmpfsIdx = some k → f.size ≤ (s.files k).size) ∧
        s.vfsOpen tar p filename flags alloc = s.install p f)) := by
  unfold vfsOpen
  rw [makes_open]
  by_cases hroot : filename = [47]
  · rw [if_pos hroot, if_neg fun h => h.1 hroot]
    refine .inr ⟨rfl, .inr ⟨{ type := .dir, name := [47] }, rfl, fun k hk => ?_, rfl⟩⟩
    cases hk
  rw [if_neg hroot]
  cases hopen : s.files.tmpfsOpen filename with
  | some tidx =>
    obtain ⟨h1, h2, -⟩ := Tmpfs.tmpfsOpen_some hopen
    have hentry := Tmpfs.tmpfsGetEntry_of_inUse h1 h2
    rw [if_neg fun h => by cases h.2.1]
    refine .inr ⟨rfl, .inr ⟨_, rfl, fun k hk => ?_, rfl⟩⟩
    obtain rfl := Option.some.inj hk
    simp only [hentry]
    exact Nat.le_refl _
  | none =>
    cases htar : tar filename with
    | some file =>
      rw [if_neg fun h => by cases h.2.2.1]
      refine .inr ⟨rfl, .inr ⟨{ type := .file, name := filename.take 99, data := some file.data,
                                size := file.size }, rfl, fun k hk => ?_, rfl⟩⟩
      cases hk
    | none =>
      dsimp only
      by_cases hflag : flags &&& oCreate ≠ 0
      · rw [if_pos hflag]
        rcases @tmpfsCreate_makes s.files filename alloc hopen with
          ⟨k, block, hk, halloc, he⟩ | ⟨hno, he⟩
        · rw [if_pos ⟨hroot, rfl, rfl, hflag, halloc⟩, he]
          exact .inl ⟨k, block, _, hk, rfl, rfl, rfl, rfl⟩
        · rw [he]
          refine .inr ⟨?_, .inl rfl⟩
          rcases hno with hno | hno
          · rw [hno, ite_self]
          · rw [if_neg fun h => by simp [hno] at h]
      · rw [if_neg hflag, if_neg fun h => hflag h.2.2.2.1]
        exact .inr ⟨rfl, .inl rfl⟩

end Vfs

end GenOS
