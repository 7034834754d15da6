import GenOS.Fs.TarArchive
import GenOS.Fs.Vfs

/-!
# Listing a directory

`tar_entry_count` and `vfs_readdir` of `fs/vfs.c`. One cursor runs over the entries of the archive
and then over the slots of `tmpfs`; it is an `int`, which wraps, and is kept in the offset of the
descriptor. The loops take fuel, and `none` says that it ran out.
-/

namespace GenOS

open Tar

/-- `n++` on an `int`. -/
def nextInt (n : Int) : Int := (n + 1).bmod 4294967296

/-- Conversion of an `int` to `size_t`. -/
def intToSize (n : Int) : Nat := (n % 18446744073709551616).toNat

namespace Vfs

/-- The loop of `tar_entry_count`. -/
def countLoop (m : TarMem) (archive walk : Nat) : (fuel : Nat) → (count : Int) → Option Int
  | 0, _ => none
  | fuel + 1, count =>
    match tarGetEntry m archive walk count with
    | none => none
    | some none => some count
    | some (some _) => countLoop m archive walk fuel (nextInt count)

/-- `tar_entry_count`. -/
def tarEntryCount (m : TarMem) (archive fuel : Nat) : Option Int := countLoop m archive fuel fuel 0

/-- Where a loop of `vfs_readdir` leaves the cursor and `f->offset`, and what it has found. -/
structure Scan where
  cursor : Int
  offset : Nat
  found : Option (List UInt8 × Nat)

/-- The loop over the entries of the archive. -/
def readdirTar (m : TarMem) (archive walk : Nat) (tarCount : Int) :
    (fuel : Nat) → (cursor : Int) → (offset : Nat) → Option Scan
  | 0, _, _ => none
  | fuel + 1, cursor, offset =>
    if cursor < tarCount then
      match tarGetEntry m archive walk cursor with
      | none => none
      | some none => some ⟨cursor, offset, none⟩
      | some (some (entryName, entrySize)) =>
        let cursor := nextInt cursor
        -- a name that ends in '/' is a directory
        if entryName.getLast? = some 47 then
          readdirTar m archive walk tarCount fuel cursor (intToSize cursor)
        else some ⟨cursor, intToSize cursor, some (entryName.take 99, entrySize)⟩
    else some ⟨cursor, offset, none⟩

/-- The loop over the slots of `tmpfs`. -/
def readdirTmpfs (files : Tmpfs) :
    (fuel : Nat) → (tmpfsCursor cursor : Int) → (offset : Nat) → Option Scan
  | 0, _, _, _ => none
  | fuel + 1, tmpfsCursor, cursor, offset =>
    if tmpfsCursor < tmpfsMaxFiles then
      match if tmpfsCursor < 0 then none else files.tmpfsGetEntry tmpfsCursor.toNat with
      | some entry => some ⟨cursor, intToSize (nextInt cursor), some entry⟩
      | none =>
        let cursor := nextInt cursor
        readdirTmpfs files fuel (nextInt tmpfsCursor) cursor (intToSize cursor)
    else some ⟨cursor, offset, none⟩

/-- `vfs_readdir`: the name and the size that it stores if it returns 1. -/
def vfsReaddir (m : TarMem) (archive fuel : Nat) (s : Vfs) (p : Nat) (fd : Int) :
    Option (Vfs × Option (List UInt8 × Nat)) :=
  if fd < 0 ∨ (vfsMaxFds : Int) ≤ fd then some (s, none)
  else
    let f := s.fds p fd.toNat
    if f.type ≠ .dir then some (s, none)
    else
      match tarEntryCount m archive fuel with
      | none => none
      | some tarCount =>
        let cursor := toInt32 (f.offset % 4294967296)
        match readdirTar m archive fuel tarCount fuel cursor f.offset with
        | none => none
        | some ⟨_, offset, some entry⟩ =>
          some (s.setFd p fd.toNat { f with offset }, some entry)
        | some ⟨cursor, offset, none⟩ =>
          let tmpfsCursor := (cursor - tarCount).bmod 4294967296
          match readdirTmpfs s.files fuel tmpfsCursor cursor offset with
          | none => none
          | some r => some (s.setFd p fd.toNat { f with offset := r.offset }, r.found)

end Vfs

/-! ## The cursor -/

theorem nextInt_of_lt {c : Nat} (h : c + 1 < 2147483648) : nextInt c = (c + 1 : Nat) := by
  unfold nextInt
  rw [Int.bmod_def]
  split <;> omega

theorem intToSize_natCast {c : Nat} (h : c < 18446744073709551616) : intToSize c = c := by
  unfold intToSize
  omega

theorem toInt32_mod {c : Nat} (h : c < 2147483648) : toInt32 (c % 4294967296) = c := by
  rw [Nat.mod_eq_of_lt (by omega), toInt32_of_lt h]

namespace Tar

theorem counter_next (k : Nat) : nextInt (counter k) = counter (k + 1) := counter_succ k

/-- A directory of the archive. -/
def TarEntry.IsDir (e : TarEntry) : Prop := e.name.getLast? = some 47

instance (e : TarEntry) : Decidable e.IsDir := inferInstanceAs (Decidable (_ = _))

/-- The entries that are listed. -/
def plainFiles (es : List TarEntry) : List TarEntry := es.filter fun e => !decide e.IsDir

theorem plainFiles_cons_dir {e : TarEntry} (h : e.IsDir) (es : List TarEntry) :
    plainFiles (e :: es) = plainFiles es := List.filter_cons_of_neg (by simpa using h)

theorem plainFiles_cons_file {e : TarEntry} (h : ¬ e.IsDir) (es : List TarEntry) :
    plainFiles (e :: es) = e :: plainFiles es := List.filter_cons_of_pos (by simpa using h)

theorem plainFiles_drop_of_le {es : List TarEntry} {c : Nat} (h : es.length ≤ c) :
    plainFiles (es.drop c) = [] := by
  rw [List.drop_eq_nil_of_le h]
  rfl

end Tar

namespace Vfs

variable {m : TarMem} {archive walk fuel p n c j : Nat} {es : List TarEntry}
  {files : Tmpfs} {s : Vfs}
  {fd : Int}

/-- Every entry that there is adds one; the count is the number of entries as an `int`. -/
theorem countLoop_eq (hn : n < 4294967296)
    (hget : ∀ c < 4294967296, (tarGetEntry m archive walk (counter c)).map Option.isSome
      = some (decide (c < n)))
    (hc : c ≤ n) (hf : n - c < fuel) :
    countLoop m archive walk fuel (counter c) = some (counter n) := by
  induction fuel generalizing c with
  | zero => omega
  | succ fuel ih =>
    obtain ⟨r, hr, hsome⟩ := Option.map_eq_some_iff.mp (hget c (by omega))
    unfold countLoop
    rw [hr]
    cases r with
    | none =>
      have hge : ¬ c < n := of_decide_eq_false hsome.symm
      obtain rfl : c = n := by omega
      rfl
    | some r =>
      have hlt : c < n := of_decide_eq_true hsome.symm
      dsimp only
      rw [counter_next]
      exact ih (by omega) (by omega)

/-- The loop over the archive stops behind the next plain file, or behind the last entry. -/
theorem readdirTar_cases (hn : es.length < 2147483648)
    (hname : ∀ e ∈ es, e.name.length ≤ 99)
    (hget : ∀ c : Nat, c < 2147483648 →
      tarGetEntry m archive walk c = some (es[c]?.map fun e => (e.name, e.size)))
    (hf : es.length - c < fuel) :
    (∃ k e, c ≤ k ∧ k < es.length ∧
      plainFiles (es.drop c) = e :: plainFiles (es.drop (k + 1)) ∧
      readdirTar m archive walk es.length fuel c c
        = some ⟨(k + 1 : Nat), k + 1, some (e.name, e.size)⟩) ∨
    (plainFiles (es.drop c) = [] ∧
      readdirTar m archive walk es.length fuel c c
        = some ⟨(max c es.length : Nat), max c es.length, none⟩) := by
  induction fuel generalizing c with
  | zero => omega
  | succ fuel ih =>
    unfold readdirTar
    by_cases hc : c < es.length
    · have hdrop : es.drop c = es[c] :: es.drop (c + 1) := List.drop_eq_getElem_cons hc
      rw [if_pos (by omega), hget c (by omega), List.getElem?_eq_getElem hc, Option.map_some]
      dsimp only
      rw [nextInt_of_lt (by omega), intToSize_natCast (by omega)]
      by_cases hdir : es[c].IsDir
      · rw [if_pos (show es[c].name.getLast? = some 47 from hdir), hdrop, plainFiles_cons_dir hdir]
        rcases ih (c := c + 1) (by omega) with ⟨k, e, h1, h2, h3, h4⟩ | ⟨h1, h2⟩
        · exact .inl ⟨k, e, by omega, h2, h3, h4⟩
        · rw [Nat.max_eq_right (by omega)] at h2 ⊢
          exact .inr ⟨h1, h2⟩
      · rw [if_neg (show ¬ es[c].name.getLast? = some 47 from hdir), hdrop,
          plainFiles_cons_file hdir,
          List.take_of_length_le (hname _ (List.getElem_mem hc))]
        exact .inl ⟨c, es[c], Nat.le_refl c, hc, rfl, rfl⟩
    · rw [if_neg (by omega), Nat.max_eq_left (by omega)]
      exact .inr ⟨plainFiles_drop_of_le (by omega), rfl⟩

theorem tmpfsGetEntry_eq_none_iff {i : Nat} (hi : i < 32) :
    files.tmpfsGetEntry i = none ↔ (files i).inUse = false := by
  unfold Tmpfs.tmpfsGetEntry
  rw [if_neg (Nat.not_le.mpr hi)]
  split
  · next h => exact iff_of_true rfl h
  · next h => exact iff_of_false nofun h

/-- The loop over the slots stops behind the next slot in use, or behind the last slot. -/
theorem readdirTmpfs_cases (files : Tmpfs) (hj : j ≤ 32) (hc : c + (32 - j) < 2147483648)
    (hf : 32 - j < fuel) :
    (∃ i e, j ≤ i ∧ i < 32 ∧ (∀ k, j ≤ k → k < i → (files k).inUse = false) ∧
      files.tmpfsGetEntry i = some e ∧
      readdirTmpfs files fuel j c c
        = some ⟨(c + (i - j) : Nat), c + (i - j) + 1, some e⟩) ∨
    ((∀ k, j ≤ k → k < 32 → (files k).inUse = false) ∧
      readdirTmpfs files fuel j c c
        = some ⟨(c + (32 - j) : Nat), c + (32 - j), none⟩) := by
  induction fuel generalizing c j with
  | zero => omega
  | succ fuel ih =>
    unfold readdirTmpfs
    by_cases hlt : j < 32
    · rw [if_pos (Int.ofNat_lt.mpr hlt), if_neg (by omega), Int.toNat_natCast]
      cases he : files.tmpfsGetEntry j with
      | some e =>
        refine .inl ⟨j, e, Nat.le_refl j, hlt, fun k h1 h2 => by omega, he, ?_⟩
        dsimp only
        rw [nextInt_of_lt (by omega), intToSize_natCast (by omega), Nat.sub_self]
        rfl
      | none =>
        have hfree := (tmpfsGetEntry_eq_none_iff hlt).mp he
        have hskip : ∀ i, (∀ k, j + 1 ≤ k → k < i → (files k).inUse = false) →
            ∀ k, j ≤ k → k < i → (files k).inUse = false := by
          intro i hi k h1 h2
          rcases Nat.eq_or_lt_of_le h1 with rfl | h1
          · exact hfree
          · exact hi k h1 h2
        dsimp only
        rw [nextInt_of_lt (by omega), nextInt_of_lt (by omega), intToSize_natCast (by omega)]
        rcases ih (j := j + 1) (c := c + 1) (by omega) (by omega) (by omega) with
          ⟨i, e, h1, h2, h3, h4, h5⟩ | ⟨h1, h2⟩
        · refine .inl ⟨i, e, by omega, h2, hskip i h3, h4, ?_⟩
          rw [h5, show c + 1 + (i - (j + 1)) = c + (i - j) by omega]
        · refine .inr ⟨hskip 32 h1, ?_⟩
          rw [h2, show c + 1 + (32 - (j + 1)) = c + (32 - j) by omega]
    · obtain rfl : j = 32 := by omega
      rw [if_neg (by decide), Nat.sub_self, Nat.add_zero]
      exact .inr ⟨fun k h1 h2 => by omega, rfl⟩

end Vfs

end GenOS
