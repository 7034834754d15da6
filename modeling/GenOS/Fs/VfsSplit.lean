import GenOS.Fs.CacheSplit
import GenOS.Fs.TmpfsArray
import GenOS.Fs.TmpfsBounds
import GenOS.Fs.VfsSeek

/-!
# Transfers in pieces

`Ready` is what every run of calls keeps: offsets that do not overflow, buffers that are zero behind
the end of the file, a cache in order. From such a state two reads of a descriptor in a row are one
read, and two writes one write, whatever the first was as long as it was full.
-/

namespace GenOS

open Splice

variable {s t t' : Vfs} {p i k o a b n : Nat} {fd : Int} {f : VfsFd} {fs : Tmpfs} {c d : Cache}
  {bytes : List UInt8} {alloc : HeapBlockBytes}

/-- The buffers of the files are within their bounds, and zero behind the end; a slot that is not in
use is empty. -/
structure Tmpfs.Clean (fs : Tmpfs) : Prop where
  bounded : fs.Bounded
  zeroed : ∀ k, (fs k).Zeroed
  empty : ∀ k, (fs k).inUse = false → (fs k).size = 0

/-- The offset of an open file does not overflow. -/
structure VfsFd.InRange (f : VfsFd) : Prop where
  tmpfs : ∀ k, f.type = .file → f.tmpfsIdx = some k → f.offset ≤ tmpfsMaxSize ∧
    f.size ≤ tmpfsMaxSize
  archive : f.type = .file → f.tmpfsIdx = none → f.offset ≤ f.size ∧ f.size < 18446744073709551616
  slot : ∀ k, f.type = .file → f.tmpfsIdx = some k → k < tmpfsMaxFiles

/-- What calls keep. -/
structure Vfs.Ready (s : Vfs) : Prop where
  clean : s.files.Clean
  inRange : ∀ p i, (s.fds p i).InRange
  tagged : s.cache.Tagged

theorem VfsFd.InRange.fits (h : f.InRange) (ht : f.type = .file) :
    f.offset < 18446744073709551616 := by
  cases hi : f.tmpfsIdx with
  | some k => exact Nat.lt_of_le_of_lt (h.tmpfs k ht hi).1 (by decide)
  | none => exact Nat.lt_of_le_of_lt (h.archive ht hi).1 (h.archive ht hi).2

theorem Tmpfs.Clean.small (h : fs.Clean) (k : Nat) : (fs k).size ≤ tmpfsMaxSize :=
  Nat.le_trans (h.bounded k).size (h.bounded k).capacity

/-! ## What a descriptor reads -/

/-- The backends of `vfs_read`. -/
def VfsFd.fetch (f : VfsFd) (fs : Tmpfs) (c : Cache) (o count : Nat) : Cache × Int × List UInt8 :=
  match f.tmpfsIdx with
  | some idx => (c, fs.tmpfsRead idx o count)
  | none =>
    match f.data with
    | some src => c.cacheRead ⟨f.name, src, f.size⟩ o count
    | none => (c, -1, [])

/-- A backend of a descriptor: an open file, an archive file, or an error whatever is asked. -/
theorem VfsFd.fetch_cases (f : VfsFd) (fs : Tmpfs) :
    (∃ k, f.tmpfsIdx = some k ∧ k < tmpfsMaxFiles ∧ (fs k).inUse = true) ∨
      (∃ src, f.tmpfsIdx = none ∧ f.data = some src ∧
        ∀ c o count, f.fetch fs c o count = c.cacheRead ⟨f.name, src, f.size⟩ o count) ∨
      ∀ c o count, f.fetch fs c o count = (c, -1, []) := by
  unfold fetch
  cases hidx : f.tmpfsIdx with
  | none =>
    cases hdata : f.data with
    | none => exact .inr (.inr fun _ _ _ => rfl)
    | some src => exact .inr (.inl ⟨src, rfl, rfl, fun _ _ _ => rfl⟩)
  | some k =>
    by_cases hk : tmpfsMaxFiles ≤ k
    · exact .inr (.inr fun c o count => by simp [Tmpfs.tmpfsRead, hk])
    · cases hu : (fs k).inUse with
      | false => exact .inr (.inr fun c o count => by simp [Tmpfs.tmpfsRead, hu])
      | true => exact .inl ⟨k, rfl, Nat.not_le.mp hk, hu⟩

theorem VfsFd.fetch_tmpfs (hf : fs.Clean) (hi : f.tmpfsIdx = some k) (hk : k < tmpfsMaxFiles)
    (hu : (fs k).inUse = true) (c : Cache) (o count : Nat) :
    f.fetch fs c o count = (c, (((((fs k).content.drop o).take count).length : Nat) : Int),
      ((fs k).content.drop o).take count) := by
  unfold fetch
  rw [hi]
  dsimp only
  rw [Tmpfs.tmpfsRead_eq hk hu (hf.small k)]

/-- What a backend returns is the number of its bytes, and it returns 0 bytes where it returns
any. -/
theorem VfsFd.fetch_spec (hf : fs.Clean) (hc : c.Tagged) {count : Nat} (hlt : count < 2147483648)
    (h : 0 ≤ (f.fetch fs c o count).2.1) :
    (f.fetch fs c o count).2.1 = (f.fetch fs c o count).2.2.length ∧
      (f.fetch fs c o count).2.2.length ≤ count ∧ (f.fetch fs c o count).1.Tagged ∧
      f.fetch fs c o 0 = (c, 0, []) := by
  rcases f.fetch_cases fs with ⟨k, hi, hk, hu⟩ | ⟨src, -, -, heq⟩ | heq
  · rw [fetch_tmpfs hf hi hk hu, fetch_tmpfs hf hi hk hu]
    exact ⟨rfl, List.length_take_le _ _, hc, by simp⟩
  · rw [heq, heq]
    exact ⟨hc.read_length _ o hlt, Nat.le_trans (hc.read_le _ o hlt) (Nat.min_le_left _ _),
      hc.read _ o count, Cache.cacheRead_zero _ _ _⟩
  · rw [heq] at h
    exact absurd h nofun

/-- Where a transfer ends does not overflow. -/
theorem VfsFd.fetch_end (hf : fs.Clean) (hc : c.Tagged) (hr : f.InRange) (ht : f.type = .file)
    {count : Nat} (hlt : count < 2147483648) (h : 0 ≤ (f.fetch fs c f.offset count).2.1) :
    f.offset + (f.fetch fs c f.offset count).2.2.length < 18446744073709551616 := by
  rcases f.fetch_cases fs with ⟨k, hi, hk, hu⟩ | ⟨src, hi, -, heq⟩ | heq
  · have ho := (hr.tmpfs k ht hi).1
    have hs := hf.small k
    rw [fetch_tmpfs hf hi hk hu, List.length_take, List.length_drop, TmpfsFile.length_content]
    simp only [tmpfsMaxSize] at ho hs
    omega
  · obtain ⟨h1, h2⟩ := hr.archive ht hi
    have hle := hc.read_le ⟨f.name, src, f.size⟩ f.offset hlt
    rw [heq]
    dsimp only at hle
    omega
  · rw [heq] at h
    exact absurd h nofun

/-- A full transfer, and one from where it ended. -/
theorem VfsFd.fetch_add (hf : fs.Clean) (hc : c.Tagged) (hab : a + b < 2147483648)
    (ha : (f.fetch fs c o a).2.1 = a) (hl : Cache.Like f.name (f.fetch fs c o a).1 d)
    (hb : (f.fetch fs d (o + a) b).2.1 = n) :
    (f.fetch fs c o (a + n)).2 = (((a + n : Nat) : Int),
        (f.fetch fs c o a).2.2 ++ (f.fetch fs d (o + a) b).2.2) ∧
      (n = b → Cache.Like f.name (f.fetch fs c o (a + n)).1 (f.fetch fs d (o + a) b).1) ∧
      (f.fetch fs c o (a + b)).2.1 = ((a + n : Nat) : Int) := by
  rcases f.fetch_cases fs with ⟨k, hi, hk, hu⟩ | ⟨src, -, -, heq⟩ | heq
  · simp only [fetch_tmpfs hf hi hk hu] at ha hl hb ⊢
    have ha' := Int.natCast_inj.mp ha
    have hb' := Int.natCast_inj.mp hb
    rw [List.length_take, List.length_drop] at ha' hb'
    have htake : ((fs k).content.drop (o + a)).take b = ((fs k).content.drop (o + a)).take n := by
      rw [← hb', List.take_eq_take_iff, List.length_drop]
      omega
    rw [htake, List.take_add, List.drop_drop]
    refine ⟨?_, fun _ => hl, ?_⟩
    · simp only [List.length_append, List.length_take, List.length_drop, Prod.mk.injEq, and_true]
      congr 1
      omega
    · rw [List.length_take, List.length_drop]
      congr 1
      omega
  · rw [heq] at ha hl ⊢
    rw [heq] at hb ⊢
    rw [heq, heq]
    exact hc.read_add hab ha hl hb
  · rw [heq] at ha
    change (-1 : Int) = a at ha
    omega

namespace Vfs

/-! ## Reads -/

/-- The descriptor at another offset. -/
def moveTo (s : Vfs) (p i o : Nat) : Vfs := s.setFd p i { s.fds p i with offset := o }

@[simp] theorem moveTo_fd (s : Vfs) (p i o : Nat) :
    (s.moveTo p i o).fds p i = { s.fds p i with offset := o } := by
  simp [moveTo, setFd]

@[simp] theorem moveTo_files (s : Vfs) (p i o : Nat) : (s.moveTo p i o).files = s.files := rfl

@[simp] theorem moveTo_cache (s : Vfs) (p i o : Nat) : (s.moveTo p i o).cache = s.cache := rfl

/-- Only the last offset counts. -/
theorem moveTo_moveTo (s : Vfs) (p i o o' : Nat) :
    (s.moveTo p i o).moveTo p i o' = s.moveTo p i o' := by
  simp [moveTo, setFd]

theorem moveTo_self (s : Vfs) (p i : Nat) : s.moveTo p i (s.fds p i).offset = s := by
  simp [moveTo, setFd]

theorem moveTo_fds_congr (h : t.fds = s.fds) (p i o : Nat) :
    (t.moveTo p i o).fds = (s.moveTo p i o).fds := by
  simp [moveTo, setFd, h]

/-- A valid descriptor of a file. -/
structure Opened (s : Vfs) (p : Nat) (fd : Int) : Prop where
  nonneg : 0 ≤ fd
  lt : fd < vfsMaxFds
  file : (s.fds p fd.toNat).type = .file

theorem vfsRead_eq (h : s.Opened p fd) (count : Nat) :
    s.vfsRead p fd count =
      if (s.fds p fd.toNat).size ≤ (s.fds p fd.toNat).offset then (s, 0, [])
      else
        let r := (s.fds p fd.toNat).fetch s.files s.cache (s.fds p fd.toNat).offset count
        (if 0 < r.2.1 then
            ({ s with cache := r.1 } : Vfs).moveTo p fd.toNat
              (((s.fds p fd.toNat).offset + r.2.1.toNat) % 18446744073709551616)
          else { s with cache := r.1 }, r.2) := by
  unfold Vfs.vfsRead
  rw [if_neg (by have := h.nonneg; have := h.lt; omega)]
  dsimp only
  rw [if_neg (by simp [h.file])]
  refine if_congr Iff.rfl rfl ?_
  unfold VfsFd.fetch moveTo
  dsimp only
  generalize s.fds p fd.toNat = f
  obtain ⟨type, name, data, size, offset, writable, tmpfsIdx⟩ := f
  cases tmpfsIdx with
  | some idx => dsimp only; split <;> rfl
  | none =>
    cases data with
    | some src => dsimp only; split <;> rfl
    | none => rfl

/-- Before the end, it is what the backend returns. -/
theorem vfsRead_fetch (h : s.Opened p fd)
    (hend : (s.fds p fd.toNat).offset < (s.fds p fd.toNat).size) (count : Nat) :
    (s.vfsRead p fd count).2 = ((s.fds p fd.toNat).fetch s.files s.cache
        (s.fds p fd.toNat).offset count).2 ∧
      (s.vfsRead p fd count).1.cache = ((s.fds p fd.toNat).fetch s.files s.cache
        (s.fds p fd.toNat).offset count).1 := by
  rw [vfsRead_eq h, if_neg (Nat.not_le.mpr hend)]
  dsimp only
  split
  · exact ⟨rfl, rfl⟩
  · exact ⟨rfl, rfl⟩

/-- Otherwise it is an error. -/
theorem vfsRead_closed (h : ¬ s.Opened p fd) (count : Nat) :
    s.vfsRead p fd count = (s, -1, []) := by
  unfold Vfs.vfsRead
  split
  · rfl
  · next hfd =>
    refine if_pos fun ht => h ⟨by omega, by omega, ht⟩

/-- `t` is `s` after a read of `n` bytes, whatever that did to the cache. -/
structure ReadTo (s t : Vfs) (p i n : Nat) : Prop where
  files : t.files = s.files
  fds : t.fds = (s.moveTo p i ((s.fds p i).offset + n)).fds
  tagged : t.cache.Tagged
  fits : (s.fds p i).offset + n < 18446744073709551616

theorem vfsRead_error (h : s.Ready) {count : Nat} (hn : (s.vfsRead p fd count).2.1 < 0) :
    (s.vfsRead p fd count).1.files = s.files ∧ (s.vfsRead p fd count).1.fds = s.fds ∧
      (s.vfsRead p fd count).1.cache.Tagged := by
  by_cases ho : s.Opened p fd
  · rw [vfsRead_eq ho] at hn ⊢
    split
    · exact ⟨rfl, rfl, h.tagged⟩
    · next hend =>
      rw [if_neg hend] at hn
      dsimp only at hn ⊢
      rw [if_neg (by omega)]
      refine ⟨rfl, rfl, ?_⟩
      rcases (s.fds p fd.toNat).fetch_cases s.files with ⟨k, hi, hk, hu⟩ | ⟨src, -, -, heq⟩ | heq
      · rw [VfsFd.fetch_tmpfs h.clean hi hk hu]
        exact h.tagged
      · rw [heq]
        exact h.tagged.read _ _ _
      · rw [heq]
        exact h.tagged
  · rw [vfsRead_closed ho]
    exact ⟨rfl, rfl, h.tagged⟩

/-- A read that is none. -/
theorem vfsRead_to (h : s.Ready) {count : Nat} (hc : count < 2147483648)
    (hn : 0 ≤ (s.vfsRead p fd count).2.1) :
    s.Opened p fd ∧ (s.vfsRead p fd count).2.1 = (s.vfsRead p fd count).2.2.length ∧
      (s.vfsRead p fd count).2.2.length ≤ count ∧
      ReadTo s (s.vfsRead p fd count).1 p fd.toNat (s.vfsRead p fd count).2.2.length ∧
      s.vfsRead p fd 0 = (s, 0, []) := by
  by_cases ho : s.Opened p fd
  · refine ⟨ho, ?_⟩
    rw [vfsRead_eq ho] at hn ⊢
    rw [vfsRead_eq ho]
    by_cases hend : (s.fds p fd.toNat).size ≤ (s.fds p fd.toNat).offset
    · rw [if_pos hend, if_pos hend]
      refine ⟨rfl, Nat.zero_le _, ⟨rfl, ?_, h.tagged, (h.inRange p fd.toNat).fits ho.file⟩, rfl⟩
      exact (congrArg Vfs.fds (moveTo_self s p fd.toNat)).symm
    · rw [if_neg hend] at hn
      rw [if_neg hend, if_neg hend]
      dsimp only at hn ⊢
      obtain ⟨h1, h2, h3, h4⟩ := VfsFd.fetch_spec h.clean h.tagged hc hn
      have hfits := VfsFd.fetch_end h.clean h.tagged (h.inRange p fd.toNat) ho.file hc hn
      refine ⟨h1, h2, ?_, ?_⟩
      · generalize (s.fds p fd.toNat).fetch s.files s.cache (s.fds p fd.toNat).offset count = r
          at h1 h3 hfits ⊢
        rw [h1, Int.toNat_natCast, Nat.mod_eq_of_lt hfits]
        split
        · exact ⟨rfl, rfl, h3, hfits⟩
        · next hz =>
          have hz : r.2.2.length = 0 := by omega
          rw [hz] at hfits ⊢
          exact ⟨rfl, (congrArg Vfs.fds (moveTo_self s p fd.toNat)).symm, h3, hfits⟩
      · rw [h4]
        rfl
  · rw [vfsRead_closed ho] at hn
    exact absurd hn nofun

theorem ReadTo.descriptor (h : ReadTo s t p i n) :
    t.fds p i = { s.fds p i with offset := (s.fds p i).offset + n } := by
  rw [h.fds, moveTo_fd]

/-- A full read and one from where it ended are one read. -/
theorem vfsRead_add (h : s.Ready) (hab : a + b < 2147483648) (ha : (s.vfsRead p fd a).2.1 = a)
    (hr : ReadTo s t p fd.toNat a)
    (hl : Cache.Like (s.fds p fd.toNat).name (s.vfsRead p fd a).1.cache t.cache)
    (hb : (t.vfsRead p fd b).2.1 = n) :
    (s.vfsRead p fd (a + n)).2 = (((a + n : Nat) : Int),
        (s.vfsRead p fd a).2.2 ++ (t.vfsRead p fd b).2.2) ∧
      (n = b → Cache.Like (s.fds p fd.toNat).name (s.vfsRead p fd (a + n)).1.cache
        (t.vfsRead p fd b).1.cache) ∧
      ((s.fds p fd.toNat).offset + a < (s.fds p fd.toNat).size →
        (s.vfsRead p fd (a + b)).2.1 = ((a + n : Nat) : Int)) := by
  have ho := (vfsRead_to h (by omega) (show 0 ≤ (s.vfsRead p fd a).2.1 by omega)).1
  have hfd := hr.descriptor
  have hot : t.Opened p fd := ⟨ho.nonneg, ho.lt, by rw [hfd]; exact ho.file⟩
  by_cases hend : (s.fds p fd.toNat).size ≤ (s.fds p fd.toNat).offset + a
  · -- the second read finds the end of the file
    have hnone : t.vfsRead p fd b = (t, 0, []) := by
      rw [vfsRead_eq hot, if_pos (by rw [hfd]; exact hend)]
    rw [hnone] at hb ⊢
    obtain rfl : n = 0 := by
      change (0 : Int) = n at hb
      omega
    rw [Nat.add_zero, List.append_nil]
    exact ⟨Prod.ext ha rfl, fun _ => hl, fun hlt => absurd hend (Nat.not_le.mpr hlt)⟩
  · obtain ⟨h1, h2⟩ := vfsRead_fetch hot (by rw [hfd]; exact Nat.not_le.mp hend) b
    have hsecond : (t.fds p fd.toNat).fetch t.files t.cache (t.fds p fd.toNat).offset b =
        (s.fds p fd.toNat).fetch s.files t.cache ((s.fds p fd.toNat).offset + a) b := by
      rw [hfd, hr.files]
      rfl
    have hfirst := vfsRead_fetch ho (show (s.fds p fd.toNat).offset < _ by omega)
    rw [hsecond] at h1 h2
    rw [(hfirst a).1] at ha ⊢
    rw [(hfirst a).2] at hl
    rw [h1] at hb ⊢
    rw [h2, (hfirst (a + n)).1, (hfirst (a + n)).2, (hfirst (a + b)).1]
    obtain ⟨g1, g2, g3⟩ := VfsFd.fetch_add h.clean h.tagged hab ha hl hb
    exact ⟨g1, g2, fun _ => g3⟩

end Vfs

/-! ## Writes -/

namespace TmpfsFile

variable {g g' : TmpfsFile} {e e' m cap : Nat}

/-- Files that hold the same, in buffers of one size. -/
structure Same (g g' : TmpfsFile) : Prop where
  inUse : g.inUse = g'.inUse
  name : g.name = g'.name
  content : g.content = g'.content
  capacity : g.capacity = g'.capacity

theorem Same.refl (g : TmpfsFile) : Same g g := ⟨rfl, rfl, rfl, rfl⟩

theorem grow_capacity (h : g.grow e alloc = some g') : g'.capacity = growCap e 16 g.capacity := by
  unfold grow at h
  split at h
  · cases alloc with
    | none => exact absurd h nofun
    | some block =>
      obtain rfl := Option.some.inj h
      rfl
  · next hge =>
    obtain rfl := Option.some.inj h
    exact (if_neg hge).symm

/-- Growing in two steps ends where growing at once does. -/
theorem growCap_growCap (he : e ≤ e') (h' : e' ≤ growCap e' n cap) :
    growCap e' n (growCap e n cap) = growCap e' n cap := by
  induction n generalizing cap with
  | zero => rfl
  | succ n ih =>
    by_cases hlt : cap < e
    · have hlt' : cap < e' := Nat.lt_of_lt_of_le hlt he
      have h1 : growCap e (n + 1) cap = growCap e n (min (cap * 2) tmpfsMaxSize) := if_pos hlt
      have h2 : growCap e' (n + 1) cap = growCap e' n (min (cap * 2) tmpfsMaxSize) := if_pos hlt'
      rw [h2] at h' ⊢
      have heq := ih h'
      rw [h1, ← heq]
      exact growCap_done (heq ▸ h') (Nat.le_succ n)
    · have h1 : growCap e (n + 1) cap = cap := if_neg hlt
      rw [h1]

end TmpfsFile

/-- The content after `src` is written at `o`; to write nothing does not move the end. -/
def overwrite (l : List UInt8) (o : Nat) (src : List UInt8) : List UInt8 :=
  if src = [] then l else splice 0 l o src

theorem overwrite_overwrite (l : List UInt8) (o : Nat) (a b : List UInt8) :
    overwrite (overwrite l o a) (o + a.length) b = overwrite l o (a ++ b) := by
  cases a with
  | nil => simp [overwrite]
  | cons x a =>
    cases b with
    | nil => simp [overwrite]
    | cons y b =>
      have h := splice_splice 0 l o (x :: a) (y :: b)
      simpa [overwrite] using h

namespace Vfs

/-- A descriptor to write a file of `tmpfs` through. -/
structure WritableAt (s : Vfs) (p : Nat) (fd : Int) (k : Nat) : Prop extends Opened s p fd where
  writable : (s.fds p fd.toNat).writable = true
  index : (s.fds p fd.toNat).tmpfsIdx = some k
  slot : k < tmpfsMaxFiles
  inUse : (s.files k).inUse = true

/-- The descriptor after a write of `n` bytes that leaves the file with `size`. -/
def wroteFd (f : VfsFd) (n size : Nat) : VfsFd :=
  if n = 0 then f else { f with offset := f.offset + n, size := size }

/-- `t` is `s` after `src` is written through descriptor `i` of the task, which is one of file
`k`. -/
structure WriteTo (s t : Vfs) (p i k : Nat) (src : List UInt8) : Prop where
  cache : t.cache = s.cache
  others : ∀ j, j ≠ k → t.files j = s.files j
  name : (t.files k).name = (s.files k).name
  inUse : (t.files k).inUse = (s.files k).inUse
  content : (t.files k).content = overwrite (s.files k).content (s.fds p i).offset src
  capacity : (t.files k).capacity = if src = [] then (s.files k).capacity else
    TmpfsFile.growCap ((s.fds p i).offset + src.length) 16 (s.files k).capacity
  fds : t.fds = (s.setFd p i (wroteFd (s.fds p i) src.length (t.files k).size)).fds

theorem WriteTo.refl (s : Vfs) (p i k : Nat) : WriteTo s s p i k [] :=
  ⟨rfl, fun _ _ => rfl, rfl, rfl, rfl, rfl, by simp [wroteFd, setFd]⟩

theorem vfsWrite_closed (h : ∀ k, ¬ s.WritableAt p fd k) (src : List UInt8)
    (alloc : HeapBlockBytes) :
    s.vfsWrite p fd src alloc = (s, -1) := by
  unfold Vfs.vfsWrite
  split
  · rfl
  next hfd =>
  dsimp only
  split
  · rfl
  next ht =>
  split
  · rfl
  next hw =>
  cases hi : (s.fds p fd.toNat).tmpfsIdx with
  | none => rfl
  | some k =>
    have hnot : tmpfsMaxFiles ≤ k ∨ (s.files k).inUse = false := by
      by_contra hc
      obtain ⟨h1, h2⟩ := not_or.mp hc
      exact h k ⟨⟨by omega, by omega, Decidable.not_not.mp ht⟩, by simpa using hw, hi,
        Nat.not_le.mp h1, by simpa using h2⟩
    have hwrite : s.files.tmpfsWrite k (s.fds p fd.toNat).offset src alloc = (s.files, -1) := by
      unfold Tmpfs.tmpfsWrite
      rcases hnot with hk | hu
      · rw [if_pos hk]
      · rw [hu]
        simp
    dsimp only
    rw [hwrite]
    rfl

/-- The end of `vfs_write`, with what `tmpfs_write` did. -/
def writtenTo (s : Vfs) (p i k : Nat) (w : Tmpfs × Int) : Vfs × Int :=
  if 0 < w.2 then
    ({ s with files := w.1 }.setFd p i
      { s.fds p i with
        offset := ((s.fds p i).offset + w.2.toNat) % 18446744073709551616
        size := match w.1.tmpfsGetEntry k with
          | some (_, size) => size
          | none => 0 }, w.2)
  else ({ s with files := w.1 }, w.2)

theorem vfsWrite_eq (hw : s.WritableAt p fd k) (src : List UInt8) (alloc : HeapBlockBytes) :
    s.vfsWrite p fd src alloc = s.writtenTo p fd.toNat k
      (s.files.tmpfsWrite k (s.fds p fd.toNat).offset src alloc) := by
  unfold Vfs.vfsWrite writtenTo
  rw [if_neg (by have := hw.nonneg; have := hw.lt; omega)]
  dsimp only
  rw [if_neg (by simp [hw.file]), if_neg (by simp [hw.writable])]
  have hi := hw.index
  generalize s.fds p fd.toNat = f at hi
  obtain ⟨type, name, data, size, offset, writable, tmpfsIdx⟩ := f
  obtain rfl : tmpfsIdx = some k := hi
  rfl

/-- A write touches the file that the descriptor names, and no other. -/
theorem vfsWrite_files {src : List UInt8} {alloc : HeapBlockBytes}
    (h : (s.vfsWrite p fd src alloc).1.files k ≠ s.files k) : s.WritableAt p fd k := by
  by_cases hw : ∃ j, s.WritableAt p fd j
  · obtain ⟨j, hw⟩ := hw
    have hfiles : (s.vfsWrite p fd src alloc).1.files =
        (s.files.tmpfsWrite j (s.fds p fd.toNat).offset src alloc).1 := by
      rw [vfsWrite_eq hw, writtenTo]
      split <;> rfl
    obtain rfl : k = j := by
      by_contra hk
      exact h (by rw [hfiles, Tmpfs.tmpfsWrite_of_ne hk])
    exact hw
  · rw [vfsWrite_closed (not_exists.mp hw)] at h
    exact absurd rfl h

/-- What `vfs_write` does: it writes the bytes that fit, or there is no room to grow. -/
theorem vfsWrite_spec (h : s.Ready) (hw : s.WritableAt p fd k) {src : List UInt8}
    (hlen : src.length < 9223372036854775808) (alloc : HeapBlockBytes) :
    (∃ t, s.vfsWrite p fd src alloc =
          (t, ((fitting (s.fds p fd.toNat).offset src.length : Nat) : Int)) ∧
        t.files = (s.files.tmpfsWrite k (s.fds p fd.toNat).offset src alloc).1 ∧
        WriteTo s t p fd.toNat k (src.take (fitting (s.fds p fd.toNat).offset src.length))) ∨
      (alloc = none ∧ fitting (s.fds p fd.toNat).offset src.length ≠ 0 ∧
        (s.files k).capacity <
          (s.fds p fd.toNat).offset + fitting (s.fds p fd.toNat).offset src.length ∧
        s.vfsWrite p fd src alloc = (s, -1)) := by
  have ho := ((h.inRange p fd.toNat).tmpfs k hw.file hw.index).1
  simp only [tmpfsMaxSize] at ho
  have hwrap : (s.fds p fd.toNat).offset + src.length < 18446744073709551616 := by omega
  have hcount := Tmpfs.writeCount_of_lt hwrap
  change _ = fitting (s.fds p fd.toNat).offset src.length at hcount
  rw [vfsWrite_eq hw, Tmpfs.tmpfsWrite_eq hw.slot hw.inUse, hcount]
  unfold writtenTo
  by_cases h0 : fitting (s.fds p fd.toNat).offset src.length = 0
  · rw [if_pos h0, h0]
    exact .inl ⟨s, rfl, rfl, .refl s p fd.toNat k⟩
  rw [if_neg h0]
  have hend : Tmpfs.writeEnd (s.fds p fd.toNat).offset src.length =
      (s.fds p fd.toNat).offset + fitting (s.fds p fd.toNat).offset src.length :=
    hcount ▸ Tmpfs.writeEnd_of_lt hwrap (hcount ▸ h0)
  have hmax := (Tmpfs.writeEnd_eq (hcount ▸ h0)).2
  rw [hend] at hmax ⊢
  rcases TmpfsFile.grow_cases (h.clean.bounded k) hw.inUse hmax alloc with
    ⟨hlt, halloc, hnone⟩ | ⟨-, g, hg, hgrown⟩
  · rw [hnone]
    exact .inr ⟨halloc, h0, hlt, rfl⟩
  · rw [hg]
    dsimp only
    rw [Tmpfs.stored_eq s.files g hwrap (hcount ▸ h0)]
    generalize hm : fitting (s.fds p fd.toNat).offset src.length = m at *
    have hmlen : (src.take m).length = m := by
      rw [List.length_take, ← hm, fitting]
      omega
    simp only [tmpfsMaxSize] at hmax
    have hgrown' :
        TmpfsFile.Grown (s.files k) g ((s.fds p fd.toNat).offset + (src.take m).length) :=
      hmlen.symm ▸ hgrown
    have hself : Function.update s.files k (g.written (s.fds p fd.toNat).offset (src.take m)) k =
        g.written (s.fds p fd.toNat).offset (src.take m) := Function.update_self ..
    have hne : src.take m ≠ [] := fun h => h0 (by rw [← hmlen, h]; rfl)
    rw [Nat.mod_eq_of_lt (by omega), toInt32_of_lt (by omega), if_pos (by omega),
      Tmpfs.tmpfsGetEntry_of_inUse hw.slot (by rw [hself]; exact hgrown.inUse.trans hw.inUse),
      Int.toNat_natCast, Nat.mod_eq_of_lt (by omega)]
    refine .inl ⟨_, rfl, rfl, ⟨rfl, fun j hj => Function.update_of_ne hj _ _, ?_, ?_, ?_, ?_, ?_⟩⟩
    · exact (congrArg TmpfsFile.name hself).trans hgrown.name
    · exact (congrArg TmpfsFile.inUse hself).trans hgrown.inUse
    · refine (congrArg TmpfsFile.content hself).trans ?_
      rw [TmpfsFile.content_written hgrown' (h.clean.bounded k) (h.clean.zeroed k), overwrite,
        if_neg hne]
    · refine (congrArg TmpfsFile.capacity hself).trans ?_
      rw [if_neg hne, hmlen]
      exact show g.capacity = _ from TmpfsFile.grow_capacity hg
    · rw [hmlen, wroteFd, if_neg h0]
      rfl

@[simp] theorem wroteFd_offset (f : VfsFd) (n size : Nat) :
    (wroteFd f n size).offset = f.offset + n := by
  unfold wroteFd
  split
  · next h => rw [h]; rfl
  · rfl

theorem wroteFd_wroteFd (f : VfsFd) (m size : Nat) {n : Nat} (hn : n ≠ 0) (size' : Nat) :
    wroteFd (wroteFd f m size) n size' = wroteFd f (m + n) size' := by
  unfold wroteFd
  rw [if_neg hn, if_neg (show m + n ≠ 0 by omega)]
  split
  · next hm => rw [hm, Nat.zero_add]
  · rw [Nat.add_assoc]

variable {u : Vfs} {src src' : List UInt8}

theorem WriteTo.descriptor (h : WriteTo s t p i k src) :
    t.fds p i = wroteFd (s.fds p i) src.length (t.files k).size := by
  rw [h.fds]
  simp [setFd]

theorem WriteTo.writableAt (h : WriteTo s t p fd.toNat k src) (hw : s.WritableAt p fd k) :
    t.WritableAt p fd k := by
  have hsame : ∀ f : VfsFd, ∀ n size, (wroteFd f n size).type = f.type ∧
      (wroteFd f n size).writable = f.writable ∧ (wroteFd f n size).tmpfsIdx = f.tmpfsIdx := by
    intro f n size
    unfold wroteFd
    split
    · exact ⟨rfl, rfl, rfl⟩
    · exact ⟨rfl, rfl, rfl⟩
  obtain ⟨h1, h2, h3⟩ := hsame (s.fds p fd.toNat) src.length (t.files k).size
  rw [← h.descriptor] at h1 h2 h3
  exact ⟨⟨hw.nonneg, hw.lt, h1.trans hw.file⟩, h2.trans hw.writable, h3.trans hw.index, hw.slot,
    h.inUse.trans hw.inUse⟩

/-- Two writes in a row are one. -/
theorem WriteTo.trans (h : WriteTo s t p i k src) (h' : WriteTo t u p i k src')
    (hreach : src' ≠ [] → (s.fds p i).offset + src.length + src'.length ≤
      TmpfsFile.growCap ((s.fds p i).offset + src.length + src'.length) 16 (s.files k).capacity) :
    WriteTo s u p i k (src ++ src') := by
  have hoff : (t.fds p i).offset = (s.fds p i).offset + src.length := by
    rw [h.descriptor, wroteFd_offset]
  refine ⟨h'.cache.trans h.cache, fun j hj => (h'.others j hj).trans (h.others j hj),
    h'.name.trans h.name, h'.inUse.trans h.inUse, ?_, ?_, ?_⟩
  · rw [h'.content, hoff, h.content, overwrite_overwrite]
  · rw [h'.capacity, hoff, h.capacity, List.length_append, ← Nat.add_assoc]
    by_cases hb : src' = []
    · simp [hb]
    · rw [if_neg hb, if_neg (show src ++ src' ≠ [] by simp [hb])]
      split
      · next ha => rw [ha]
      · exact TmpfsFile.growCap_growCap (Nat.le_add_right _ _) (hreach hb)
  · rw [h'.fds]
    by_cases hb : src' = []
    · have hsize : (u.files k).size = (t.files k).size := by
        rw [← TmpfsFile.length_content, h'.content, hb, overwrite, if_pos rfl,
          TmpfsFile.length_content]
      rw [hb, List.append_nil, hsize, ← h.fds]
      simp [wroteFd, setFd]
    · rw [h.descriptor, wroteFd_wroteFd _ _ _ (by simpa using hb), List.length_append]
      simp [setFd, h.fds]

/-- What is written, and where, determines the files and the descriptors. -/
theorem WriteTo.same (h : WriteTo s t p i k src) (h' : WriteTo s t' p i k src) :
    t.cache = t'.cache ∧ t.fds = t'.fds ∧ ∀ j, TmpfsFile.Same (t.files j) (t'.files j) := by
  have hcontent := h.content.trans h'.content.symm
  refine ⟨h.cache.trans h'.cache.symm, ?_, fun j => ?_⟩
  · have hsize : (t.files k).size = (t'.files k).size := by
      rw [← TmpfsFile.length_content, hcontent, TmpfsFile.length_content]
    rw [h.fds, h'.fds, hsize]
  · by_cases hj : j = k
    · subst hj
      exact ⟨h.inUse.trans h'.inUse.symm, h.name.trans h'.name.symm, hcontent,
        h.capacity.trans h'.capacity.symm⟩
    · rw [h.others j hj, h'.others j hj]
      exact .refl _

end Vfs

end GenOS
