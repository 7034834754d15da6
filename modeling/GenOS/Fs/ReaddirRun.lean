import GenOS.Fs.Readdir

/-!
# A directory is listed as a whole

While a task lists `/`, files come and go. Each call of `vfs_readdir` moves the cursor behind the
file it returns, so every plain file of the archive is listed once, in order, and then every slot
that stays in use. This holds as long as the cursor, which ends 32 behind the number of entries, is
in the range of `int`.
-/

namespace GenOS.Vfs

open Tar

variable {m : TarMem} {archive fuel p i c : Nat} {es : List TarEntry} {s t : Vfs}

/-! ## A call -/

theorem tarEntryCount_eq (h : Archive m archive es) (ha : archive ≠ 0) (hn : es.length < 4294967296)
    (hf : es.length < fuel) : tarEntryCount m archive fuel = some (counter es.length) := by
  have hlen := length_headers archive es
  have hget : ∀ c < 4294967296, (tarGetEntry m archive fuel (counter c)).map Option.isSome
      = some (decide (c < es.length)) := by
    intro c hc
    have hloop := h.trail.getEntryLoop (show (headers archive es).length < fuel by omega) hc 0
    rw [Nat.zero_add] at hloop
    rw [tarGetEntry, if_neg ha]
    refine (congrArg (Option.map Option.isSome) hloop).trans ?_
    rw [Option.map_some, Option.isSome_map, Option.some.injEq, Bool.eq_iff_iff, decide_eq_true_iff,
      isSome_getElem?, hlen]
  have hcount := countLoop_eq hn hget (Nat.zero_le _) hf
  rwa [counter_of_lt (by decide)] at hcount

/-- The descriptor `i` of the task `p` lists a directory, and the cursor is at `c`. -/
structure ListsAt (s : Vfs) (p i c : Nat) : Prop where
  fd : i < vfsMaxFds
  type : (s.fds p i).type = .dir
  offset : (s.fds p i).offset = c

theorem ListsAt.move (h : ListsAt s p i c) (offset : Nat) :
    ListsAt (s.setFd p i { s.fds p i with offset }) p i offset := by
  constructor
  · exact h.fd
  · simp only [Vfs.setFd, Function.update_self, h.type]
  · simp only [Vfs.setFd, Function.update_self]

/-- A call returns the next plain file of the archive, or the next slot in use, or the end. -/
theorem vfsReaddir_cases (h : Archive m archive es) (ha : archive ≠ 0)
    (hname : ∀ e ∈ es, e.name.length ≤ 99) (hn : es.length + 32 < 2147483648)
    (hf : es.length + 32 < fuel) (hs : ListsAt s p i c) (hc : c ≤ es.length + 32) :
    (∃ k e, c ≤ k ∧ k < es.length ∧ plainFiles (es.drop c) = e :: plainFiles (es.drop (k + 1)) ∧
      vfsReaddir m archive fuel s p i
        = some (s.setFd p i { s.fds p i with offset := k + 1 }, some (e.name, e.size))) ∨
    (plainFiles (es.drop c) = [] ∧ ∃ j e, c - es.length ≤ j ∧ j < 32 ∧
      (∀ k, c - es.length ≤ k → k < j → (s.files k).inUse = false) ∧
      s.files.tmpfsGetEntry j = some e ∧
      vfsReaddir m archive fuel s p i
        = some (s.setFd p i { s.fds p i with offset := es.length + j + 1 }, some e)) ∨
    (plainFiles (es.drop c) = [] ∧
      (∀ k, c - es.length ≤ k → k < 32 → (s.files k).inUse = false) ∧
      ∃ t, vfsReaddir m archive fuel s p i = some (t, none)) := by
  have hfd : ¬ ((i : Int) < 0 ∨ (vfsMaxFds : Int) ≤ i) := by
    have := hs.fd
    omega
  have hdir : ¬ (s.fds p i).type ≠ .dir := not_not_intro hs.type
  unfold vfsReaddir
  rw [if_neg hfd, Int.toNat_natCast, tarEntryCount_eq h ha (by omega) (by omega),
    counter_of_lt (by omega)]
  dsimp only
  rw [if_neg hdir, hs.offset, toInt32_mod (by omega)]
  have hget : ∀ c : Nat, c < 2147483648 →
      tarGetEntry m archive fuel c = some (es[c]?.map fun e => (e.name, e.size)) := fun c hc =>
    h.tarGetEntry ha (by omega) hname hc
  rcases readdirTar_cases (by omega) hname hget (show es.length - c < fuel by omega) with
    ⟨k, e, h1, h2, h3, h4⟩ | ⟨h1, h2⟩
  · rw [h4]
    exact .inl ⟨k, e, h1, h2, h3, rfl⟩
  · refine .inr ?_
    have hcur : (((max c es.length : Nat) : Int) - es.length).bmod 4294967296
        = (c - es.length : Nat) := by
      rw [show ((max c es.length : Nat) : Int) - es.length = (c - es.length : Nat) by omega]
      exact counter_of_lt (by omega)
    rw [h2]
    dsimp only
    rw [hcur]
    rcases readdirTmpfs_cases s.files (j := c - es.length) (c := max c es.length) (by omega)
        (by omega) (show 32 - (c - es.length) < fuel by omega) with ⟨j, e, h3, h4, h5, h6, h7⟩ |
        ⟨h3, h4⟩
    · refine .inl ⟨h1, j, e, h3, h4, h5, h6, ?_⟩
      rw [h7, show max c es.length + (j - (c - es.length)) = es.length + j by omega]
    · refine .inr ⟨h1, h3, ?_⟩
      rw [h4]
      exact ⟨_, rfl⟩

/-! ## A listing -/

/-- A call that a task makes while another task lists the directory. -/
inductive DirCall where
  | create (filename : List UInt8) (alloc : HeapBlockBytes)
  | unlink (filename : List UInt8)

def DirCall.exec (s : Vfs) : DirCall → Vfs
  | .create filename alloc => (s.vfsCreate filename alloc).1
  | .unlink filename => (s.vfsUnlink filename).1

/-- A call of `vfs_readdir` that returned 1: the files at the call, and what it stored. -/
structure Listed where
  files : Tmpfs
  entry : List UInt8 × Nat

/-- Calls of `vfs_readdir` until one returns 0; the calls `others k` come before the `k`-th of them.
The last part of the result are the files at the call that returns 0. -/
def listing (m : TarMem) (archive fuel p : Nat) (fd : Int) :
    (rounds : Nat) → (others : Nat → List DirCall) → Vfs → Option (List Listed × Tmpfs)
  | 0, _, _ => none
  | rounds + 1, others, s =>
    let s := (others 0).foldl DirCall.exec s
    match vfsReaddir m archive fuel s p fd with
    | none => none
    | some (_, none) => some ([], s.files)
    | some (t, some entry) =>
      (listing m archive fuel p fd rounds (fun k => others (k + 1)) t).map fun r =>
        (⟨s.files, entry⟩ :: r.1, r.2)

/-- The plain files of `es` are listed in order, then slots of `tmpfs` from `start` on, each of them
once and in use at the call; a slot that is in use at every call is among them. -/
def Complete (es : List TarEntry) (start : Nat) (r : List Listed × Tmpfs) : Prop :=
  ∃ tar slots mem, r.1 = tar ++ mem ∧
    tar.map Listed.entry = (plainFiles es).map (fun e => (e.name, e.size)) ∧
    slots.Pairwise (· < ·) ∧ (∀ j ∈ slots, start ≤ j) ∧
    List.Forall₂ (fun j l => l.files.tmpfsGetEntry j = some l.entry) slots mem ∧
    ∀ j, start ≤ j → j < tmpfsMaxFiles → (∀ l ∈ r.1, (l.files j).inUse = true) →
      (r.2 j).inUse = true → j ∈ slots

theorem Complete.tar {e : TarEntry} {es' : List TarEntry} {start : Nat} {files : Tmpfs}
    {r : List Listed × Tmpfs} (h : Complete es' start r)
    (hes : plainFiles es = e :: plainFiles es') :
    Complete es start (⟨files, (e.name, e.size)⟩ :: r.1, r.2) := by
  obtain ⟨tar, slots, mem, h1, h2, h3, h4, h5, h6⟩ := h
  refine ⟨⟨files, (e.name, e.size)⟩ :: tar, slots, mem, ?_, ?_, h3, h4, h5, ?_⟩
  · rw [h1, List.cons_append]
  · rw [List.map_cons, h2, hes, List.map_cons]
  · exact fun j hj hlt hall hlast =>
      h6 j hj hlt (fun l hl => hall l (List.mem_cons_of_mem _ hl)) hlast

theorem Complete.slot {es' : List TarEntry} {start j : Nat} {l : Listed}
    {r : List Listed × Tmpfs} (h : Complete es' (j + 1) r) (hes' : plainFiles es' = [])
    (hes : plainFiles es = []) (hj : start ≤ j)
    (hfree : ∀ k, start ≤ k → k < j → (l.files k).inUse = false)
    (hl : l.files.tmpfsGetEntry j = some l.entry) :
    Complete es start (l :: r.1, r.2) := by
  obtain ⟨tar, slots, mem, h1, h2, h3, h4, h5, h6⟩ := h
  obtain rfl : tar = [] := by
    rw [hes'] at h2
    exact List.map_eq_nil_iff.mp h2
  refine ⟨[], j :: slots, l :: mem, ?_, ?_, ?_, ?_, .cons hl h5, ?_⟩
  · rw [h1]
    rfl
  · rw [hes]
    rfl
  · exact List.pairwise_cons.mpr ⟨fun k hk => h4 k hk, h3⟩
  · intro k hk
    rcases List.mem_cons.mp hk with rfl | hk
    · exact hj
    · exact Nat.le_trans hj (Nat.le_of_succ_le (h4 k hk))
  · intro k hk hlt hall hlast
    rcases Nat.lt_trichotomy k j with hkj | rfl | hkj
    · exact absurd (hall l List.mem_cons_self) (by rw [hfree k hk hkj]; exact nofun)
    · exact List.mem_cons_self
    · exact List.mem_cons_of_mem j
        (h6 k hkj hlt (fun l hl => hall l (List.mem_cons_of_mem _ hl)) hlast)

theorem complete_nil {start : Nat} {files : Tmpfs} (hes : plainFiles es = [])
    (hfree : ∀ k, start ≤ k → k < 32 → (files k).inUse = false) :
    Complete es start ([], files) := by
  refine ⟨[], [], [], rfl, ?_, .nil, nofun, .nil, ?_⟩
  · rw [hes]
    rfl
  · exact fun j hj hlt _ hlast => absurd hlast (by rw [hfree j hj hlt]; exact nofun)

theorem fds_foldl (calls : List DirCall) (s : Vfs) : (calls.foldl DirCall.exec s).fds = s.fds := by
  induction calls generalizing s with
  | nil => rfl
  | cons call calls ih =>
    rw [List.foldl_cons, ih]
    cases call <;> rfl

theorem ListsAt.foldl (h : ListsAt s p i c) (calls : List DirCall) :
    ListsAt (calls.foldl DirCall.exec s) p i c := by
  constructor
  · exact h.fd
  · rw [fds_foldl, h.type]
  · rw [fds_foldl, h.offset]

/-- The cursor goes forward at every call that returns 1. -/
theorem listing_complete (h : Archive m archive es) (ha : archive ≠ 0)
    (hname : ∀ e ∈ es, e.name.length ≤ 99) (hn : es.length + 32 < 2147483648)
    (hf : es.length + 32 < fuel) {rounds : Nat} (others : Nat → List DirCall)
    (hs : ListsAt s p i c) (hc : c ≤ es.length + 32) (hr : es.length + 32 - c < rounds) :
    ∃ r, listing m archive fuel p i rounds others s = some r ∧
      Complete (es.drop c) (c - es.length) r := by
  induction rounds generalizing c s others with
  | zero => omega
  | succ rounds ih =>
    have hs' := hs.foldl (others 0)
    unfold listing
    dsimp only
    generalize (others 0).foldl DirCall.exec s = s' at hs' ⊢
    rcases vfsReaddir_cases h ha hname hn hf hs' hc with
      ⟨k, e, h1, h2, h3, h4⟩ | ⟨h1, j, e, h2, h3, h4, h5, h6⟩ | ⟨h1, h2, t, h3⟩
    · have hnext := hs'.move (k + 1)
      obtain ⟨r, hr, hcomp⟩ := ih (fun k => others (k + 1)) hnext (by omega) (by omega)
      rw [Nat.sub_eq_zero_of_le (by omega)] at hcomp
      rw [h4, Nat.sub_eq_zero_of_le (by omega)]
      dsimp only
      rw [hr]
      exact ⟨_, rfl, hcomp.tar h3⟩
    · have hnext := hs'.move (es.length + j + 1)
      obtain ⟨r, hr, hcomp⟩ := ih (fun k => others (k + 1)) hnext (by omega) (by omega)
      rw [show es.length + j + 1 - es.length = j + 1 by omega] at hcomp
      rw [h6]
      dsimp only
      rw [hr]
      exact ⟨_, rfl, hcomp.slot (plainFiles_drop_of_le (by omega)) h1 h2 h4 h5⟩
    · rw [h3]
      exact ⟨_, rfl, complete_nil h1 h2⟩

theorem ListsAt.vfsOpen {tar : TarRead} {flags : BitVec 32} {alloc : HeapBlockBytes}
    (h : s.vfsOpen tar p [47] flags alloc = (t, some i)) : ListsAt t p i 0 := by
  unfold Vfs.vfsOpen install at h
  rw [if_pos rfl] at h
  split at h
  · next k hk =>
    obtain ⟨rfl, hi⟩ := Prod.mk.inj h
    obtain rfl : k = i := Option.some.inj hi
    have hlt : k < vfsMaxFds := List.mem_range.mp (List.mem_of_find?_eq_some hk)
    constructor
    · exact hlt
    · simp only [Vfs.setFd, Function.update_self]
    · simp only [Vfs.setFd, Function.update_self]
  · exact absurd (Prod.mk.inj h).2 nofun

/-- Listing `/` with a new descriptor ends and is complete, whatever files are created and unlinked
between the calls. -/
theorem readdir_complete {tar : TarRead} {flags : BitVec 32} {alloc : HeapBlockBytes}
    (h : Archive m archive es) (ha : archive ≠ 0) (hname : ∀ e ∈ es, e.name.length ≤ 99)
    (hn : es.length + 32 < 2147483648) (hf : es.length + 32 < fuel)
    (hopen : s.vfsOpen tar p [47] flags alloc = (t, some i)) (others : Nat → List DirCall) :
    ∃ rounds r, listing m archive fuel p i rounds others t = some r ∧ Complete es 0 r := by
  obtain ⟨r, hr, hcomp⟩ := listing_complete h ha hname hn hf others (ListsAt.vfsOpen hopen)
    (Nat.zero_le _) (Nat.lt_succ_self _)
  rw [List.drop_zero, Nat.zero_sub] at hcomp
  exact ⟨_, r, hr, hcomp⟩

/-- While `/` is listed, another task creates `b` and unlinks it again. -/
theorem readdir_complete_short : ∃ rounds r,
    listing shortFile 4096 34 0 0 rounds
        (fun k => if k = 0 then [.create [98] (some fun _ => 0)] else [.unlink [98]])
        (Vfs.init.vfsOpen (fun _ => none) 0 [47] 0 none).1 = some r ∧
      Complete [shortName] 0 r :=
  readdir_complete archive_shortFile (by decide) (by decide) (by decide) (by decide)
    (i := 0) (Prod.ext rfl (by decide)) _

/-! ## Too many files -/

/-- An archive of `n` empty files. -/
def manyFiles (n : Nat) : TarMem := fun p =>
  if 4096 ≤ p ∧ p < 4096 + 512 * n then shortFile (4096 + (p - 4096) % 512) else 0

theorem manyFiles_apply {n k b : Nat} (hk : k < n) (hb : b < 512) :
    manyFiles n (4096 + 512 * k + b) = shortFile (4096 + b) := by
  rw [manyFiles, if_pos (by omega), show (4096 + 512 * k + b - 4096) % 512 = b by omega]

theorem archive_manyFiles {n : Nat} (hn : 4096 + 512 * n < 18446744073709551616) {k l : Nat}
    (hl : k + l = n) :
    Archive (manyFiles n) (4096 + 512 * k) (List.replicate l shortName) := by
  induction l generalizing k with
  | zero => exact if_neg (by omega)
  | succ l ih =>
    have hspan : 4096 + 512 * k + shortName.span = 4096 + 512 * (k + 1) := by
      rw [show shortName.span = 512 from rfl]
      omega
    have hh := archive_shortFile.1
    rw [List.replicate_succ, Archive, hspan]
    refine ⟨⟨fun i hi => ?_, ?_, fun i hi => ?_⟩, by omega, ih (by omega)⟩
    · rw [manyFiles_apply (by omega) (by omega)]
      exact hh.filename i hi
    · rw [manyFiles_apply (by omega) (by omega)]
      exact hh.mode
    · rw [Nat.add_assoc, manyFiles_apply (by omega) (by omega), ← Nat.add_assoc]
      exact hh.size i hi

theorem sub_counter_of_gt {n : Nat} (h : 2147483648 < n) (hn : n < 4294967296) :
    counter n < 0 ∧ (0 - counter n).bmod 4294967296 = 4294967296 - n := by
  have hcount : counter n = n - 4294967296 := by
    unfold counter
    rw [Int.bmod_def]
    split <;> omega
  rw [hcount, Int.bmod_def]
  split <;> omega

theorem readdirTar_of_le {tarCount cursor : Int} (h : tarCount ≤ cursor) (hf : 0 < fuel)
    (walk offset : Nat) :
    readdirTar m archive walk tarCount fuel cursor offset = some ⟨cursor, offset, none⟩ := by
  obtain ⟨fuel, rfl⟩ := Nat.exists_eq_succ_of_ne_zero (Nat.ne_of_gt hf)
  exact if_neg (not_lt.mpr h)

theorem readdirTmpfs_of_le {tmpfsCursor : Int} (h : 32 ≤ tmpfsCursor) (hf : 0 < fuel)
    (files : Tmpfs) (cursor : Int) (offset : Nat) :
    readdirTmpfs files fuel tmpfsCursor cursor offset = some ⟨cursor, offset, none⟩ := by
  obtain ⟨fuel, rfl⟩ := Nat.exists_eq_succ_of_ne_zero (Nat.ne_of_gt hf)
  exact if_neg (not_lt.mpr h)

/-- The count wraps, and 0 is already behind the last slot. -/
theorem vfsReaddir_wraps (h : Archive m archive es) (ha : archive ≠ 0)
    (hn : 2147483648 < es.length) (hn' : es.length ≤ 4294967264) (hf : es.length < fuel)
    (hs : ListsAt s p i 0) : ∃ t, vfsReaddir m archive fuel s p i = some (t, none) := by
  obtain ⟨hneg, hcur⟩ := sub_counter_of_gt hn (by omega)
  have hfd : ¬ ((i : Int) < 0 ∨ (vfsMaxFds : Int) ≤ i) := by
    have := hs.fd
    omega
  unfold vfsReaddir
  rw [if_neg hfd, Int.toNat_natCast, tarEntryCount_eq h ha (by omega) hf]
  dsimp only
  rw [if_neg (not_not_intro hs.type), hs.offset, toInt32_mod (by decide), Nat.cast_zero,
    readdirTar_of_le (Int.le_of_lt hneg) (by omega)]
  dsimp only
  rw [hcur, readdirTmpfs_of_le (by omega) (by omega)]
  exact ⟨_, rfl⟩

/-- Of an archive with 2147483649 files none is listed. -/
theorem readdir_wraps :
    Archive (manyFiles 2147483649) 4096 (List.replicate 2147483649 shortName) ∧
      ∀ fuel > 2147483649, ¬ ∃ rounds r,
        listing (manyFiles 2147483649) 4096 fuel 0 0 rounds (fun _ => [])
            (Vfs.init.vfsOpen (fun _ => none) 0 [47] 0 none).1 = some r ∧
          Complete (List.replicate 2147483649 shortName) 0 r := by
  generalize hn : (2147483649 : Nat) = n
  have harch : Archive (manyFiles n) 4096 (List.replicate n shortName) :=
    archive_manyFiles (k := 0) (by omega) (Nat.zero_add n)
  refine ⟨harch, fun fuel hf => ?_⟩
  rintro ⟨rounds, r, hr, tar, slots, mem, h1, h2, -⟩
  have hs : ListsAt (Vfs.init.vfsOpen (fun _ => none) 0 [47] 0 none).1 0 0 0 :=
    ListsAt.vfsOpen (Prod.ext rfl (by decide))
  generalize (Vfs.init.vfsOpen (fun _ => none) 0 [47] 0 none).1 = s at hr hs
  have hlen : (List.replicate n shortName).length = n := List.length_replicate
  have hf' : (List.replicate n shortName).length < fuel := by omega
  obtain ⟨t, ht⟩ := vfsReaddir_wraps harch (by decide) (by omega) (by omega) hf' hs
  obtain rfl : r = ([], s.files) := by
    cases rounds with
    | zero => exact absurd hr nofun
    | succ rounds =>
      unfold listing at hr
      dsimp only [List.foldl_nil] at hr
      rw [show ((0 : Int)) = ((0 : Nat) : Int) from rfl, ht] at hr
      exact (Option.some.inj hr).symm
  obtain ⟨rfl, -⟩ := List.append_eq_nil_iff.mp h1.symm
  have hplain : plainFiles (List.replicate n shortName) = List.replicate n shortName :=
    List.filter_eq_self.mpr fun e he => by
      rw [(List.mem_replicate.mp he).2]
      decide
  have hzero := congrArg List.length h2
  rw [hplain, List.length_map, List.length_map, hlen, List.length_nil] at hzero
  omega

end GenOS.Vfs
