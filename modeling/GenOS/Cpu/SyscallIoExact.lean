import GenOS.Cpu.SyscallIoRun
import GenOS.Fs.Readdir
import GenOS.Fs.VfsCoherence

/-!
# One transfer

`sys_user_read` and `sys_user_write` have the effect of one `vfs_read` or `vfs_write` of the bytes
they report (`ReadExact`, `WriteExact`). A write always does; a read may end before the file does,
where `vfs_read` finds an end that is not the file's.
-/

namespace GenOS

variable {s : Vfs} {w : IoWorld} {p userBuf count d m : Nat} {fd : Int} {tar : TarRead}
  {user : Nat → UserSpace}

namespace IoWorld

/-- User memory at the copies of a read, and at those of a write. -/
def readSpace (w : IoWorld) (userBuf count : Nat) : Nat → UserSpace :=
  w.later (w.start.userWritePrepare w.readPte userBuf count).2

def writeSpace (w : IoWorld) : Nat → UserSpace := w.later w.start

/-- A read gets to its loop. -/
def Prepared (w : IoWorld) (userBuf count : Nat) : Prop :=
  count ≤ 2147483647 ∧ (w.start.userWritePrepare w.readPte userBuf count).1 = 0

theorem Prepared.ne_zero (h : w.Prepared userBuf count) (hc : count ≠ 0) : userBuf ≠ 0 := by
  have hst := h.2
  unfold UserSpace.userWritePrepare at hst
  split at hst
  · exact absurd hst nofun
  · next hok =>
    have hok' : w.start.phys.userAccessOk w.start.root userBuf count true =
      true := by simpa using hok
    exact ((Phys.userAccessOk_iff hc w.start.root_ne).mp hok').1

end IoWorld

namespace Vfs

/-- A read had the effect of one `vfs_read` of what it returns, it returns less than was asked for
only at the end of the file or where user memory may not be stored to, and an error changes neither
files nor descriptors. The offset is behind the bytes that were delivered. -/
structure ReadExact (w : IoWorld) (s : Vfs) (p : Nat) (fd : Int) (userBuf count : Nat) : Prop where
  once : ∀ n : Nat, (s.sysUserRead w p fd userBuf count).2.1 = n →
    ∃ t bytes, s.vfsRead p fd n = (t, (n : Int), bytes) ∧
      (s.sysUserRead w p fd userBuf count).1.files = t.files ∧
      (s.sysUserRead w p fd userBuf count).1.fds = t.fds ∧
      (s.sysUserRead w p fd userBuf count).2.2.take n = storesAt userBuf bytes ∧
      ∀ x ∈ (s.sysUserRead w p fd userBuf count).2.2.drop n,
        userBuf + n ≤ x.1 ∧ x.1 < userBuf + count
  short : ∀ n : Nat, (s.sysUserRead w p fd userBuf count).2.1 = n → n < count →
    (s.fds p fd.toNat).fileSize s.files ≤ (s.fds p fd.toNat).offset + n ∨
      (n % 1024 = 0 ∧ Blocked (w.readSpace userBuf count) userBuf count n)
  error : (s.sysUserRead w p fd userBuf count).2.1 < 0 →
    (s.sysUserRead w p fd userBuf count).2.1 = -1 ∧
      (s.sysUserRead w p fd userBuf count).1.files = s.files ∧
      (s.sysUserRead w p fd userBuf count).1.fds = s.fds
  offset : ((s.sysUserRead w p fd userBuf count).1.fds p fd.toNat).offset =
    (s.fds p fd.toNat).offset + (s.sysUserRead w p fd userBuf count).2.1.toNat

/-- The same for a write. It ends early only at the size limit, where the buffer cannot grow, or
where user memory may not be loaded. -/
structure WriteExact (w : IoWorld) (s : Vfs) (p : Nat) (fd : Int) (userBuf count : Nat) : Prop where
  once : ∀ n : Nat, (s.sysUserWrite w p fd userBuf count).2 = n →
    ∃ src alloc t, src.length = n ∧ Loaded w.writeSpace userBuf src ∧
      s.vfsWrite p fd src alloc = (t, (n : Int)) ∧
      (s.sysUserWrite w p fd userBuf count).1.cache = t.cache ∧
      (s.sysUserWrite w p fd userBuf count).1.fds = t.fds ∧
      ∀ j, TmpfsFile.Same ((s.sysUserWrite w p fd userBuf count).1.files j) (t.files j)
  short : ∀ n : Nat, (s.sysUserWrite w p fd userBuf count).2 = n → n < count →
    tmpfsMaxSize ≤ (s.fds p fd.toNat).offset + n ∨
      (∃ k, (s.fds p fd.toNat).tmpfsIdx = some k ∧ w.alloc n = none ∧
        ((s.sysUserWrite w p fd userBuf count).1.files k).capacity <
          (s.fds p fd.toNat).offset + min (n + 1024) count) ∨
      Unreadable w.writeSpace userBuf count n
  error : (s.sysUserWrite w p fd userBuf count).2 < 0 →
    s.sysUserWrite w p fd userBuf count = (s, -1)
  offset : ((s.sysUserWrite w p fd userBuf count).1.fds p fd.toNat).offset =
    (s.fds p fd.toNat).offset + (s.sysUserWrite w p fd userBuf count).2.toNat

/-! ## Reads -/

/-- A read fails at once, or is a run of its loop. -/
theorem sysUserRead_cases (h : s.Ready) (w : IoWorld) (p : Nat) (fd : Int) (userBuf count : Nat) :
    ((s.sysUserRead w p fd userBuf count).2.1 = -1 ∧
        (s.sysUserRead w p fd userBuf count).1.files = s.files ∧
        (s.sysUserRead w p fd userBuf count).1.fds = s.fds ∧
        (s.sysUserRead w p fd userBuf count).1.Ready ∧
        ¬ (w.Prepared userBuf count ∧ 0 ≤ (s.vfsRead p fd 0).2.1)) ∨
      (w.Prepared userBuf count ∧ ∃ m, ReadRun (w.readSpace userBuf count) s p fd userBuf count 0
        (s.sysUserRead w p fd userBuf count) m) := by
  by_cases hp : w.Prepared userBuf count
  · have hpos := hp.ne_zero
    obtain ⟨hc, hst⟩ := hp
    have heq : s.sysUserRead w p fd userBuf count =
        s.readLoop (w.readSpace userBuf count) p fd userBuf count (count / 1024 + 1) 0 := by
      unfold sysUserRead
      rw [if_neg (Nat.not_lt.mpr hc)]
      dsimp only
      rw [hst]
      rfl
    rw [heq]
    by_cases hread : 0 ≤ (s.vfsRead p fd 0).2.1
    · exact .inr ⟨⟨hc, hst⟩, readLoop_spec _ h hpos (by omega) (.start h hread) rfl
        (Nat.zero_le _) (by omega)⟩
    · -- the descriptor cannot be read
      left
      have hneg : (s.vfsRead p fd (min count 1024)).2.1 < 0 := by
        by_contra hn
        obtain ⟨-, -, -, -, hz⟩ := vfsRead_to h (by omega) (Int.not_lt.mp hn)
        exact hread (by rw [hz])
      obtain ⟨h1, h2, h3⟩ := vfsRead_error h hneg
      have hr := h.vfsRead p fd (min count 1024)
      unfold readLoop
      dsimp only
      split
      · exact ⟨rfl, rfl, rfl, h, fun hc => hread hc.2⟩
      · rw [Nat.sub_zero, if_pos hneg]
        exact ⟨rfl, h1, h2, hr, fun hc => hread hc.2⟩
  · left
    have hno : ¬ (w.Prepared userBuf count ∧ 0 ≤ (s.vfsRead p fd 0).2.1) := fun hc => hp hc.1
    unfold sysUserRead
    split
    · exact ⟨rfl, rfl, rfl, h, hno⟩
    · next hc =>
      dsimp only
      rw [if_pos fun hst => hp ⟨Nat.not_lt.mp hc, hst⟩]
      exact ⟨rfl, rfl, rfl, h, hno⟩

/-- What a read relies on: where it would stop before the end of the file, and no sooner, user
memory has stopped it before. -/
def ReadHolds (w : IoWorld) (s : Vfs) (p : Nat) (fd : Int) (userBuf count : Nat) : Prop :=
  w.Prepared userBuf count → s.Opened p fd → ∀ m < count, s.EndsEarly p fd m →
    (∀ d < m, ¬ s.EndsEarly p fd d) → Delivered (w.readSpace userBuf count) userBuf count m →
      (s.fds p fd.toNat).fileSize s.files ≤ (s.fds p fd.toNat).offset + m

/-- A full read of an archive file comes to no block that ends early. -/
theorem vfsRead_whole (h : s.Ready) (ho : s.Opened p fd) (hi : (s.fds p fd.toNat).tmpfsIdx = none)
    {n : Nat} (hn : n < 2147483648) (honce : (s.vfsRead p fd n).2.1 = n) (hd : d < n) :
    ¬ s.EndsEarly p fd d := by
  intro he
  obtain ⟨src, hdata, hcut⟩ : ∃ src, (s.fds p fd.toNat).data = some src ∧ _ := by
    unfold EndsEarly at he
    rwa [hi] at he
  have hend := hcut.1
  dsimp only at hend
  rw [(vfsRead_fetch ho (by omega) n).1] at honce
  unfold VfsFd.fetch at honce
  rw [hi, hdata] at honce
  exact (h.tagged.read_cut _ _ hn honce).1 d hd hcut

/-- A read has not stopped early before. -/
theorem ReadRun.not_early (h : s.Ready) {r : Vfs × Int × List (Nat × UInt8)}
    (hr : ReadRun user s p fd userBuf count 0 r m) (ho : s.Opened p fd) (hc : count < 2147483648)
    (hd : d < m) : ¬ s.EndsEarly p fd d := by
  have hle := hr.le
  cases hi : (s.fds p fd.toNat).tmpfsIdx with
  | none => exact vfsRead_whole h ho hi (by omega) hr.once hd
  | some k =>
    intro he
    obtain ⟨hmod, hend⟩ := (endsEarly_some hi).mp he
    exact absurd (hr.before d (Nat.zero_le d) hd hmod) (Nat.not_lt.mpr hend)

theorem ReadRun.opened (h : s.Ready) {r : Vfs × Int × List (Nat × UInt8)}
    (hr : ReadRun user s p fd userBuf count 0 r m) (hc : count < 2147483648) : s.Opened p fd :=
  (vfsRead_to h (show m < 2147483648 by have := hr.le; omega) (by rw [hr.once]; omega)).1

/-- A run that ends early only where the file does is one read. -/
theorem ReadRun.exact (h : s.Ready) (hp : w.Prepared userBuf count)
    (hr : ReadRun (w.readSpace userBuf count) s p fd userBuf count 0
      (s.sysUserRead w p fd userBuf count) m)
    (hearly : m < count → s.EndsEarly p fd m →
      (s.fds p fd.toNat).fileSize s.files ≤ (s.fds p fd.toNat).offset + m ∨
        (m % 1024 = 0 ∧ Blocked (w.readSpace userBuf count) userBuf count m)) :
    ReadExact w s p fd userBuf count := by
  have hlt : m < 2147483648 := by
    have := hr.le
    have := hp.1
    omega
  obtain ⟨-, hlen, -, hto, -⟩ := vfsRead_to h hlt (show 0 ≤ (s.vfsRead p fd m).2.1 by
    rw [hr.once]; omega)
  have honce := hr.once
  have hlen' : (s.vfsRead p fd m).2.2.length = m := by omega
  have hone : ∀ n : Nat, (s.sysUserRead w p fd userBuf count).2.1 = n → n = m := by
    intro n hn
    rcases hr.result with hm | ⟨-, hm, -⟩ <;> omega
  have hnat : (s.sysUserRead w p fd userBuf count).2.1.toNat = m := by
    rcases hr.result with hm | ⟨rfl, hm, -⟩
    · omega
    · rw [hm]
      rfl
  refine ⟨fun n hn => ?_, fun n hn hlt' => ?_, fun hn => ?_, ?_⟩
  · obtain rfl := hone n hn
    refine ⟨_, _, Prod.ext rfl (Prod.ext hr.once rfl), hr.files.trans hto.files.symm, ?_, ?_, ?_⟩
    · rw [hr.fds, hto.fds, hlen']
    · exact hr.stores
    · exact hr.rest
  · obtain rfl := hone n hn
    rcases hr.short hlt' with hsize | hf | he
    · exact .inl hsize
    · exact .inr ⟨hf.1, hf.blocked⟩
    · exact hearly hlt' he
  · rcases hr.result with hm | ⟨rfl, hm, -⟩
    · omega
    · refine ⟨hm, hr.files, ?_⟩
      rw [hr.fds, Nat.add_zero, moveTo_self]
  · rw [hnat, hr.fds, moveTo_fd]

/-- Under the condition a read is exact. -/
theorem sysUserRead_exact (h : s.Ready) (hold : ReadHolds w s p fd userBuf count) :
    ReadExact w s p fd userBuf count := by
  rcases sysUserRead_cases h w p fd userBuf count with ⟨h1, h2, h3, -⟩ | ⟨hp, m, hr⟩
  · refine ⟨fun n hn => ?_, fun n hn => ?_, fun _ => ⟨h1, h2, h3⟩, ?_⟩
    · omega
    · omega
    · rw [h3, h1]
      rfl
  · have hc : count < 2147483648 := Nat.lt_succ_of_le hp.1
    have ho := hr.opened h hc
    refine hr.exact h hp fun hlt he => ?_
    by_contra hno
    obtain ⟨hsize, hfree⟩ := not_or.mp hno
    have hdel : Delivered (w.readSpace userBuf count) userBuf count m :=
      ⟨fun i hi => hr.delivered i (Nat.zero_le i) hi, fun hm hb => hfree ⟨hm, hb⟩⟩
    exact hsize (hold hp ho m hlt he (fun d hd => hr.not_early h ho hc hd) hdel)

/-- A read whose copies succeed up to where it ends early stops there. -/
theorem ReadRun.eq_of_early (h : s.Ready) {r : Vfs × Int × List (Nat × UInt8)}
    (hr : ReadRun user s p fd userBuf count 0 r m) (ho : s.Opened p fd) (hc : count < 2147483648)
    (hd : d < count) (he : s.EndsEarly p fd d) (hfirst : ∀ d' < d, ¬ s.EndsEarly p fd d')
    (hdel : Delivered user userBuf count d)
    (hsize : (s.fds p fd.toNat).offset + d < (s.fds p fd.toNat).fileSize s.files) :
    m = d ∧ r.2.1 = m := by
  have hmd : m ≤ d := Nat.not_lt.mp fun hlt => hr.not_early h ho hc hlt he
  -- no copy has failed
  have hcopies : ∀ e ≤ d, ¬ CopyFails user s p fd userBuf count e := by
    rintro e hle hf
    rcases Nat.lt_or_eq_of_le hle with hlt | rfl
    · obtain ⟨hmod, n, hn, hcount, honce, i, hi, hno⟩ := hf
      refine hno ?_
      have hin : e + i < d := by
        cases hidx : (s.fds p fd.toNat).tmpfsIdx with
        | none =>
          have hwhole : ¬ d < e + n := fun hlt' =>
            vfsRead_whole h ho hidx (show e + n < 2147483648 by omega) honce hlt' he
          omega
        | some k =>
          have := ((endsEarly_some hidx).mp he).1
          omega
      have hstore := hdel.1 (e + i) hin
      rwa [show (e + i) / 1024 * 1024 = e by omega] at hstore
    · exact hdel.2 hf.1 hf.blocked
  refine ⟨?_, ?_⟩
  · by_contra hne
    rcases hr.short (by omega) with hs | hf | he'
    · omega
    · exact hcopies m hmd hf
    · exact hfirst m (by omega) he'
  · rcases hr.result with hm | ⟨-, -, hf⟩
    · exact hm
    · exact absurd hf (hcopies 0 (Nat.zero_le d))

/-- A descriptor before the end of its file can be read. -/
theorem vfsRead_nonneg (h : s.Ready) (ho : s.Opened p fd)
    (hdata : (s.fds p fd.toNat).tmpfsIdx = none → ∃ src, (s.fds p fd.toNat).data = some src)
    (hsize : (s.fds p fd.toNat).offset + d < (s.fds p fd.toNat).fileSize s.files) :
    0 ≤ (s.vfsRead p fd 0).2.1 := by
  rw [vfsRead_eq ho]
  split
  · exact Int.le_refl 0
  · cases hi : (s.fds p fd.toNat).tmpfsIdx with
    | none =>
      obtain ⟨src, hsrc⟩ := hdata hi
      unfold VfsFd.fetch
      rw [hi, hsrc]
      dsimp only
      rw [Cache.cacheRead_zero]
    | some k =>
      rw [VfsFd.fileSize_some hi] at hsize
      have huse : (s.files k).inUse = true := by
        by_contra hu
        have := h.clean.empty k (by simpa using hu)
        omega
      rw [VfsFd.fetch_tmpfs h.clean hi ((h.inRange p fd.toNat).slot k ho.file hi) huse]
      exact Int.natCast_nonneg _

/-- A read is exact only under the condition. -/
theorem sysUserRead_holds (h : s.Ready) (hex : ReadExact w s p fd userBuf count) :
    ReadHolds w s p fd userBuf count := by
  intro hp ho d hd he hfirst hdel
  by_contra hsize
  have hsize := Nat.not_le.mp hsize
  have hdata : (s.fds p fd.toNat).tmpfsIdx = none → ∃ src, (s.fds p fd.toNat).data = some src := by
    intro hi
    unfold EndsEarly at he
    rw [hi] at he
    obtain ⟨src, hsrc, -⟩ := he
    exact ⟨src, hsrc⟩
  rcases sysUserRead_cases h w p fd userBuf count with ⟨-, -, -, -, hno⟩ | ⟨-, m, hr⟩
  · exact hno ⟨hp, vfsRead_nonneg h ho hdata hsize⟩
  · obtain ⟨rfl, hres⟩ := hr.eq_of_early h ho (Nat.lt_succ_of_le hp.1) hd he hfirst hdel hsize
    rcases hex.short m hres hd with hs | ⟨hm, hb⟩
    · omega
    · exact hdel.2 hm hb

/-! ## Writes -/

/-- A write fails at once, or is a run of its loop. -/
theorem sysUserWrite_cases (h : s.Ready) (w : IoWorld) (p : Nat) (fd : Int) (userBuf count : Nat) :
    s.sysUserWrite w p fd userBuf count = (s, -1) ∨
      (count < 2147483648 ∧ ∃ k src, s.WritableAt p fd k ∧
        WriteRun w.writeSpace w.alloc s p fd k userBuf count (s.sysUserWrite w p fd userBuf count)
          src) := by
  unfold sysUserWrite
  by_cases hg : 2147483647 < count ∨ !w.start.phys.userAccessOk w.start.root userBuf count false
  · rw [if_pos hg]
    exact .inl rfl
  · rw [if_neg hg]
    obtain ⟨hc, hok⟩ := not_or.mp hg
    by_cases hw : ∃ k, s.WritableAt p fd k
    · obtain ⟨k, hw⟩ := hw
      have hbuf : count ≠ 0 → userBuf ≠ 0 := fun h0 =>
        ((Phys.userAccessOk_iff h0 w.start.root_ne).mp (by simpa using hok)).1
      have hstart : HasWritten w.writeSpace s s p fd k userBuf 0 [] :=
        ⟨h, rfl, fun i hi => absurd hi (Nat.not_lt_zero i), .refl s p fd.toNat k,
          fun hne => absurd rfl hne, fun _ => rfl⟩
      obtain ⟨src, hrun⟩ := writeLoop_spec w.writeSpace w.alloc w.buffer h hw hbuf (by omega)
        w.kernel hstart rfl (Nat.zero_le count)
          (show count - 0 < 1024 * (count / 1024 + 1) by omega)
      exact .inr ⟨by omega, k, src, hw, hrun⟩
    · -- the descriptor cannot be written
      left
      unfold writeLoop
      dsimp only
      split
      · rfl
      · rw [vfsWrite_closed (not_exists.mp hw)]
        rfl

/-- A write is exact. -/
theorem sysUserWrite_exact (h : s.Ready) (w : IoWorld) (p : Nat) (fd : Int) (userBuf count : Nat) :
    WriteExact w s p fd userBuf count := by
  rcases sysUserWrite_cases h w p fd userBuf count with heq | ⟨hc, k, src, hw, hr⟩
  · refine ⟨fun n hn => ?_, fun n hn => ?_, fun _ => heq, by rw [heq]; rfl⟩
    · rw [heq] at hn
      exact absurd hn nofun
    · rw [heq] at hn
      exact absurd hn nofun
  · have hone : ∀ n : Nat, (s.sysUserWrite w p fd userBuf count).2 = n → src.length = n := by
      intro n hn
      rcases hr.result with hm | ⟨-, hm, -⟩ <;> omega
    refine ⟨fun n hn => ?_, fun n hn hlt => ?_, fun hn => ?_, ?_⟩
    · obtain rfl := hone n hn
      have hfit : fitting (s.fds p fd.toNat).offset src.length = src.length := by
        unfold fitting
        cases src with
        | nil => exact Nat.zero_min _
        | cons b src =>
          have := hr.fits nofun
          omega
      have hle := hr.le
      -- one write, with room for the buffer
      rcases vfsWrite_spec h hw (show src.length < _ by omega) (some fun _ => 0) with
        ⟨t, ht, -, hto⟩ | ⟨halloc, -⟩
      · rw [hfit] at ht hto
        rw [List.take_length] at hto
        obtain ⟨h1, h2, h3⟩ := hr.written.same hto
        exact ⟨src, _, t, rfl, hr.loaded, ht, h1, h2, h3⟩
      · exact absurd halloc nofun
    · obtain rfl := hone n hn
      rcases hr.short hlt with hs | ⟨h1, h2⟩ | hs
      · exact .inl hs
      · exact .inr (.inl ⟨k, hw.index, h1, h2⟩)
      · exact .inr (.inr hs)
    · rcases hr.result with hm | ⟨-, h1, h2⟩
      · omega
      · exact Prod.ext h2 h1
    · rw [hr.written.descriptor, wroteFd_offset]
      rcases hr.result with hm | ⟨rfl, hm, -⟩
      · rw [hm, Int.toNat_natCast]
      · rw [hm]
        rfl

/-! ## Runs -/

/-- The states that calls from the kernel and from user code lead to. -/
inductive IoReached (tar : TarRead) : Vfs → Prop where
  | init : IoReached tar init
  | exec {s : Vfs} (h : IoReached tar s) {op : VfsOp} (hop : op.Fits) :
      IoReached tar (s.exec tar op)
  | readdir {s t : Vfs} (h : IoReached tar s) {m : TarMem} {archive fuel p : Nat} {fd : Int}
      {entry : Option (List UInt8 × Nat)}
      (heq : vfsReaddir m archive fuel s p fd = some (t, entry)) :
      IoReached tar t
  | read {s : Vfs} (h : IoReached tar s) (w : IoWorld) (p : Nat) (fd : Int) (userBuf count : Nat) :
      IoReached tar (s.sysUserRead w p fd userBuf count).1
  | write {s : Vfs} (h : IoReached tar s) (w : IoWorld) (p : Nat) (fd : Int) (userBuf count : Nat) :
      IoReached tar (s.sysUserWrite w p fd userBuf count).1

theorem Ready.sysUserRead (h : s.Ready) (w : IoWorld) (p : Nat) (fd : Int) (userBuf count : Nat) :
    Ready (s.sysUserRead w p fd userBuf count).1 := by
  rcases sysUserRead_cases h w p fd userBuf count with ⟨-, -, -, hr, -⟩ | ⟨-, m, hr⟩
  · exact hr
  · exact hr.ready

theorem Ready.sysUserWrite (h : s.Ready) (w : IoWorld) (p : Nat) (fd : Int) (userBuf count : Nat) :
    Ready (s.sysUserWrite w p fd userBuf count).1 := by
  rcases sysUserWrite_cases h w p fd userBuf count with heq | ⟨-, k, src, -, hr⟩
  · rwa [heq]
  · exact hr.ready

theorem Ready.vfsReaddir (h : s.Ready) {tm : TarMem} {archive fuel : Nat} {t : Vfs}
    {entry : Option (List UInt8 × Nat)}
    (heq : vfsReaddir tm archive fuel s p fd = some (t, entry)) :
    t.Ready := by
  unfold Vfs.vfsReaddir at heq
  split at heq
  · obtain ⟨rfl, -⟩ := Prod.mk.inj (Option.some.inj heq)
    exact h
  dsimp only at heq
  split at heq
  · obtain ⟨rfl, -⟩ := Prod.mk.inj (Option.some.inj heq)
    exact h
  next hdir =>
  -- only the cursor of a directory moves
  have hclosed : ∀ o, VfsFd.InRange { s.fds p fd.toNat with offset := o } := fun o =>
    .of_closed fun hf => absurd ((Decidable.not_not.mp hdir).symm.trans hf) nofun
  have hmove : ∀ o, Ready (s.setFd p fd.toNat { s.fds p fd.toNat with offset := o }) := fun o =>
    h.setFd (hclosed o) p _
  split at heq
  · exact absurd heq nofun
  · split at heq
    · exact absurd heq nofun
    · obtain ⟨rfl, -⟩ := Prod.mk.inj (Option.some.inj heq)
      exact hmove _
    · split at heq
      · exact absurd heq nofun
      · obtain ⟨rfl, -⟩ := Prod.mk.inj (Option.some.inj heq)
        exact hmove _

theorem IoReached.ready (htar : tar.Fits) (h : IoReached tar s) : s.Ready := by
  induction h with
  | init => exact init_ready
  | exec _ hop ih => exact ih.exec htar hop
  | readdir _ heq ih => exact ih.vfsReaddir heq
  | read _ w p fd userBuf count ih => exact ih.sysUserRead w p fd userBuf count
  | write _ w p fd userBuf count ih => exact ih.sysUserWrite w p fd userBuf count

/-- **Chunked transfers are one transfer**: every write, and those reads that find the end of the
file where it is. -/
theorem sys_user_io_exact (htar : tar.Fits) (h : IoReached tar s) (w : IoWorld) (p : Nat) (fd : Int)
    (userBuf count : Nat) :
    WriteExact w s p fd userBuf count ∧
      (ReadExact w s p fd userBuf count ↔ ReadHolds w s p fd userBuf count) :=
  have hr := h.ready htar
  ⟨sysUserWrite_exact hr w p fd userBuf count, sysUserRead_holds hr, sysUserRead_exact hr⟩

/-- Reads of an archive file are exact as long as the blocks cached under its name are whole. -/
theorem readHolds_of_reaches (h : s.Ready) {src : Nat → UInt8}
    (hi : (s.fds p fd.toNat).tmpfsIdx = none) (hdata : (s.fds p fd.toNat).data = some src)
    (hr : s.cache.Reaches ⟨(s.fds p fd.toNat).name, src, (s.fds p fd.toNat).size⟩
      (s.fds p fd.toNat).offset ((s.fds p fd.toNat).offset + count)) :
    ReadHolds w s p fd userBuf count := by
  intro hp _ m hm he _ _
  have hc := hp.1
  exact absurd ((endsEarly_none hi hdata).mp he)
    (hr.not_cut h.tagged (by omega) (Nat.le_refl _) (by omega))

theorem IoReached.after {ops : List VfsOp} (hops : ∀ op ∈ ops, op.Fits) :
    IoReached tar (after tar ops) := by
  induction ops using List.reverseRecOn with
  | nil => exact .init
  | append_singleton ops op ih =>
    unfold Vfs.after at ih ⊢
    rw [List.foldl_append]
    exact (ih fun op hop => hops op (List.mem_append_left _ hop)).exec
      (hops op (List.mem_append_right _ (List.mem_singleton_self op)))

/-- The present leaf of a page of 4 KiB, or 0. -/
def readPteIn (s : Phys) (root va : Nat) : Word :=
  match s.lookup root (Phys.indexAt va) with
  | some [_, _, _, leaf] => leaf
  | _ => 0#64

theorem flatRoot_ne : 0x1000 ≠ 0 := by decide

/-- Every page of user memory is there. -/
def flatWorld : IoWorld where
  readPte := readPteIn
  start := ⟨Phys.flatPhys, 0x1000, flatRoot_ne, none, fun _ => false⟩
  later := fun u _ => u
  alloc := fun _ => some fun _ => 0
  buffer := 0
  kernel := ⟨fun _ => 0#8, [], []⟩

theorem flatWorld_prepare : flatWorld.start.userWritePrepare readPteIn 5000 1 =
    (0, flatWorld.start) := by
  have hok : flatWorld.start.phys.userAccessOk flatWorld.start.root 5000 1 true = true :=
    (Phys.userAccessOk_iff (by decide) (by decide)).mpr ⟨by decide, fun b _ hb =>
      Phys.flatPhys_may (Nat.lt_trans hb (by decide)) true⟩
  have hpte : readPteIn flatWorld.start.phys flatWorld.start.root 4096 =
      Phys.tableEntry 0x5000 := by
    show readPteIn Phys.flatPhys 0x1000 4096 = _
    unfold readPteIn
    rw [Phys.flatPhys_lookup]
  unfold UserSpace.userWritePrepare
  rw [hok, if_neg (by decide), if_neg (by decide)]
  unfold UserSpace.preparePages
  rw [if_pos (by decide)]
  dsimp only
  rw [hpte, if_neg (by decide), if_pos (by decide)]
  unfold UserSpace.preparePages
  rw [if_neg (by decide)]

theorem flatWorld_prepared : flatWorld.Prepared 5000 1 :=
  ⟨by decide, congrArg Prod.fst flatWorld_prepare⟩

theorem not_blocked_flat : ¬ Blocked (flatWorld.readSpace 5000 1) 5000 1 0 := by
  have hspace : flatWorld.readSpace 5000 1 0 = flatWorld.start :=
    congrArg Prod.snd flatWorld_prepare
  rintro ⟨b, _, hb, hno⟩
  rw [hspace] at hno
  exact hno ⟨Phys.flatPhys_may (Nat.lt_trans hb (by decide)) true, rfl⟩

theorem twoFds_reached : IoReached (fun _ => none) (after (fun _ => none) twoFds) :=
  .after (by simp [twoFds, VfsOp.Fits])

theorem noFiles_fits : TarRead.Fits fun _ => none :=
    fun _ _ h => absurd h (Option.some_ne_none _).symm

/-- The byte is read through the first descriptor, once it is at the start. -/
theorem sys_user_io_exact_first :
    ReadExact flatWorld
      (exec (fun _ => none) (after (fun _ => none) twoFds) (.seek 0 0 0 0)) 0 0 5000 1 :=
  (sys_user_io_exact noFiles_fits
    (.exec twoFds_reached (show VfsOp.Fits (.seek 0 0 0 0) from trivial))
    flatWorld 0 0 5000 1).2.mpr fun _ _ m hm he _ _ => by
      obtain rfl : m = 0 := by omega
      exact absurd ((endsEarly_some (k := 0) (by decide)).mp he).2 (by decide)

/-- Through the second it is not: the read returns 0. -/
theorem sys_user_read_early :
    (after (fun _ => none) twoFds).Opened 0 1 ∧ flatWorld.Prepared 5000 1 ∧
      ((after (fun _ => none) twoFds).sysUserRead flatWorld 0 1 5000 1).2.1 = 0 ∧
      ¬ ReadExact flatWorld (after (fun _ => none) twoFds) 0 1 5000 1 := by
  have hready := twoFds_reached.ready noFiles_fits
  have ho : (after (fun _ => none) twoFds).Opened 0 1 :=
    ⟨by decide, by decide, rfl⟩
  have hearly : (after (fun _ => none) twoFds).EndsEarly 0 1 0 :=
    (endsEarly_some (k := 0) rfl).mpr ⟨by rfl, by rfl⟩
  have hfirst : ∀ d < 0, ¬ (after (fun _ => none) twoFds).EndsEarly 0 1 d :=
    fun d hd => absurd hd (Nat.not_lt_zero d)
  have hdel : Delivered (flatWorld.readSpace 5000 1) 5000 1 0 :=
    ⟨fun i hi => absurd hi (Nat.not_lt_zero i), fun _ => not_blocked_flat⟩
  refine ⟨ho, flatWorld_prepared, ?_, fun hex => ?_⟩
  · rcases sysUserRead_cases hready flatWorld 0 1 5000 1 with ⟨-, -, -, -, hno⟩ | ⟨-, m, hr⟩
    · exact absurd ⟨flatWorld_prepared, by rfl⟩ hno
    · obtain ⟨rfl, hres⟩ := hr.eq_of_early hready ho (by decide) (by decide) hearly hfirst hdel
        (by decide)
      exact hres
  · have hend := sysUserRead_holds hready hex flatWorld_prepared ho 0 (by decide) hearly hfirst hdel
    exact absurd hend (by decide)

end Vfs

end GenOS
