import GenOS.Cpu.SyscallIo

/-!
# Chunks

`sys_user_read` and `sys_user_write` move 1024 bytes at a time. What they did after the chunks so
far is what one `vfs_read` or `vfs_write` does (`HasRead`, `HasWritten`), and each chunk keeps that.
-/

namespace GenOS

variable {s t u : Vfs} {p i k a b n m count done fuel userBuf : Nat} {fd : Int}
  {user : Nat → UserSpace}

namespace Vfs

/-! ## Chunks that are read -/

theorem ReadTo.trans (h : ReadTo s t p i a) (h' : ReadTo t u p i b) : ReadTo s u p i (a + b) := by
  have hoff : (t.fds p i).offset = (s.fds p i).offset + a := by rw [h.descriptor]
  refine ⟨h'.files.trans h.files, ?_, h'.tagged, ?_⟩
  · rw [h'.fds, hoff, Nat.add_assoc, moveTo_fds_congr h.fds, moveTo_moveTo]
  · have := h'.fits
    omega

theorem ReadTo.opened (h : ReadTo s t p fd.toNat a) (ho : s.Opened p fd) : t.Opened p fd :=
  ⟨ho.nonneg, ho.lt, by rw [h.descriptor]; exact ho.file⟩

/-- A read stops `m` bytes on, before the end of the file: a chunk starts behind the size that the
descriptor remembers, or a cached block ends early. -/
def EndsEarly (s : Vfs) (p : Nat) (fd : Int) (m : Nat) : Prop :=
  match (s.fds p fd.toNat).tmpfsIdx with
  | some _ => m % 1024 = 0 ∧ (s.fds p fd.toNat).size ≤ (s.fds p fd.toNat).offset + m
  | none => ∃ src, (s.fds p fd.toNat).data = some src ∧
      s.cache.Cut ⟨(s.fds p fd.toNat).name, src, (s.fds p fd.toNat).size⟩
        (s.fds p fd.toNat).offset m

theorem endsEarly_some (hi : (s.fds p fd.toNat).tmpfsIdx = some k) : s.EndsEarly p fd m ↔
    m % 1024 = 0 ∧ (s.fds p fd.toNat).size ≤ (s.fds p fd.toNat).offset + m := by
  unfold EndsEarly
  rw [hi]

theorem endsEarly_none {src : Nat → UInt8} (hi : (s.fds p fd.toNat).tmpfsIdx = none)
    (hd : (s.fds p fd.toNat).data = some src) : s.EndsEarly p fd m ↔
    s.cache.Cut ⟨(s.fds p fd.toNat).name, src, (s.fds p fd.toNat).size⟩
      (s.fds p fd.toNat).offset m := by
  unfold EndsEarly
  rw [hi]
  refine ⟨fun ⟨src', hd', hc⟩ => ?_, fun hc => ⟨src, hd, hc⟩⟩
  obtain rfl := Option.some.inj (hd.symm.trans hd')
  exact hc

/-- `t` is what one read of `done` bytes leaves. -/
structure HasRead (s t : Vfs) (p : Nat) (fd : Int) (done : Nat) : Prop where
  ready : t.Ready
  once : (s.vfsRead p fd done).2.1 = done
  moved : ReadTo s t p fd.toNat done
  like : Cache.Like (s.fds p fd.toNat).name (s.vfsRead p fd done).1.cache t.cache

theorem HasRead.start (h : s.Ready) (h0 : 0 ≤ (s.vfsRead p fd 0).2.1) : HasRead s s p fd 0 := by
  obtain ⟨-, -, -, hto, hz⟩ := vfsRead_to h (by decide) h0
  rw [hz] at hto
  refine ⟨h, ?_, hto, ?_⟩
  · rw [hz]
    rfl
  · rw [hz]
    exact .refl _ h.tagged

theorem HasRead.opened (h : s.Ready) (hr : HasRead s t p fd done) (hc : done < 2147483648) :
    s.Opened p fd :=
  (vfsRead_to h hc (show 0 ≤ (s.vfsRead p fd done).2.1 by rw [hr.once]; omega)).1

/-- The end, as far as the descriptor knows. -/
theorem HasRead.atEnd (h : s.Ready) (hr : HasRead s t p fd done) (hc : done < 2147483648)
    (hend : (s.fds p fd.toNat).size ≤ (s.fds p fd.toNat).offset + done) (chunk : Nat) :
    t.vfsRead p fd chunk = (t, 0, []) := by
  rw [vfsRead_eq (hr.moved.opened (hr.opened h hc)),
    if_pos (by rw [hr.moved.descriptor]; exact hend)]

/-- Before it, the next chunk is what the backend returns. -/
theorem HasRead.fetch (h : s.Ready) (hr : HasRead s t p fd done) (hc : done < 2147483648)
    (hend : (s.fds p fd.toNat).offset + done < (s.fds p fd.toNat).size) (chunk : Nat) :
    (t.vfsRead p fd chunk).2 = ((s.fds p fd.toNat).fetch s.files t.cache
      ((s.fds p fd.toNat).offset + done) chunk).2 := by
  have hfd := hr.moved.descriptor
  have hfetch :=
    (vfsRead_fetch (hr.moved.opened (hr.opened h hc)) (by rw [hfd]; exact hend) chunk).1
  rw [hfd, hr.moved.files] at hfetch
  exact hfetch

/-- The next chunk is not an error. -/
theorem HasRead.nonneg (h : s.Ready) (hr : HasRead s t p fd done) {chunk : Nat}
    (hc : done + chunk < 2147483648) : 0 ≤ (t.vfsRead p fd chunk).2.1 := by
  by_cases hend : (s.fds p fd.toNat).size ≤ (s.fds p fd.toNat).offset + done
  · rw [hr.atEnd h (by omega) hend]
  · rw [hr.fetch h (by omega) (Nat.not_le.mp hend)]
    rcases (s.fds p fd.toNat).fetch_cases s.files with ⟨k, hi, hk, hu⟩ | ⟨src, -, -, heq⟩ | heq
    · rw [VfsFd.fetch_tmpfs h.clean hi hk hu]
      exact Int.natCast_nonneg _
    · rw [heq, hr.ready.tagged.read_length _ _ (show chunk < 2147483648 by omega)]
      exact Int.natCast_nonneg _
    · -- then the reads so far had failed
      have honce := hr.once
      rw [(vfsRead_fetch (hr.opened h (by omega)) (by omega) done).1, heq] at honce
      change (-1 : Int) = done at honce
      omega

/-- A chunk that is not full is the last of the file, or ends early. -/
theorem HasRead.short (h : s.Ready) (hr : HasRead s t p fd done) {chunk : Nat}
    (hc : done + chunk < 2147483648) (hd : done % 1024 = 0) (hn : (t.vfsRead p fd chunk).2.1 = n)
    (hlt : n < chunk) :
    (s.fds p fd.toNat).fileSize s.files ≤ (s.fds p fd.toNat).offset + (done + n) ∨
      s.EndsEarly p fd (done + n) := by
  have ho := hr.opened h (by omega)
  by_cases hend : (s.fds p fd.toNat).size ≤ (s.fds p fd.toNat).offset + done
  · rw [hr.atEnd h (by omega) hend] at hn
    obtain rfl : n = 0 := by
      change (0 : Int) = n at hn
      omega
    cases hi : (s.fds p fd.toNat).tmpfsIdx with
    | none =>
      rw [VfsFd.fileSize_none hi]
      exact .inl hend
    | some k => exact .inr ((endsEarly_some hi).mpr ⟨hd, hend⟩)
  · have hend' := Nat.not_le.mp hend
    have hwhole := (vfsRead_add h hc hr.once hr.moved hr.like hn).2.2 hend'
    rw [hr.fetch h (by omega) hend'] at hn
    rw [(vfsRead_fetch ho (by omega) (done + chunk)).1] at hwhole
    rcases (s.fds p fd.toNat).fetch_cases s.files with ⟨k, hi, hk, hu⟩ | ⟨src, hi, hdata, heq⟩ | heq
    · rw [VfsFd.fetch_tmpfs h.clean hi hk hu] at hn
      have hn := Int.natCast_inj.mp hn
      rw [List.length_take, List.length_drop, TmpfsFile.length_content] at hn
      rw [VfsFd.fileSize_some hi]
      exact .inl (by omega)
    · rw [heq] at hwhole
      have hcut := (h.tagged.read_cut _ _ hc hwhole).2 (by omega)
      rw [VfsFd.fileSize_none hi, endsEarly_none hi hdata]
      by_cases hle : (s.fds p fd.toNat).size ≤ (s.fds p fd.toNat).offset + (done + n)
      · exact .inl hle
      · exact .inr (hcut (Nat.not_le.mp hle))
    · rw [heq] at hn
      change (-1 : Int) = n at hn
      omega

/-- What a read of the next chunk does. -/
structure ReadStep (s t u : Vfs) (p : Nat) (fd : Int) (done chunk n : Nat)
    (bytes : List UInt8) : Prop where
  le : n ≤ chunk
  once : (s.vfsRead p fd (done + n)).2 =
    (((done + n : Nat) : Int), (s.vfsRead p fd done).2.2 ++ bytes)
  length : bytes.length = n
  moved : ReadTo t u p fd.toNat n
  next : n = chunk → HasRead s u p fd (done + n)
  before : 0 < n → (s.fds p fd.toNat).offset + done < (s.fds p fd.toNat).size
  short : n < chunk →
    (s.fds p fd.toNat).fileSize s.files ≤ (s.fds p fd.toNat).offset + (done + n) ∨
      s.EndsEarly p fd (done + n)

theorem HasRead.step (h : s.Ready) (hr : HasRead s t p fd done) {chunk : Nat}
    (hc : done + chunk < 2147483648) (hd : done % 1024 = 0) :
    ∃ n : Nat, (t.vfsRead p fd chunk).2.1 = n ∧
      ReadStep s t (t.vfsRead p fd chunk).1 p fd done chunk n (t.vfsRead p fd chunk).2.2 := by
  obtain ⟨-, hlen, hlec, hmoved, -⟩ := vfsRead_to hr.ready (by omega) (hr.nonneg h hc)
  obtain ⟨honce, hlike, -⟩ := vfsRead_add h hc hr.once hr.moved hr.like hlen
  refine ⟨_, hlen, hlec, honce, rfl, hmoved, fun hn => ?_, fun hpos => ?_, hr.short h hc hd hlen⟩
  · exact ⟨hr.ready.vfsRead p fd chunk, congrArg Prod.fst honce, hr.moved.trans hmoved, hlike hn⟩
  · by_contra hend
    rw [hr.atEnd h (by omega) (Nat.not_lt.mp hend)] at hpos
    exact absurd hpos (Nat.lt_irrefl 0)

/-- A byte of the chunk after `m` bytes may not be stored to. -/
def Blocked (user : Nat → UserSpace) (userBuf count m : Nat) : Prop :=
  ∃ b, userBuf + m ≤ b ∧ b < userBuf + min (m + 1024) count ∧ ¬ (user m).MayStore b

/-- The bytes before `m` may be stored, and so may the chunk that starts there. -/
def Delivered (user : Nat → UserSpace) (userBuf count m : Nat) : Prop :=
  (∀ i < m, (user (i / 1024 * 1024)).MayStore (userBuf + i)) ∧
    (m % 1024 = 0 → ¬ Blocked user userBuf count m)

/-- The chunk after `m` bytes has one that may not be stored. -/
def CopyFails (user : Nat → UserSpace) (s : Vfs) (p : Nat) (fd : Int)
    (userBuf count m : Nat) : Prop :=
  m % 1024 = 0 ∧ ∃ n ≤ 1024, m + n ≤ count ∧ (s.vfsRead p fd (m + n)).2.1 = ((m + n : Nat) : Int) ∧
    ∃ i < n, ¬ (user m).MayStore (userBuf + (m + i))

theorem CopyFails.blocked (h : CopyFails user s p fd userBuf count m) :
    Blocked user userBuf count m := by
  obtain ⟨-, n, h1, h2, -, i, hi, hno⟩ := h
  exact ⟨_, by omega, by omega, hno⟩

/-- What the loop of `sys_user_read` does from `done` bytes on: it delivers the bytes up to `m`. -/
structure ReadRun (user : Nat → UserSpace) (s : Vfs) (p : Nat) (fd : Int)
    (userBuf count done : Nat) (r : Vfs × Int × List (Nat × UInt8)) (m : Nat) : Prop where
  ge : done ≤ m
  le : m ≤ count
  result : r.2.1 = m ∨ m = 0 ∧ r.2.1 = -1 ∧ CopyFails user s p fd userBuf count 0
  once : (s.vfsRead p fd m).2.1 = m
  front : (s.vfsRead p fd m).2.2.take done = (s.vfsRead p fd done).2.2
  ready : r.1.Ready
  files : r.1.files = s.files
  fds : r.1.fds = (s.moveTo p fd.toNat ((s.fds p fd.toNat).offset + m)).fds
  stores : r.2.2.take (m - done) = storesAt (userBuf + done) ((s.vfsRead p fd m).2.2.drop done)
  rest : ∀ x ∈ r.2.2.drop (m - done), userBuf + m ≤ x.1 ∧ x.1 < userBuf + count
  before : ∀ d, done ≤ d → d < m → d % 1024 = 0 →
    (s.fds p fd.toNat).offset + d < (s.fds p fd.toNat).size
  delivered : ∀ i, done ≤ i → i < m → (user (i / 1024 * 1024)).MayStore (userBuf + i)
  short : m < count → (s.fds p fd.toNat).fileSize s.files ≤ (s.fds p fd.toNat).offset + m ∨
    CopyFails user s p fd userBuf count m ∨ s.EndsEarly p fd m

theorem HasRead.length (h : s.Ready) (hr : HasRead s t p fd done) (hc : done < 2147483648) :
    (s.vfsRead p fd done).2.2.length = done := by
  have hlen := (vfsRead_to h hc (show 0 ≤ (s.vfsRead p fd done).2.1 by rw [hr.once]; omega)).2.1
  have honce := hr.once
  omega

/-- The copy of a chunk fails. -/
theorem ReadStep.undone (h : s.Ready) (hr : HasRead s t p fd done) {chunk : Nat}
    {bytes : List UInt8} {stores : List (Nat × UInt8)} (hu : u.Ready)
    (hs : ReadStep s t u p fd done chunk n bytes) (hle : done + chunk ≤ count)
    (hchunk : chunk ≤ 1024) (hc : count < 2147483648) (hd : done % 1024 = 0)
    (hstores : ∀ x ∈ stores, userBuf + done ≤ x.1 ∧ x.1 < userBuf + done + n)
    (hb : ∃ b, userBuf + done ≤ b ∧ b < userBuf + done + n ∧ ¬ (user done).MayStore b) :
    ReadRun user s p fd userBuf count done
      (u.moveTo p fd.toNat (t.fds p fd.toNat).offset, failed done, stores) done := by
  have hfails : CopyFails user s p fd userBuf count done := by
    obtain ⟨b, h1, h2, h3⟩ := hb
    have := hs.le
    refine ⟨hd, n, by omega, by omega, congrArg Prod.fst hs.once,
      b - (userBuf + done), by omega, ?_⟩
    rwa [← Nat.add_assoc, Nat.add_sub_of_le h1]
  have hfds : (u.moveTo p fd.toNat (t.fds p fd.toNat).offset).fds = t.fds := by
    rw [moveTo_fds_congr hs.moved.fds, moveTo_moveTo, moveTo_self]
  have hlen := hr.length h (by omega)
  refine ⟨Nat.le_refl _, by omega, ?_, hr.once, List.take_of_length_le (Nat.le_of_eq hlen),
    ⟨?_, ?_, ?_⟩, ?_, hfds.trans hr.moved.fds, ?_, ?_, fun d h1 h2 => absurd h1 (Nat.not_le.mpr h2),
    fun i h1 h2 => absurd h1 (Nat.not_le.mpr h2), fun _ => .inr (.inl hfails)⟩
  · dsimp only
    unfold failed
    split
    · next hz =>
      subst hz
      exact .inr ⟨rfl, rfl, hfails⟩
    · exact .inl rfl
  · exact hu.clean
  · dsimp only
    rw [hfds]
    exact hr.ready.inRange
  · exact hu.tagged
  · exact hs.moved.files.trans hr.moved.files
  · rw [Nat.sub_self, List.drop_of_length_le (Nat.le_of_eq hlen)]
    rfl
  · rw [Nat.sub_self]
    intro x hx
    have := hstores x hx
    have := hs.le
    omega

/-- The bytes of a chunk that was stored. -/
theorem delivered_chunk (hd : done % 1024 = 0) (hn : n ≤ 1024)
    (hstore : ∀ b, userBuf + done ≤ b → b < userBuf + done + n → (user done).MayStore b) {i : Nat}
    (h1 : done ≤ i) (h2 : i < done + n) : (user (i / 1024 * 1024)).MayStore (userBuf + i) := by
  rw [show i / 1024 * 1024 = done by omega]
  exact hstore _ (by omega) (by omega)

/-- The chunk is the last. -/
theorem ReadStep.last (h : s.Ready) (hr : HasRead s t p fd done) {chunk : Nat}
    {bytes : List UInt8} (hu : u.Ready) (hs : ReadStep s t u p fd done chunk n bytes)
    (hchunk : chunk = min (count - done) 1024) (hle : done ≤ count) (hc : count < 2147483648)
    (hd : done % 1024 = 0) (hlast : n < chunk ∨ count ≤ done + n)
    (hstore : ∀ b, userBuf + done ≤ b → b < userBuf + done + n → (user done).MayStore b) :
    ReadRun user s p fd userBuf count done
      (u, ((done + n : Nat) : Int), storesAt (userBuf + done) bytes) (done + n) := by
  have hlen := hr.length h (by omega)
  have hbytes := congrArg Prod.snd hs.once
  have hmoved := hr.moved.trans hs.moved
  have hn := hs.le
  refine ⟨Nat.le_add_right _ _, by omega, .inl rfl, congrArg Prod.fst hs.once, ?_, hu,
    hmoved.files, hmoved.fds, ?_, ?_, fun d h1 h2 h3 => ?_,
    fun i => delivered_chunk hd (by omega) hstore, fun hlt => ?_⟩
  · rw [hbytes]
    exact List.take_left' hlen
  · rw [hbytes, List.drop_left' hlen, Nat.add_sub_cancel_left]
    exact List.take_of_length_le (by rw [length_storesAt, hs.length])
  · intro x hx
    rw [Nat.add_sub_cancel_left, List.drop_of_length_le (by rw [length_storesAt, hs.length])] at hx
    exact absurd hx List.not_mem_nil
  · obtain rfl : d = done := by omega
    exact hs.before (by omega)
  · rcases hs.short (by omega) with hsize | he
    · exact .inl hsize
    · exact .inr (.inr he)

/-- Another chunk follows. -/
theorem ReadStep.more (h : s.Ready) (hr : HasRead s t p fd done) {chunk : Nat}
    {bytes : List UInt8} {r : Vfs × Int × List (Nat × UInt8)}
    (hs : ReadStep s t u p fd done chunk n bytes) (hc : count < 2147483648)
    (hn : n = 1024) (hd : done % 1024 = 0)
    (hstore : ∀ b, userBuf + done ≤ b → b < userBuf + done + n → (user done).MayStore b)
    (hrun : ReadRun user s p fd userBuf count (done + n) r m) :
    ReadRun user s p fd userBuf count done
      (r.1, r.2.1, storesAt (userBuf + done) bytes ++ r.2.2) m := by
  have hge := hrun.ge
  have hle := hrun.le
  have hlen := hr.length h (by omega)
  have hbytes := congrArg Prod.snd hs.once
  have hfront := hrun.front
  rw [hbytes] at hfront
  -- the bytes so far, those of the chunk, and the rest
  have hsplit := List.take_append_drop (done + n) (s.vfsRead p fd m).2.2
  rw [hfront] at hsplit
  have hstores : (storesAt (userBuf + done) bytes).length = n := by
    rw [length_storesAt, hs.length]
  have hm : m - done = n + (m - (done + n)) := by omega
  refine ⟨by omega, hle, hrun.result, hrun.once, ?_, hrun.ready, hrun.files, hrun.fds, ?_, ?_,
    fun d h1 h2 h3 => ?_, fun i h1 h2 => ?_, hrun.short⟩
  · rw [← hsplit, List.append_assoc]
    exact List.take_left' hlen
  · have htake := hrun.stores
    rw [← hsplit, List.drop_left' (by rw [List.length_append, hlen, hs.length]),
      ← Nat.add_assoc] at htake
    rw [← hsplit, List.append_assoc, List.drop_left' hlen, storesAt_append, hs.length, ← htake, hm]
    dsimp only
    rw [← hstores, List.take_length_add_append]
  · intro x hx
    dsimp only at hx
    rw [hm, ← hstores, List.drop_length_add_append, hstores] at hx
    exact hrun.rest x hx
  · by_cases hdd : d = done
    · exact hdd ▸ hs.before (by omega)
    · exact hrun.before d (by omega) h2 h3
  · by_cases hi : i < done + n
    · exact delivered_chunk hd (by omega) hstore h1 hi
    · exact hrun.delivered i (by omega) h2

/-- The loop of `sys_user_read`, from what one read leaves on. -/
theorem readLoop_spec (user : Nat → UserSpace) (h : s.Ready) (hbuf : count ≠ 0 → userBuf ≠ 0)
    (hc : count < 2147483648) (hr : HasRead s t p fd done) (hd : done % 1024 = 0)
    (hle : done ≤ count) (hfuel : count - done < 1024 * fuel) :
    ∃ m, ReadRun user s p fd userBuf count done
      (t.readLoop user p fd userBuf count fuel done) m := by
  induction fuel generalizing t done with
  | zero => exact absurd hfuel (Nat.not_lt_zero _)
  | succ fuel ih =>
    have hot := hr.moved.opened (hr.opened h (by omega))
    obtain ⟨n, hn, hs⟩ := hr.step h (show done + min (count - done) 1024 < _ by omega) hd
    have hu := hr.ready.vfsRead p fd (min (count - done) 1024)
    have h0 := hot.nonneg
    have h1 := hot.lt
    unfold readLoop
    dsimp only
    rw [if_neg (by omega)]
    generalize t.vfsRead p fd (min (count - done) 1024) = v at hn hs hu ⊢
    obtain ⟨u, res, bytes⟩ := v
    dsimp only at hn hs hu ⊢
    subst hn
    have hnle := hs.le
    rw [if_neg (by omega), Int.toNat_natCast, List.take_of_length_le (Nat.le_of_eq hs.length)]
    have haddr : bytes ≠ [] → userBuf + done ≠ 0 := by
      intro hne
      have hpos : bytes.length ≠ 0 := by simpa using hne
      rw [hs.length] at hpos
      have := hbuf (by omega)
      omega
    rcases (user done).copyToUser_spec haddr with ⟨hok, hstore⟩ | ⟨hst, hstores, hb⟩
    · rw [hs.length] at hstore
      rw [hok]
      dsimp only
      rw [if_neg (by simp)]
      by_cases hlast : n < min (count - done) 1024 ∨ count ≤ done + n
      · rw [if_pos hlast]
        exact ⟨_, hs.last h hr hu rfl hle hc hd hlast hstore⟩
      · rw [if_neg hlast]
        obtain ⟨m, hrun⟩ := ih (hs.next (by omega)) (by omega) (by omega) (by omega)
        exact ⟨m, hs.more h hr hc (by omega) hd hstore hrun⟩
    · rw [hs.length] at hstores hb
      generalize (user done).copyToUser (userBuf + done) bytes = v at hst hstores ⊢
      obtain ⟨status, stores⟩ := v
      dsimp only at hst hstores ⊢
      rw [if_pos (by omega)]
      exact ⟨done, hs.undone h hr hu (by omega) (by omega) hc hd hstores hb⟩

/-! ## Chunks that are written -/

/-- The bytes are those of user memory, each as it was at the copy of its chunk. -/
def Loaded (user : Nat → UserSpace) (userBuf : Nat) (src : List UInt8) : Prop :=
  ∀ i < src.length, (user (i / 1024 * 1024)).phys.mmuLoad (user (i / 1024 * 1024)).root
    (userBuf + i) = src[i]?.map UInt8.toBitVec

/-- `t` is what one write of the bytes loaded so far leaves. -/
structure HasWritten (user : Nat → UserSpace) (s t : Vfs) (p : Nat) (fd : Int)
    (k userBuf done : Nat) (src : List UInt8) : Prop where
  ready : t.Ready
  length : src.length = done
  loaded : Loaded user userBuf src
  written : WriteTo s t p fd.toNat k src
  fits : src ≠ [] → (s.fds p fd.toNat).offset + src.length ≤ tmpfsMaxSize
  first : done = 0 → t = s

/-- The bytes of a chunk after those before. -/
theorem Loaded.append {src : List UInt8} {a : Phys.Access} {buffer chunk : Nat}
    (h : Loaded user userBuf src) (hd : src.length % 1024 = 0) (hchunk : chunk ≤ 1024)
    (ha : ∀ i < chunk, (user src.length).phys.mmuLoad (user src.length).root
      (userBuf + src.length + i) = some (a.kernel (buffer + i))) (n : Nat) :
    Loaded user userBuf (src ++ (a.bufferBytes buffer chunk).take n) := by
  intro i hi
  rw [List.length_append, List.length_take, Phys.Access.bufferBytes, List.length_map,
    List.length_range] at hi
  by_cases hlt : i < src.length
  · rw [List.getElem?_append_left hlt]
    exact h i hlt
  · have hdiv : i / 1024 * 1024 = src.length := by omega
    have hload := ha (i - src.length) (by omega)
    rw [Nat.add_assoc, Nat.add_sub_of_le (Nat.not_lt.mp hlt)] at hload
    rw [hdiv, hload, List.getElem?_append_right (Nat.not_lt.mp hlt),
      List.getElem?_take_of_lt (by omega), Phys.Access.bufferBytes, List.getElem?_map,
      List.getElem?_range (by omega)]
    rfl

/-- A byte of the chunk after `m` bytes may not be loaded. -/
def Unreadable (user : Nat → UserSpace) (userBuf count m : Nat) : Prop :=
  ∃ b, userBuf + m ≤ b ∧ b < userBuf + min (m + 1024) count ∧ ¬ (user m).MayLoad b

/-- What the loop of `sys_user_write` does: it writes `src`. -/
structure WriteRun (user : Nat → UserSpace) (alloc : Nat → HeapBlockBytes) (s : Vfs) (p : Nat)
    (fd : Int) (k userBuf count : Nat) (r : Vfs × Int) (src : List UInt8) : Prop where
  le : src.length ≤ count
  result : r.2 = src.length ∨ src = [] ∧ r.2 = -1 ∧ r.1 = s
  ready : r.1.Ready
  loaded : Loaded user userBuf src
  written : WriteTo s r.1 p fd.toNat k src
  fits : src ≠ [] → (s.fds p fd.toNat).offset + src.length ≤ tmpfsMaxSize
  short : src.length < count →
    tmpfsMaxSize ≤ (s.fds p fd.toNat).offset + src.length ∨
      (alloc src.length = none ∧
        (r.1.files k).capacity < (s.fds p fd.toNat).offset + min (src.length + 1024) count) ∨
      Unreadable user userBuf count src.length

/-- The loop stops before a chunk. -/
theorem HasWritten.stopped {alloc : Nat → HeapBlockBytes} {src : List UInt8}
    (hr : HasWritten user s t p fd k userBuf done src) (hle : done ≤ count)
    (hshort : (alloc done = none ∧
        (t.files k).capacity < (s.fds p fd.toNat).offset + min (done + 1024) count) ∨
      Unreadable user userBuf count done) :
    WriteRun user alloc s p fd k userBuf count (t, failed done) src := by
  have hlen := hr.length
  refine ⟨by omega, ?_, hr.ready, hr.loaded, hr.written, hr.fits, fun _ => .inr (hlen ▸ hshort)⟩
  unfold failed
  split
  · next hz => exact .inr ⟨List.eq_nil_of_length_eq_zero (hlen.trans hz), rfl, hr.first hz⟩
  · exact .inl (congrArg _ hlen.symm)

theorem HasWritten.offset {src : List UInt8} (hr : HasWritten user s t p fd k userBuf done src) :
    (t.fds p fd.toNat).offset = (s.fds p fd.toNat).offset + done := by
  rw [hr.written.descriptor, wroteFd_offset, hr.length]

/-- The bytes of one more chunk, as far as they fit. -/
theorem HasWritten.step (h : s.Ready) (hw : s.WritableAt p fd k) {src bytes : List UInt8}
    (hr : HasWritten user s t p fd k userBuf done src) (hn : n = fitting
      ((s.fds p fd.toNat).offset + done) bytes.length)
      (hl : Loaded user userBuf (src ++ bytes.take n))
    (hu : u.Ready) (hto : WriteTo t u p fd.toNat k (bytes.take n)) :
    (src ++ bytes.take n).length = done + n ∧ (src ++ bytes.take n ≠ [] →
        (s.fds p fd.toNat).offset + (src ++ bytes.take n).length ≤ tmpfsMaxSize) ∧
      WriteTo s u p fd.toNat k (src ++ bytes.take n) ∧
      (n ≠ 0 → HasWritten user s u p fd k userBuf (done + n) (src ++ bytes.take n)) := by
  have hlen := hr.length
  have htake : (bytes.take n).length = n := by
    rw [List.length_take, hn, fitting]
    omega
  have hsum : (src ++ bytes.take n).length = done + n := by
    rw [List.length_append, hlen, htake]
  have hfits : src ++ bytes.take n ≠ [] →
      (s.fds p fd.toNat).offset + (src ++ bytes.take n).length ≤ tmpfsMaxSize := by
    intro hne
    rw [hsum]
    unfold fitting at hn
    by_cases hz : n = 0
    · have hsrc : src ≠ [] := fun h0 => hne (by rw [h0, hz]; rfl)
      have := hr.fits hsrc
      omega
    · omega
  have hwritten : WriteTo s u p fd.toNat k (src ++ bytes.take n) := by
    refine hr.written.trans hto fun hne => ?_
    have hmax := hfits (by simp [hne])
    rw [List.length_append, ← Nat.add_assoc] at hmax
    exact (h.clean.bounded k).reaches hw.inUse hmax
  exact ⟨hsum, hfits, hwritten, fun hz => ⟨hu, hsum, hl, hwritten, hfits, fun h0 => by omega⟩⟩

/-- The loop of `sys_user_write`, from what one write leaves on. -/
theorem writeLoop_spec (user : Nat → UserSpace) (alloc : Nat → HeapBlockBytes) (buffer : Nat)
    (h : s.Ready) (hw : s.WritableAt p fd k) (hbuf : count ≠ 0 → userBuf ≠ 0)
    (hc : count < 2147483648) {src : List UInt8} (a : Phys.Access)
    (hr : HasWritten user s t p fd k userBuf done src) (hd : done % 1024 = 0) (hle : done ≤ count)
    (hfuel : count - done < 1024 * fuel) :
    ∃ src', WriteRun user alloc s p fd k userBuf count
      (t.writeLoop user alloc buffer p fd userBuf count fuel done a) src' := by
  induction fuel generalizing t done src a with
  | zero => exact absurd hfuel (Nat.not_lt_zero _)
  | succ fuel ih =>
    have hlen := hr.length
    have hoff := hr.offset
    unfold writeLoop
    dsimp only
    have haddr : min (count - done) 1024 ≠ 0 → userBuf + done ≠ 0 := by
      intro hne
      have := hbuf (by omega)
      omega
    rcases (user done).copyFromUser_spec buffer haddr a with ⟨hst, -, hload⟩ | ⟨hst, hb⟩
    · -- the chunk is loaded
      generalize (user done).copyFromUser buffer (userBuf + done) (min (count - done) 1024) a = v
        at hst hload ⊢
      obtain ⟨status, a'⟩ := v
      dsimp only at hst hload ⊢
      rw [if_neg (by omega)]
      have hchunk : (a'.bufferBytes buffer (min (count - done) 1024)).length =
          min (count - done) 1024 := by
        simp [Phys.Access.bufferBytes]
      have hu : Ready (t.vfsWrite p fd (a'.bufferBytes buffer (min (count - done) 1024))
          (alloc done)).1 := hr.ready.vfsWrite p fd (by omega) (alloc done)
      rcases vfsWrite_spec hr.ready (hr.written.writableAt hw)
        (show (a'.bufferBytes buffer (min (count - done) 1024)).length < _ by omega)
        (alloc done) with
        ⟨u, heq, -, hto⟩ | ⟨halloc, -, hcap, heq⟩
      · rw [heq] at hu ⊢
        rw [hoff] at hto ⊢
        have hl : ∀ n, Loaded user userBuf
            (src ++ (a'.bufferBytes buffer (min (count - done) 1024)).take n) :=
          hr.loaded.append (hlen ▸ hd) (Nat.min_le_right _ _) (by rw [hlen]; exact hload)
        generalize hn : fitting ((s.fds p fd.toNat).offset + done)
          (a'.bufferBytes buffer (min (count - done) 1024)).length = n at hto hu ⊢
        obtain ⟨hsum, hfits, hwritten, hnext⟩ := hr.step h hw hn.symm (hl n) hu hto
        rw [fitting, hchunk] at hn
        dsimp only
        rw [if_neg (by omega), Int.toNat_natCast]
        split
        · next hlast =>
          refine ⟨_, by omega, .inl (congrArg _ hsum.symm), hu, hl n, hwritten,
            hfits, fun hlt => ?_⟩
          exact .inl (by omega)
        · next hmore =>
          exact ih a' (hnext (by omega)) (by omega) (by omega) (by omega)
      · rw [heq]
        dsimp only
        rw [if_pos (by decide)]
        refine ⟨src, hr.stopped hle (.inl ⟨halloc, ?_⟩)⟩
        rw [hoff, hchunk] at hcap
        unfold fitting at hcap
        omega
    · generalize (user done).copyFromUser buffer (userBuf + done) (min (count - done) 1024) a = v
        at hst ⊢
      obtain ⟨status, a'⟩ := v
      dsimp only at hst ⊢
      rw [if_pos (by omega)]
      refine ⟨src, hr.stopped hle (.inr ?_)⟩
      obtain ⟨b, h1, h2, h3⟩ := hb
      exact ⟨b, h1, by omega, h3⟩

end Vfs

end GenOS
