import GenOS.Cpu.Uaccess
import GenOS.Fs.VfsReady
import GenOS.Mm.Cow

/-!
# Reads and writes of user memory

`cpu/syscall_io.c`, and what it uses of `cpu/uaccess.c`. The guard of the calls keeps the files and
the descriptors as they are between two chunks. What user memory is at each copy is left open, and
so is what the heap does at each write: they are given by the number of bytes done before. The
caller is a task, so it has descriptors. `vmm_read_pte_in` is a parameter.
-/

namespace GenOS

/-- The user memory of the running task: its page table, the owner of the address space, and the
addresses at which a store of the kernel faults and the fault is not resolved. -/
structure UserSpace where
  phys : Phys
  root : Nat
  root_ne : root ≠ 0
  owner : Option Owner
  storeFaults : Nat → Bool

/-- What a call meets: user memory at its start and, after the preparation of it, at each copy; what
the heap does; the address of `buffer`, and the memory of the kernel. -/
structure IoWorld where
  readPte : Phys → Nat → Nat → Word
  start : UserSpace
  later : UserSpace → Nat → UserSpace
  alloc : Nat → HeapBlockBytes
  buffer : Nat
  kernel : Phys.Access

namespace UserSpace

/-! ## Preparation -/

/-- The loop of `user_write_prepare`, from page `va` up to `stop`. -/
def preparePages (readPte : Phys → Nat → Nat → Word) (stop va : Nat) (u : UserSpace) :
    Int × UserSpace :=
  if va < stop then
    let entry := readPte u.phys u.root va
    if entry = 0#64 then (-1, u)
    else if entry.has pteWrite then preparePages readPte stop (va + 4096) u
    else
      match u.phys.cowResolve u.owner va 3#64 with
      | (true, phys, owner) => preparePages readPte stop (va + 4096) { u with phys, owner }
      | (false, phys, owner) => (-1, { u with phys, owner })
  else (0, u)
termination_by stop - va
decreasing_by all_goals omega

/-- `user_write_prepare`. -/
def userWritePrepare (readPte : Phys → Nat → Nat → Word) (u : UserSpace) (addr len : Nat) :
    Int × UserSpace :=
  if !u.phys.userAccessOk u.root addr len true then (-1, u)
  else if len = 0 then (0, u)
  else preparePages readPte ((addr + len) % 2 ^ 64) (addr / 4096 * 4096) u

/-! ## Copies -/

/-- `uaccess_copy_to_asm`: its result, and the stores that it makes. A store that faults is not
made, and ends the loop with `-1`. -/
def uaccessCopyToAsm (u : UserSpace) : (dst : Nat) → (src : List UInt8) → Int × List (Nat × UInt8)
  | _, [] => (0, [])
  | dst, b :: src =>
    if u.storeFaults dst then (-1, [])
    else
      match uaccessCopyToAsm u (dst + 1) src with
      | (status, stores) => (status, (dst, b) :: stores)

/-- `copy_to_user`. -/
def copyToUser (u : UserSpace) (dst : Nat) (src : List UInt8) : Int × List (Nat × UInt8) :=
  if !u.phys.userAccessOk u.root dst src.length true then (-1, [])
  else if src.length = 0 then (0, [])
  else u.uaccessCopyToAsm dst src

/-- `copy_from_user`. -/
def copyFromUser (u : UserSpace) (dst src len : Nat) (a : Phys.Access) : Int × Phys.Access :=
  if !u.phys.userAccessOk u.root src len false then (-1, a)
  else if len = 0 then (0, a)
  else u.phys.uaccessCopyFromAsm u.root dst src len a

end UserSpace

/-- The bytes of `buffer`. -/
def Phys.Access.bufferBytes (a : Phys.Access) (buffer len : Nat) : List UInt8 :=
  (List.range len).map fun i => ⟨a.kernel (buffer + i)⟩

namespace Vfs

/-- `done ? (int)done : -1`. -/
def failed (done : Nat) : Int := if done = 0 then -1 else done

/-- The loop of `sys_user_read`: the files after it, what it returns, and its stores. -/
def readLoop (user : Nat → UserSpace) (p : Nat) (fd : Int) (userBuf count : Nat) :
    (fuel done : Nat) → Vfs → Vfs × Int × List (Nat × UInt8)
  | 0, done, s => (s, done, [])
  | fuel + 1, done, s =>
    let chunk := min (count - done) 1024
    if fd < 0 ∨ (vfsMaxFds : Int) ≤ fd then (s, failed done, [])
    else
      let offset := (s.fds p fd.toNat).offset
      match s.vfsRead p fd chunk with
      | (s, n, bytes) =>
        if n < 0 then (s, failed done, [])
        else
          match (user done).copyToUser (userBuf + done) (bytes.take n.toNat) with
          | (status, stores) =>
            if status ≠ 0 then
              (s.setFd p fd.toNat { s.fds p fd.toNat with offset := offset }, failed done, stores)
            else if n.toNat < chunk ∨ count ≤ done + n.toNat then
              (s, ((done + n.toNat : Nat) : Int), stores)
            else
              match readLoop user p fd userBuf count fuel (done + n.toNat) s with
              | (s, result, rest) => (s, result, stores ++ rest)

/-- `sys_user_read`. -/
def sysUserRead (w : IoWorld) (s : Vfs) (p : Nat) (fd : Int) (userBuf count : Nat) :
    Vfs × Int × List (Nat × UInt8) :=
  if 2147483647 < count then (s, -1, [])
  else
    match w.start.userWritePrepare w.readPte userBuf count with
    | (status, u) =>
      if status ≠ 0 then (s, -1, [])
      else s.readLoop (w.later u) p fd userBuf count (count / 1024 + 1) 0

/-- The loop of `sys_user_write`. -/
def writeLoop (user : Nat → UserSpace) (alloc : Nat → HeapBlockBytes) (buffer p : Nat) (fd : Int)
    (userBuf count : Nat) : (fuel done : Nat) → Phys.Access → Vfs → Vfs × Int
  | 0, done, _, s => (s, done)
  | fuel + 1, done, a, s =>
    let chunk := min (count - done) 1024
    match (user done).copyFromUser buffer (userBuf + done) chunk a with
    | (status, a) =>
      if status ≠ 0 then (s, failed done)
      else
        match s.vfsWrite p fd (a.bufferBytes buffer chunk) (alloc done) with
        | (s, n) =>
          if n < 0 then (s, failed done)
          else if n.toNat < chunk ∨ count ≤ done + n.toNat then
            (s, ((done + n.toNat : Nat) : Int))
          else writeLoop user alloc buffer p fd userBuf count fuel (done + n.toNat) a s

/-- `sys_user_write`. -/
def sysUserWrite (w : IoWorld) (s : Vfs) (p : Nat) (fd : Int) (userBuf count : Nat) : Vfs × Int :=
  if 2147483647 < count ∨ !w.start.phys.userAccessOk w.start.root userBuf count false then (s, -1)
  else s.writeLoop (w.later w.start) w.alloc w.buffer p fd userBuf count
    (count / 1024 + 1) 0 w.kernel

end Vfs

/-! ## What the copies do -/

/-- The stores of a list of bytes from `addr` on. -/
def storesAt : (addr : Nat) → List UInt8 → List (Nat × UInt8)
  | _, [] => []
  | addr, b :: bytes => (addr, b) :: storesAt (addr + 1) bytes

@[simp] theorem length_storesAt (addr : Nat) (bytes : List UInt8) :
    (storesAt addr bytes).length = bytes.length := by
  induction bytes generalizing addr with
  | nil => rfl
  | cons b bytes ih => exact congrArg (· + 1) (ih _)

theorem storesAt_append (addr : Nat) (l l' : List UInt8) :
    storesAt addr (l ++ l') = storesAt addr l ++ storesAt (addr + l.length) l' := by
  induction l generalizing addr with
  | nil => rfl
  | cons b l ih =>
    show (addr, b) :: storesAt (addr + 1) (l ++ l') = _
    rw [ih, List.length_cons, Nat.add_right_comm, Nat.add_assoc]
    rfl

namespace UserSpace

variable {u : UserSpace} {dst src len : Nat} {bytes : List UInt8} {a : Phys.Access}

/-- A store of the kernel to the byte is made. -/
def MayStore (u : UserSpace) (b : Nat) : Prop :=
  u.phys.UserMaySmall u.root true b ∧ u.storeFaults b = false

/-- A load of the kernel from the byte is made. -/
def MayLoad (u : UserSpace) (b : Nat) : Prop := u.phys.UserMaySmall u.root false b

theorem uaccessCopyToAsm_spec (u : UserSpace) (dst : Nat) (bytes : List UInt8) :
    ((u.uaccessCopyToAsm dst bytes).1 = 0 ∧ (u.uaccessCopyToAsm dst bytes).2 = storesAt dst bytes ∧
        ∀ b, dst ≤ b → b < dst + bytes.length → u.storeFaults b = false) ∨
      ((u.uaccessCopyToAsm dst bytes).1 = -1 ∧
        (∀ x ∈ (u.uaccessCopyToAsm dst bytes).2, dst ≤ x.1 ∧ x.1 < dst + bytes.length) ∧
        ∃ b, dst ≤ b ∧ b < dst + bytes.length ∧ u.storeFaults b = true) := by
  induction bytes generalizing dst with
  | nil => exact .inl ⟨rfl, rfl, fun b h1 h2 => absurd h2 (Nat.not_lt.mpr h1)⟩
  | cons x bytes ih =>
    unfold uaccessCopyToAsm
    rw [List.length_cons]
    by_cases hf : u.storeFaults dst = true
    · rw [if_pos hf]
      exact .inr ⟨rfl, fun x hx => absurd hx List.not_mem_nil, dst, Nat.le_refl _, by omega, hf⟩
    · rw [if_neg hf]
      dsimp only
      rcases ih (dst + 1) with ⟨h1, h2, h3⟩ | ⟨h1, h2, b, h3, h4, h5⟩
      · refine .inl ⟨h1, by rw [h2]; rfl, fun b g1 g2 => ?_⟩
        rcases Nat.lt_or_eq_of_le g1 with hlt | rfl
        · exact h3 b hlt (by omega)
        · simpa using hf
      · refine .inr ⟨h1, fun y hy => ?_, b, by omega, by omega, h5⟩
        rcases List.mem_cons.mp hy with rfl | hy
        · exact ⟨Nat.le_refl _, by dsimp only; omega⟩
        · have := h2 y hy
          omega

/-- `copy_to_user` stores all bytes, or there is one that it may not store. -/
theorem copyToUser_spec (u : UserSpace) (hd : bytes ≠ [] → dst ≠ 0) :
    (u.copyToUser dst bytes = (0, storesAt dst bytes) ∧
        ∀ b, dst ≤ b → b < dst + bytes.length → u.MayStore b) ∨
      ((u.copyToUser dst bytes).1 = -1 ∧
        (∀ x ∈ (u.copyToUser dst bytes).2, dst ≤ x.1 ∧ x.1 < dst + bytes.length) ∧
        ∃ b, dst ≤ b ∧ b < dst + bytes.length ∧ ¬ u.MayStore b) := by
  unfold copyToUser
  by_cases hl : bytes = []
  · subst hl
    left
    refine ⟨?_, fun b h1 h2 => absurd h2 (Nat.not_lt.mpr h1)⟩
    simp [Phys.userAccessOk, isUserRange, storesAt]
  · have hlen : bytes.length ≠ 0 := by simpa using hl
    have hiff : u.phys.userAccessOk u.root dst bytes.length true = true ↔ _ :=
      Phys.userAccessOk_iff hlen u.root_ne
    cases hok : u.phys.userAccessOk u.root dst bytes.length true with
    | false =>
      rw [if_pos Bool.not_false]
      refine .inr ⟨rfl, fun x hx => absurd hx List.not_mem_nil, ?_⟩
      by_contra hc
      simp only [not_exists, not_and] at hc
      exact absurd (hiff.mpr ⟨hd hl, fun b h1 h2 => (Classical.not_not.mp (hc b h1 h2)).1⟩)
        (by simp [hok])
    | true =>
      rw [if_neg (by simp), if_neg hlen]
      obtain ⟨-, hmay⟩ := hiff.mp hok
      rcases u.uaccessCopyToAsm_spec dst bytes with ⟨h1, h2, h3⟩ | ⟨h1, h2, b, h3, h4, h5⟩
      · exact .inl ⟨Prod.ext h1 h2, fun b g1 g2 => ⟨hmay b g1 g2, h3 b g1 g2⟩⟩
      · refine .inr ⟨h1, h2, b, h3, h4, fun hm => ?_⟩
        rw [hm.2] at h5
        cases h5

theorem uaccessCopyFromAsm_spec {s : Phys} {root : Nat}
    (h : ∀ i < len, ∃ b, s.mmuLoad root (src + i) = some b) (a : Phys.Access) :
    (s.uaccessCopyFromAsm root dst src len a).1 = 0 ∧
      (∀ i < len, s.mmuLoad root (src + i) =
        some ((s.uaccessCopyFromAsm root dst src len a).2.kernel (dst + i))) ∧
      ∀ x < dst, (s.uaccessCopyFromAsm root dst src len a).2.kernel x = a.kernel x := by
  induction len generalizing dst src a with
  | zero => exact ⟨rfl, fun i hi => absurd hi (Nat.not_lt_zero i), fun _ _ => rfl⟩
  | succ len ih =>
    obtain ⟨b, hb⟩ := h 0 (Nat.zero_lt_succ len)
    rw [Nat.add_zero] at hb
    unfold Phys.uaccessCopyFromAsm
    rw [hb]
    dsimp only
    have hnext : ∀ i < len, ∃ b, s.mmuLoad root (src + 1 + i) = some b := fun i hi => by
      rw [Nat.add_right_comm]
      exact h (i + 1) (Nat.succ_lt_succ hi)
    obtain ⟨h1, h2, h3⟩ := @ih (dst + 1) (src + 1) hnext
      ⟨Function.update a.kernel dst b, src :: a.loaded, dst :: a.stored⟩
    refine ⟨h1, fun i hi => ?_, fun x hx => ?_⟩
    · cases i with
      | zero =>
        simp only [Nat.add_zero]
        rw [hb, h3 dst (Nat.lt_succ_self dst)]
        exact congrArg some (Function.update_self dst b a.kernel).symm
      | succ i =>
        have := h2 i (Nat.lt_of_succ_lt_succ hi)
        rwa [Nat.add_right_comm, Nat.add_right_comm dst] at this
    · rw [h3 x (Nat.lt_succ_of_lt hx)]
      exact Function.update_of_ne (Nat.ne_of_lt hx) _ _

/-- `copy_from_user` loads all bytes, or there is one that it may not load. -/
theorem copyFromUser_spec (u : UserSpace) (dst : Nat) (hs : len ≠ 0 → src ≠ 0) (a : Phys.Access) :
    ((u.copyFromUser dst src len a).1 = 0 ∧ (∀ b, src ≤ b → b < src + len → u.MayLoad b) ∧
        ∀ i < len, u.phys.mmuLoad u.root (src + i) =
          some ((u.copyFromUser dst src len a).2.kernel (dst + i))) ∨
      ((u.copyFromUser dst src len a).1 = -1 ∧ ∃ b, src ≤ b ∧ b < src + len ∧ ¬ u.MayLoad b) := by
  unfold copyFromUser
  by_cases hlen : len = 0
  · subst hlen
    left
    refine ⟨?_, fun b h1 h2 => absurd h2 (Nat.not_lt.mpr h1),
      fun i hi => absurd hi (Nat.not_lt_zero i)⟩
    simp [Phys.userAccessOk, isUserRange]
  · have hiff : u.phys.userAccessOk u.root src len false = true ↔ _ :=
      Phys.userAccessOk_iff hlen u.root_ne
    cases hok : u.phys.userAccessOk u.root src len false with
    | false =>
      rw [if_pos Bool.not_false]
      refine .inr ⟨rfl, ?_⟩
      by_contra hc
      simp only [not_exists, not_and, Classical.not_not] at hc
      exact absurd (hiff.mpr ⟨hs hlen, hc⟩) (by simp [hok])
    | true =>
      rw [if_neg (by simp), if_neg hlen]
      obtain ⟨-, hmay⟩ := hiff.mp hok
      have hload : ∀ i < len, ∃ b, u.phys.mmuLoad u.root (src + i) = some b := fun i hi =>
        Phys.mmuLoad_of_may (hmay (src + i) (by omega) (by omega))
      obtain ⟨h1, h2, -⟩ := uaccessCopyFromAsm_spec hload a
      exact .inl ⟨h1, hmay, h2⟩

end UserSpace

end GenOS
