import GenOS.Mm.VmmRefine
import GenOS.Lib.Bytes

/-!
# Access to user memory

`cpu/uaccess.c`: the kernel's check of a user range and the bounded string copy. The check walks
the page tables of the running task; `Permits` is what the hardware asks of the words of such a
walk, and `lookup` gives these words, huge leaves included.

The copy runs on the hardware: `mmuLoad` is the byte a kernel-mode load reads at a virtual address,
`none` where it faults (the fixup then makes the assembly loop return `-1`). `Access` keeps the
kernel's memory and, beside it, the user addresses loaded and the kernel addresses stored to.
-/

namespace GenOS

/-- `USER_ADDR_MAX`. -/
abbrev userAddrMax : Nat := 0x800000000000

/-- `USER_STRING_MAX`. -/
abbrev userStringMax : Nat := 4096

/-- `is_user_range`. -/
def isUserRange (addr len : Nat) : Bool :=
  len == 0 || (addr != 0 && decide (addr < userAddrMax) && decide (len ≤ userAddrMax - addr))

namespace Phys

open Radix

/-- The loop of `user_access_ok`, from page `va` up to `stop`. -/
def pagesAccessible (s : Phys) (root : Nat) (write : Bool) (stop va : Nat) : Bool :=
  if va < stop then
    if !s.vmmUserAccessible root va write then false
    else pagesAccessible s root write stop (va + 4096)
  else true
termination_by stop - va
decreasing_by omega

/-- `user_access_ok`; `root` is the page table of the running task. -/
def userAccessOk (s : Phys) (root addr len : Nat) (write : Bool) : Bool :=
  if !isUserRange addr len then false
  else if len = 0 then true
  else s.pagesAccessible root write ((addr + len) % 2 ^ 64) (addr / 4096 * 4096)

/-! ## What the hardware asks -/

/-- A walk that allows user code the access: `USER` at every level and, for a write, `WRITE` at
every ancestor and `WRITE` or `COW` at the leaf. -/
def Permits (write : Bool) : List Word → Prop
  | [] => False
  | [leaf] => leaf.has pteUser = true ∧
      (write = true → leaf.has pteWrite = true ∨ leaf.has pteCow = true)
  | e :: es => e.has pteUser = true ∧ (write = true → e.has pteWrite = true) ∧ Permits write es

/-- User code may access the byte at `va`. -/
def UserMay (s : Phys) (root : Nat) (write : Bool) (va : Nat) : Prop :=
  va < userAddrMax ∧ ∃ es, s.lookup root (indexAt va) = some es ∧ Permits write es

/-- The same through a 4 KiB leaf, the only ones of user space. -/
def UserMaySmall (s : Phys) (root : Nat) (write : Bool) (va : Nat) : Prop :=
  va < userAddrMax ∧ ∃ es, s.lookup root (indexAt va) = some es ∧ es.length = 4 ∧ Permits write es

theorem UserMaySmall.userMay {s : Phys} {root va : Nat} {write : Bool}
    (h : s.UserMaySmall root write va) : s.UserMay root write va := by
  obtain ⟨hlt, es, hl, -, hp⟩ := h
  exact ⟨hlt, es, hl, hp⟩

theorem permits_cons {write : Bool} {e : Word} {es : List Word} (h : es ≠ []) :
    Permits write (e :: es) ↔
      e.has pteUser = true ∧ (write = true → e.has pteWrite = true) ∧ Permits write es := by
  cases es with
  | nil => exact absurd rfl h
  | cons => exact Iff.rfl

variable {s : Phys} {root va addr len : Nat} {write : Bool}

/-! ## The walk -/

/-- The code's test for a present user entry. -/
theorem presentUser_iff (w : Word) : (w &&& (ptePresent ||| pteUser) != ptePresent ||| pteUser) =
    !(w.has ptePresent && w.has pteUser) := by
  have hb : (w &&& (ptePresent ||| pteUser) = ptePresent ||| pteUser) ↔
      (w.getLsbD 0 = true ∧ w.getLsbD 2 = true) := by
    constructor
    · intro h
      have h0 := congrArg (fun x => BitVec.getLsbD x 0) h
      have h2 := congrArg (fun x => BitVec.getLsbD x 2) h
      simp only [BitVec.getLsbD_and, ptePresent, pteUser, BitVec.getLsbD_or, Word.getLsbD_shift]
        at h0 h2
      simpa using And.intro h0 h2
    · rintro ⟨h0, h2⟩
      apply BitVec.eq_of_getLsbD_eq
      intro i hi
      rw [BitVec.getLsbD_and, BitVec.getLsbD_or, ptePresent, pteUser, Word.getLsbD_shift,
        Word.getLsbD_shift]
      by_cases hi0 : i = 0
      · simp [hi0, h0]
      · by_cases hi2 : i = 2
        · simp [hi2, h2]
        · simp [hi0, hi2]
  rw [Word.has_present, Word.has_user, Bool.eq_iff_iff]
  simp only [bne_iff_ne, ne_eq, hb, Bool.not_eq_true', Bool.and_eq_false_iff, not_and_or,
    Bool.not_eq_true]

theorem writeOrCow_iff (w : Word) :
    w.has (pteWrite ||| pteCow) = (w.has pteWrite || w.has pteCow) := by
  unfold Word.has
  rw [BitVec.and_or_distrib_left, Bool.eq_iff_iff]
  simp only [bne_iff_ne, ne_eq, Bool.or_eq_true]
  rw [BitVec.or_eq_zero_iff]
  exact not_and_or

theorem userWalk_zero (s : Phys) (va table : Nat) (write : Bool) :
    s.userWalk va write 0 table = true ↔ (s.mem table (indexAt va 0)).has ptePresent = true ∧
      Permits write [s.mem table (indexAt va 0)] := by
  simp only [userWalk, presentUser_iff, writeOrCow_iff, Permits]
  by_cases hu : (s.mem table (indexAt va 0)).has pteUser = true
  · cases write <;> simp [hu]
  · simp [hu]

theorem userWalk_succ (s : Phys) (va level table : Nat) (write : Bool) :
    s.userWalk va write (level + 1) table = true ↔
      pageShape.child (s.mem table (indexAt va (level + 1))) =
          some (tableAt (s.mem table (indexAt va (level + 1)))) ∧
        (s.mem table (indexAt va (level + 1))).has pteUser = true ∧
        (write = true → (s.mem table (indexAt va (level + 1))).has pteWrite = true) ∧
        s.userWalk va write level (tableAt (s.mem table (indexAt va (level + 1)))) = true := by
  rw [userWalk]
  simp only [presentUser_iff, pageShape]
  by_cases hp : (s.mem table (indexAt va (level + 1))).has ptePresent = true
  · by_cases hl : (s.mem table (indexAt va (level + 1))).has pteLarge = true
    · simp [hl]
    · cases write <;> simp [hp, hl]
  · simp [hp]

/-- The walk accepts exactly the permitted paths that end in a 4 KiB leaf. -/
theorem userWalk_iff (s : Phys) (va : Nat) (write : Bool) : ∀ level table,
    s.userWalk va write level table = true ↔ ∃ es,
      path pageShape s.mem level table (indexAt va) = some es ∧ es.length = level + 1 ∧
        Permits write es
  | 0, table => by
    rw [userWalk_zero, path_zero]
    by_cases hp : (s.mem table (indexAt va 0)).has ptePresent = true
    · simp [pageShape, hp]
    · simp [pageShape, hp]
  | level + 1, table => by
    rw [userWalk_succ, userWalk_iff s va write level]
    constructor
    · rintro ⟨hc, hu, hw, es, h1, h2, h3⟩
      have hne : es ≠ [] := by
        rintro rfl
        cases h2
      exact ⟨_, by rw [path_of_child hc, h1]; rfl, by simp [h2],
        (permits_cons hne).mpr ⟨hu, hw, h3⟩⟩
    · rintro ⟨es', hpath, hlen, hperm⟩
      cases hc : pageShape.child (s.mem table (indexAt va (level + 1))) with
      | none =>
        -- a huge leaf ends the path early
        rw [path_of_none hc] at hpath
        split at hpath
        · obtain rfl := Option.some.inj hpath
          simp at hlen
        · cases hpath
      | some c =>
        obtain ⟨-, -, rfl⟩ := child_eq_some hc
        rw [path_of_child hc, Option.map_eq_some_iff] at hpath
        obtain ⟨es, h1, rfl⟩ := hpath
        have h2 : es.length = level + 1 := by simpa using hlen
        have hne : es ≠ [] := by
          rintro rfl
          cases h2
        obtain ⟨hu, hw, h3⟩ := (permits_cons hne).mp hperm
        exact ⟨rfl, hu, hw, es, h1, h2, h3⟩

/-- **One page**: `vmm_user_accessible` agrees with the hardware on 4 KiB leaves. -/
theorem vmmUserAccessible_iff (hr : root ≠ 0) :
    s.vmmUserAccessible root va write = true ↔ s.UserMaySmall root write va := by
  unfold vmmUserAccessible UserMaySmall
  by_cases hva : va < userAddrMax
  · have hn : va < 0x800000000000 := hva
    rw [if_neg (by simpa using ⟨hr, hn⟩), userWalk_iff]
    exact (and_iff_right hva).symm
  · have hn : 0x800000000000 ≤ va := Nat.le_of_not_lt hva
    rw [if_pos (by simp [hn])]
    simp [hva]

/-- The bytes of a page have one walk. -/
theorem userMaySmall_page {b : Nat} (h : b / 4096 = va / 4096) :
    s.UserMaySmall root write b ↔ s.UserMaySmall root write va := by
  have hlt : b < userAddrMax ↔ va < userAddrMax := by
    unfold userAddrMax
    omega
  unfold UserMaySmall lookup
  rw [path_key (indexAt_page h), hlt]

/-! ## The range -/

/-- The loop checks the page of every byte up to `stop`. -/
theorem pagesAccessible_iff (hr : root ≠ 0) (stop va : Nat) (ha : va % 4096 = 0) :
    s.pagesAccessible root write stop va = true ↔
      ∀ b, va ≤ b → b < stop → s.UserMaySmall root write b := by
  fun_induction pagesAccessible s root write stop va with
  | case1 va hlt hn =>
    simp only [Bool.not_eq_true', ← Bool.not_eq_true, vmmUserAccessible_iff hr] at hn
    simp only [Bool.false_eq_true, false_iff]
    exact fun h => hn (h va (Nat.le_refl va) hlt)
  | case2 va hlt hy ih =>
    simp only [Bool.not_eq_true', Bool.not_eq_false, vmmUserAccessible_iff hr] at hy
    rw [ih (by omega)]
    refine ⟨fun h b h1 h2 => ?_, fun h b h1 h2 => h b (by omega) h2⟩
    by_cases hb : b < va + 4096
    · exact (userMaySmall_page (by omega)).mpr hy
    · exact h b (by omega) h2
  | case3 va hge =>
    simp only [true_iff]
    exact fun b h1 h2 => absurd h2 (by omega)

/-- **A range**: the check accepts exactly the user ranges above address 0 whose bytes user code may
access through 4 KiB leaves. -/
theorem userAccessOk_iff (hlen : len ≠ 0) (hr : root ≠ 0) :
    s.userAccessOk root addr len write = true ↔
      addr ≠ 0 ∧ ∀ b, addr ≤ b → b < addr + len → s.UserMaySmall root write b := by
  have hmax : userAddrMax = 0x800000000000 := rfl
  unfold userAccessOk
  rw [if_neg hlen]
  by_cases hu : isUserRange addr len = true
  · have hu' := hu
    simp only [isUserRange, Bool.or_eq_true, beq_iff_eq, hlen, false_or, Bool.and_eq_true,
      bne_iff_ne, ne_eq, decide_eq_true_eq] at hu'
    obtain ⟨⟨h0, hlt⟩, hle⟩ := hu'
    rw [if_neg (by simp [hu]), pagesAccessible_iff hr _ _ (by omega), Nat.mod_eq_of_lt (by omega)]
    constructor
    · exact fun h => ⟨h0, fun b h1 h2 => h b (by omega) h2⟩
    · rintro ⟨-, h⟩ b h1 h2
      -- the first page may start below the range
      by_cases hb : addr ≤ b
      · exact h b hb h2
      · exact (userMaySmall_page (by omega)).mp (h addr (Nat.le_refl _) (by omega))
  · rw [if_pos (by simpa using hu)]
    simp only [Bool.false_eq_true, false_iff, not_and]
    intro h0 h
    have h1 := (h addr (Nat.le_refl _) (by omega)).1
    have h2 := (h (addr + len - 1) (by omega) (by omega)).1
    refine hu ?_
    simp only [isUserRange, Bool.or_eq_true, beq_iff_eq, hlen, false_or, Bool.and_eq_true,
      bne_iff_ne, ne_eq, decide_eq_true_eq]
    exact ⟨⟨h0, h1⟩, by omega⟩

/-- Without a root nothing is accepted. -/
theorem userAccessOk_null (hlen : len ≠ 0) : s.userAccessOk 0 addr len write = false := by
  unfold userAccessOk
  by_cases hu : isUserRange addr len = true
  · have hu' := hu
    simp only [isUserRange, Bool.or_eq_true, beq_iff_eq, hlen, false_or, Bool.and_eq_true,
      bne_iff_ne, ne_eq, decide_eq_true_eq] at hu'
    have hmax : userAddrMax = 0x800000000000 := rfl
    rw [if_neg (by simp [hu]), if_neg hlen, pagesAccessible, if_pos (by omega)]
    simp [vmmUserAccessible]
  · rw [if_pos (by simpa using hu)]

/-- **User-range checks agree with the hardware.** -/
theorem user_access_ok_agrees (s : Phys) (root addr len : Nat) (write : Bool) (hlen : len ≠ 0) :
    (s.userAccessOk root addr len write = true →
      ∀ b, addr ≤ b → b < addr + len → s.UserMay root write b) ∧
    (root ≠ 0 → addr ≠ 0 → (∀ b, addr ≤ b → b < addr + len → s.UserMaySmall root write b) →
      s.userAccessOk root addr len write = true) := by
  refine ⟨fun h => ?_, fun hr h0 h => (userAccessOk_iff hlen hr).mpr ⟨h0, h⟩⟩
  have hr : root ≠ 0 := by
    rintro rfl
    rw [userAccessOk_null hlen] at h
    cases h
  exact fun b h1 h2 => (((userAccessOk_iff hlen hr).mp h).2 b h1 h2).userMay

/-- Five frames: one table of each level, whose entries all point to the next frame, and a page of
zeros but for `a` in the last byte and `b` in the first. -/
def flatPhys : Phys where
  pmm :=
    { bitmap := fun _ => 0x3F#8, bitmapSize := 1, totalPages := 6, freePages := 0
      refcounts := fun i => if i = 0 then uint32Max else 1
      lastAllocIndex := 0 }
  mem f i := if f < 0x5000 then tableEntry (f + 0x1000)
    else if i = 511 then 0x6100000000000000#64 else if i = 0 then 0x62#64 else 0#64
  kernelPml4 := 0
  deny := fun _ => false
  asked := 0

theorem flatPhys_mem {f : Nat} (h : f < 0x5000) (i : Nat) :
    flatPhys.mem f i = tableEntry (f + 0x1000) := if_pos h

theorem flatPhys_child {f : Nat} (ha : f % 4096 = 0) (h : f < 0x5000) (i : Nat) :
    pageShape.child (flatPhys.mem f i) = some (f + 0x1000) := by
  rw [flatPhys_mem h]
  exact child_tableEntry (by omega) (by omega)

theorem flatPhys_lookup (k : Nat → Nat) : flatPhys.lookup 0x1000 k =
    some [tableEntry 0x2000, tableEntry 0x3000, tableEntry 0x4000, tableEntry 0x5000] := by
  have hlive : pageShape.live (tableEntry 0x5000) = true := by decide
  unfold lookup
  rw [path_of_child (flatPhys_child (by decide) (by decide) _),
    path_of_child (flatPhys_child (by decide) (by decide) _),
    path_of_child (flatPhys_child (by decide) (by decide) _), path_zero]
  simp only [flatPhys_mem (show 0x1000 < 0x5000 by decide),
    flatPhys_mem (show 0x1000 + 0x1000 < 0x5000 by decide),
    flatPhys_mem (show 0x1000 + 0x1000 + 0x1000 < 0x5000 by decide),
    flatPhys_mem (show 0x1000 + 0x1000 + 0x1000 + 0x1000 < 0x5000 by decide), Nat.reduceAdd, hlive,
    if_true, Option.map_some]

theorem flatPhys_may {va : Nat} (h : va < userAddrMax) (write : Bool) :
    flatPhys.UserMaySmall 0x1000 write va := by
  refine ⟨h, _, flatPhys_lookup _, rfl, ?_⟩
  cases write <;> simp only [Permits] <;> decide

theorem user_access_ok_agrees_flat :
    flatPhys.userAccessOk 0x1000 5000 9000 true = true ∧
    ∀ b, 5000 ≤ b → b < 5000 + 9000 → flatPhys.UserMay 0x1000 true b :=
  have h := user_access_ok_agrees flatPhys 0x1000 5000 9000 true (by decide)
  have hok := h.2 (by decide) (by decide) fun b _ hb =>
    flatPhys_may (Nat.lt_trans hb (by decide)) true
  ⟨hok, h.1 hok⟩

/-! ## The hardware and the copy loop -/

/-- The physical address a walk that reads `es` gives `va`: a leaf above the last level maps a
larger page. -/
def walkAddress (va : Nat) (es : List Word) : Nat :=
  let size := 2 ^ (12 + 9 * (4 - es.length))
  tableAt (es.getLastD 0#64) / size * size + va % size

/-- Byte `addr` of physical memory. -/
def physByte (s : Phys) (addr : Nat) : BitVec 8 :=
  (s.mem (addr / 4096 * 4096) (addr % 4096 / 8)).extractLsb' (8 * (addr % 8)) 8

/-- The byte a kernel-mode load reads at `va`, or a page fault. -/
def mmuLoad (s : Phys) (root va : Nat) : Option (BitVec 8) :=
  if canonical va then (s.lookup root (indexAt va)).map fun es => s.physByte (walkAddress va es)
  else none

/-- The kernel's memory, the user addresses loaded and the kernel addresses stored to. -/
structure Access where
  kernel : Bytes.Mem
  loaded : List Nat
  stored : List Nat

/-- `uaccess_copy_from_asm`: a load that faults is not made, and ends the loop with `-1`. -/
def uaccessCopyFromAsm (s : Phys) (root : Nat) : (dst src len : Nat) → Access → Int × Access
  | _, _, 0, a => (0, a)
  | dst, src, len + 1, a =>
    match s.mmuLoad root src with
    | none => (-1, a)
    | some byte => uaccessCopyFromAsm s root (dst + 1) (src + 1) len
        ⟨Function.update a.kernel dst byte, src :: a.loaded, dst :: a.stored⟩

/-- The loop of `copy_user_string`, from byte `i` on with `left` bytes of capacity left. -/
def copyStringLoop (s : Phys) (root dst addr : Nat) : (left i : Nat) → Access → Int × Access
  | 0, _, a => (-1, a)
  | left + 1, i, a =>
    if (i == 0 || (addr + i) % 4096 == 0) && !s.userAccessOk root (addr + i) 1 false then (-1, a)
    else
      match s.uaccessCopyFromAsm root (dst + i) (addr + i) 1 a with
      | (status, a) =>
        if status ≠ 0 then (-1, a)
        else if a.kernel (dst + i) = 0#8 then ((i : Int), a)
        else copyStringLoop s root dst addr left (i + 1) a

/-- `copy_user_string`. -/
def copyUserString (s : Phys) (root dst src capacity : Nat) (a : Access) : Int × Access :=
  if capacity = 0 || decide (userStringMax < capacity) || !isUserRange src 1 then (-1, a)
  else s.copyStringLoop root dst src capacity 0 a

/-- The string at `addr` has length `n`: its first zero byte is at distance `n`, and user code may
read every byte up to it. -/
structure StringAt (s : Phys) (root addr n : Nat) : Prop where
  readable : ∀ i ≤ n, s.UserMaySmall root false (addr + i)
  text : ∀ i < n, s.mmuLoad root (addr + i) ≠ some 0#8
  zero : s.mmuLoad root (addr + n) = some 0#8

/-- The bytes before `i` are readable and not zero. -/
def TextBefore (s : Phys) (root addr i : Nat) : Prop :=
  ∀ j < i, s.UserMaySmall root false (addr + j) ∧ s.mmuLoad root (addr + j) ≠ some 0#8

variable {dst i left : Nat} {a : Access}

theorem TextBefore.succ {b : BitVec 8} (h : s.TextBefore root addr i)
    (hr : s.UserMaySmall root false (addr + i)) (hl : s.mmuLoad root (addr + i) = some b)
    (hb : b ≠ 0#8) : s.TextBefore root addr (i + 1) := by
  intro j hj
  rcases Nat.lt_succ_iff_lt_or_eq.mp hj with hj | rfl
  · exact h j hj
  · exact ⟨hr, fun hz => hb (Option.some.inj (hl.symm.trans hz))⟩

/-- A readable byte does not fault. -/
theorem mmuLoad_of_may (h : s.UserMaySmall root write va) : ∃ b, s.mmuLoad root va = some b := by
  obtain ⟨hlt, es, hl, -⟩ := h
  have hc : canonical va = true := by
    rw [canonical_iff]
    exact .inl hlt
  exact ⟨_, by rw [mmuLoad, if_pos hc, hl]; rfl⟩

/-- What the copy of byte `i` leaves. -/
def Access.put (a : Access) (dst src : Nat) (b : BitVec 8) : Access :=
  ⟨Function.update a.kernel dst b, src :: a.loaded, dst :: a.stored⟩

/-- One round on a readable byte. -/
theorem copyStringLoop_read (hr : root ≠ 0) (h0 : addr ≠ 0) {b : BitVec 8}
    (hread : s.UserMaySmall root false (addr + i)) (hl : s.mmuLoad root (addr + i) = some b) :
    s.copyStringLoop root dst addr (left + 1) i a =
      if b = 0#8 then ((i : Int), a.put (dst + i) (addr + i) b)
      else s.copyStringLoop root dst addr left (i + 1) (a.put (dst + i) (addr + i) b) := by
  have hok : s.userAccessOk root (addr + i) 1 false = true := by
    refine (userAccessOk_iff Nat.one_ne_zero hr).mpr ⟨by omega, fun x h1 h2 => ?_⟩
    rwa [show x = addr + i by omega]
  simp [copyStringLoop, hok, uaccessCopyFromAsm, hl, Access.put]

/-- One round on a byte that is not readable: only the first byte of a page can be the first such
one, and the code checks that one. -/
theorem copyStringLoop_stop (hr : root ≠ 0) (hb : s.TextBefore root addr i)
    (hread : ¬ s.UserMaySmall root false (addr + i)) :
    s.copyStringLoop root dst addr (left + 1) i a = (-1, a) := by
  have hok : s.userAccessOk root (addr + i) 1 false = false := by
    rw [← Bool.not_eq_true, userAccessOk_iff Nat.one_ne_zero hr]
    exact fun h => hread (h.2 (addr + i) (Nat.le_refl _) (by omega))
  have hpage : i = 0 ∨ (addr + i) % 4096 = 0 := by
    by_contra hc
    obtain ⟨h1, h2⟩ := not_or.mp hc
    have hprev := (hb (i - 1) (by omega)).1
    exact hread ((userMaySmall_page (by omega)).mp hprev)
  have hcheck : ((i == 0 || (addr + i) % 4096 == 0) &&
      !s.userAccessOk root (addr + i) 1 false) = true := by
    simpa [hok] using hpage
  rw [copyStringLoop, if_pos hcheck]

/-- What the copy did, from byte `i` of the string on. -/
structure CopySpec (s : Phys) (root dst addr left i : Nat) (a : Access) (r : Int × Access) :
    Prop where
  result : (∃ n, i ≤ n ∧ n < i + left ∧ s.StringAt root addr n ∧ r.1 = n ∧
      (∀ j, i ≤ j → j ≤ n → s.mmuLoad root (addr + j) = some (r.2.kernel (dst + j))) ∧
      Bytes.Outside a.kernel r.2.kernel (dst + i) (n + 1 - i)) ∨
    (r.1 = -1 ∧ ∀ n < i + left, ¬ s.StringAt root addr n)
  outside : Bytes.Outside a.kernel r.2.kernel (dst + i) left
  loaded : ∀ x ∈ r.2.loaded, x ∈ a.loaded ∨ ∃ j, i ≤ j ∧ j < i + left ∧ x = addr + j ∧
    s.UserMaySmall root false x ∧ ∀ k < j, s.mmuLoad root (addr + k) ≠ some 0#8
  stored : ∀ x ∈ r.2.stored, x ∈ a.stored ∨ (dst + i ≤ x ∧ x < dst + i + left)

theorem put_outside (a : Access) (dst src : Nat) (b : BitVec 8) :
    Bytes.Outside a.kernel (a.put dst src b).kernel dst 1 :=
  fun _ hx => Function.update_of_ne (by omega) _ _

theorem put_kernel (a : Access) (dst src : Nat) (b : BitVec 8) :
    (a.put dst src b).kernel dst = b := Function.update_self ..

/-- The copy ends at byte `i`. -/
theorem CopySpec.found (hb : s.TextBefore root addr i)
    (hread : s.UserMaySmall root false (addr + i))
    (hl : s.mmuLoad root (addr + i) = some 0#8) :
    CopySpec s root dst addr (left + 1) i a ((i : Int), a.put (dst + i) (addr + i) 0#8) := by
  have hout := put_outside a (dst + i) (addr + i) 0#8
  have hstr : s.StringAt root addr i := by
    refine ⟨fun j hj => ?_, fun k hk => (hb k hk).2, hl⟩
    rcases Nat.lt_or_eq_of_le hj with hj | rfl
    · exact (hb j hj).1
    · exact hread
  refine ⟨.inl ⟨i, Nat.le_refl i, by omega, hstr, rfl, fun j h1 h2 => ?_, ?_⟩, ?_, ?_, ?_⟩
  · obtain rfl : j = i := by omega
    exact hl.trans (congrArg some (put_kernel a _ _ _).symm)
  · exact hout.mono (Nat.le_refl _) (by omega)
  · exact hout.mono (Nat.le_refl _) (by omega)
  · intro x hx
    rcases List.mem_cons.mp hx with rfl | hx
    · exact .inr ⟨i, Nat.le_refl i, by omega, rfl, hread, hstr.text⟩
    · exact .inl hx
  · intro x hx
    rcases List.mem_cons.mp hx with rfl | hx
    · exact .inr ⟨Nat.le_refl _, by omega⟩
    · exact .inl hx

/-- The copy goes on after byte `i`. -/
theorem CopySpec.step {b : BitVec 8} {r : Int × Access} (hb : s.TextBefore root addr i)
    (hread : s.UserMaySmall root false (addr + i)) (hl : s.mmuLoad root (addr + i) = some b)
    (h : CopySpec s root dst addr left (i + 1) (a.put (dst + i) (addr + i) b) r) :
    CopySpec s root dst addr (left + 1) i a r := by
  have hout := put_outside a (dst + i) (addr + i) b
  refine ⟨?_, ?_, ?_, ?_⟩
  · rcases h.result with ⟨n, h1, h2, hstr, hr, hcopy, hn⟩ | ⟨hr, hnone⟩
    · refine .inl ⟨n, by omega, by omega, hstr, hr, fun j hj1 hj2 => ?_, ?_⟩
      · rcases Nat.lt_or_eq_of_le hj1 with hj | rfl
        · exact hcopy j hj hj2
        · rw [hl, hn (dst + i) (by omega), put_kernel]
      · exact (hout.mono (Nat.le_refl _) (by omega)).trans (hn.mono (by omega) (by omega))
    · exact .inr ⟨hr, fun n hn => hnone n (by omega)⟩
  · exact (hout.mono (Nat.le_refl _) (by omega)).trans (h.outside.mono (by omega) (by omega))
  · intro x hx
    rcases h.loaded x hx with hx | ⟨j, h1, h2, h3⟩
    · rcases List.mem_cons.mp hx with rfl | hx
      · exact .inr ⟨i, Nat.le_refl i, by omega, rfl, hread, fun k hk => (hb k hk).2⟩
      · exact .inl hx
    · exact .inr ⟨j, by omega, by omega, h3⟩
  · intro x hx
    rcases h.stored x hx with hx | ⟨h1, h2⟩
    · rcases List.mem_cons.mp hx with rfl | hx
      · exact .inr ⟨Nat.le_refl _, by omega⟩
      · exact .inl hx
    · exact .inr ⟨by omega, by omega⟩

/-- A copy that ends without a terminator. -/
theorem CopySpec.failed (h : ∀ n < i + left, ¬ s.StringAt root addr n) :
    CopySpec s root dst addr left i a (-1, a) :=
  ⟨.inr ⟨rfl, h⟩, .refl, fun _ hx => .inl hx, fun _ hx => .inl hx⟩

theorem copyStringLoop_spec (hr : root ≠ 0) (h0 : addr ≠ 0) (left : Nat) :
    ∀ {i : Nat} {a : Access}, s.TextBefore root addr i →
      CopySpec s root dst addr left i a (s.copyStringLoop root dst addr left i a) := by
  induction left with
  | zero => exact fun hb => .failed fun n hn h => (hb n hn).2 h.zero
  | succ left ih =>
    intro i a hb
    by_cases hread : s.UserMaySmall root false (addr + i)
    · obtain ⟨b, hl⟩ := mmuLoad_of_may hread
      rw [copyStringLoop_read hr h0 hread hl]
      by_cases hz : b = 0#8
      · subst hz
        rw [if_pos rfl]
        exact .found hb hread hl
      · rw [if_neg hz]
        exact .step hb hread hl (ih (hb.succ hread hl hz))
    · rw [copyStringLoop_stop hr hb hread]
      refine .failed fun n _ h => ?_
      by_cases hlt : n < i
      · exact (hb n hlt).2 h.zero
      · exact hread (h.readable i (by omega))

theorem StringAt.unique {n m : Nat} (h : s.StringAt root addr n) (h' : s.StringAt root addr m) :
    n = m := by
  rcases Nat.lt_trichotomy n m with hlt | rfl | hlt
  · exact absurd h.zero (h'.text n hlt)
  · rfl
  · exact absurd h'.zero (h.text m hlt)

theorem copyUserString_spec (hr : root ≠ 0) (h0 : addr ≠ 0) {capacity : Nat} (h1 : 1 ≤ capacity)
    (hmax : capacity ≤ userStringMax) (a : Access) :
    CopySpec s root dst addr capacity 0 a (s.copyUserString root dst addr capacity a) := by
  unfold copyUserString
  by_cases hu : isUserRange addr 1 = true
  · rw [if_neg (by simp only [hu]; simp; omega)]
    exact copyStringLoop_spec hr h0 capacity fun j hj => absurd hj (Nat.not_lt_zero j)
  · rw [if_pos (by simp [hu])]
    refine .failed fun n _ h => hu ?_
    have hlt := (h.readable 0 (Nat.zero_le n)).1
    have hmax : userAddrMax = 0x800000000000 := rfl
    simp only [isUserRange, Bool.or_eq_true, beq_iff_eq, Bool.and_eq_true, bne_iff_ne, ne_eq,
      decide_eq_true_eq]
    exact .inr ⟨⟨h0, by omega⟩, by omega⟩

/-- **The string copy is exact and never over-reads.** -/
theorem copy_user_string_exact (s : Phys) (root dst src capacity : Nat) (kernel : Bytes.Mem)
    (hr : root ≠ 0) (h0 : src ≠ 0) (h1 : 1 ≤ capacity) (hmax : capacity ≤ userStringMax) :
    let r := s.copyUserString root dst src capacity ⟨kernel, [], []⟩
    (∀ n : Nat, r.1 = n ↔ n < capacity ∧ s.StringAt root src n) ∧
    (∀ n : Nat, r.1 = n → (∀ i < n, s.mmuLoad root (src + i) = some (r.2.kernel (dst + i))) ∧
      r.2.kernel (dst + n) = 0#8 ∧ Bytes.Outside kernel r.2.kernel dst (n + 1)) ∧
    ((∀ n < capacity, ¬ s.StringAt root src n) → r.1 = -1) ∧
    (∀ x ∈ r.2.loaded, ∃ i < capacity, x = src + i ∧ s.UserMaySmall root false x ∧
      ∀ j < i, s.mmuLoad root (src + j) ≠ some 0#8) ∧
    (∀ x ∈ r.2.stored, dst ≤ x ∧ x < dst + capacity) ∧
    Bytes.Outside kernel r.2.kernel dst capacity := by
  intro r
  have h : CopySpec s root dst src capacity 0 ⟨kernel, [], []⟩ r :=
    copyUserString_spec hr h0 h1 hmax _
  refine ⟨fun n => ?_, fun n hn => ?_, fun hnone => ?_, fun x hx => ?_, fun x hx => ?_, ?_⟩
  · rcases h.result with ⟨m, -, hm, hstr, hres, -⟩ | ⟨hres, hnone⟩
    · rw [hres]
      constructor
      · intro heq
        obtain rfl : m = n := by exact_mod_cast heq
        exact ⟨by omega, hstr⟩
      · rintro ⟨-, hstr'⟩
        exact congrArg Nat.cast (hstr.unique hstr')
    · rw [hres]
      exact ⟨fun heq => by omega, fun ⟨hn, hstr⟩ => absurd hstr (hnone n (by omega))⟩
  · rcases h.result with ⟨m, -, hm, hstr, hres, hcopy, hout⟩ | ⟨hres, hnone⟩
    · obtain rfl : m = n := by
        rw [hres] at hn
        exact_mod_cast hn
      refine ⟨fun i hi => hcopy i (Nat.zero_le i) (Nat.le_of_lt hi), ?_, hout⟩
      have hz := hcopy m (Nat.zero_le m) (Nat.le_refl m)
      exact (Option.some.inj (hz.symm.trans hstr.zero))
    · rw [hres] at hn
      omega
  · rcases h.result with ⟨m, -, hm, hstr, -⟩ | ⟨hres, -⟩
    · exact absurd hstr (hnone m (by omega))
    · exact hres
  · rcases h.loaded x hx with hx | ⟨j, -, hj, hx⟩
    · cases hx
    · exact ⟨j, by omega, hx⟩
  · rcases h.stored x hx with hx | hx
    · cases hx
    · exact hx
  · exact h.outside

/-- The string `ab` in two pages. -/
theorem flatPhys_text {i : Nat} (hi : i ≤ 2) :
    flatPhys.mmuLoad 0x1000 (8191 + i) = some ([0x61#8, 0x62#8].getD i 0#8) := by
  have hlt : 8191 + 2 < userAddrMax := by decide
  have hc : canonical (8191 + i) = true := canonical_iff.mpr (.inl (by omega))
  rw [mmuLoad, if_pos hc, flatPhys_lookup]
  rcases (by omega : i = 0 ∨ i = 1 ∨ i = 2) with rfl | rfl | rfl
  · decide
  · decide
  · decide

theorem copy_user_string_exact_flat :
    let r := flatPhys.copyUserString 0x1000 0 8191 10 ⟨fun _ => 1#8, [], []⟩
    r.1 = (2 : Nat) ∧ r.2.kernel 0 = 0x61#8 ∧ r.2.kernel 1 = 0x62#8 ∧ r.2.kernel 2 = 0#8 := by
  have h := copy_user_string_exact flatPhys 0x1000 0 8191 10 (fun _ => 1#8) (by decide) (by decide)
    (by decide) (by decide)
  have hlt : 8191 + 2 < userAddrMax := by decide
  have hstr : flatPhys.StringAt 0x1000 8191 2 := by
    refine ⟨fun i hi => flatPhys_may (by omega) false, fun i hi => ?_, flatPhys_text (by decide)⟩
    rw [flatPhys_text (Nat.le_of_lt hi)]
    rcases (by omega : i = 0 ∨ i = 1) with rfl | rfl
    · decide
    · decide
  have hres := (h.1 2).mpr ⟨by decide, hstr⟩
  obtain ⟨hbytes, hzero, -⟩ := h.2.1 2 hres
  have h0 := (hbytes 0 (by decide)).symm.trans (flatPhys_text (by decide))
  have h1 := (hbytes 1 (by decide)).symm.trans (flatPhys_text (by decide))
  exact ⟨hres, Option.some.inj h0, Option.some.inj h1, hzero⟩

end Phys

end GenOS
