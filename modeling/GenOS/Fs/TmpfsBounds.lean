import GenOS.Fs.TmpfsFile
import GenOS.Lib.Checked

/-!
# Accesses of `tmpfs`

`tmpfs_write` and `tmpfs_read` with every index of the loops that copy checked against the capacity.
The loop that zeroes a grown buffer is bounded by the new capacity itself. `offset + count` wraps:
that is the one way out of the buffer.
-/

namespace GenOS

open Checked

variable {fs : Tmpfs} {k offset cap n : Nat} {src : List UInt8} {data : Nat → UInt8}
  {alloc : HeapBlockBytes}

namespace TmpfsFile

/-- The loop of `tmpfs_write` that stores. -/
def storeBytesChecked (cap : Nat) (data : Nat → UInt8) :
    (offset : Nat) → List UInt8 → Except Fault (Nat → UInt8)
  | _, [] => .ok data
  | offset, b :: src =>
    if offset % 18446744073709551616 < cap then
      storeBytesChecked cap (Function.update data (offset % 18446744073709551616) b)
        (offset + 1) src
    else .error .outOfBounds

/-- The loop of `tmpfs_read`. -/
def loadBytesChecked (cap : Nat) (data : Nat → UInt8) :
    (offset count : Nat) → Except Fault (List UInt8)
  | _, 0 => .ok []
  | offset, count + 1 =>
    if offset % 18446744073709551616 < cap then
      (data (offset % 18446744073709551616) :: ·) <$> loadBytesChecked cap data (offset + 1) count
    else .error .outOfBounds

theorem storeBytesChecked_eq (cap : Nat) (data : Nat → UInt8) (offset : Nat) (src : List UInt8) :
    storeBytesChecked cap data offset src =
      if ∀ i < src.length, (offset + i) % 18446744073709551616 < cap then
        .ok (storeBytes data offset src)
      else .error .outOfBounds := by
  induction src generalizing data offset with
  | nil => exact (if_pos nofun).symm
  | cons b src ih =>
    rw [storeBytesChecked, ih]
    by_cases h0 : offset % 18446744073709551616 < cap
    · rw [if_pos h0]
      refine if_congr ⟨fun h i hi => ?_, fun h i hi => ?_⟩ rfl rfl
      · cases i with
        | zero => exact h0
        | succ i =>
          rw [← Nat.add_assoc, Nat.add_right_comm]
          exact h i (Nat.lt_of_succ_lt_succ hi)
      · rw [Nat.add_right_comm, Nat.add_assoc]
        exact h (i + 1) (Nat.succ_lt_succ hi)
    · rw [if_neg h0, if_neg fun h => h0 (h 0 (Nat.zero_lt_succ _))]

theorem loadBytesChecked_eq (data : Nat → UInt8) {offset count : Nat} (h : offset + count ≤ cap)
    (hc : cap ≤ 18446744073709551616) :
    loadBytesChecked cap data offset count =
      .ok ((List.range count).map fun i => data (offset + i)) := by
  induction count generalizing offset with
  | zero => rfl
  | succ count ih =>
    have hmod : offset % 18446744073709551616 = offset := Nat.mod_eq_of_lt (by omega)
    rw [loadBytesChecked, hmod, if_pos (by omega), ih (by omega), List.range_succ_eq_map,
      List.map_cons, List.map_map]
    simp only [Functor.map, Except.map, Nat.add_zero, Except.ok.injEq, List.cons.injEq, true_and]
    refine List.map_congr_left fun i _ => ?_
    show data (offset + 1 + i) = data (offset + (i + 1))
    rw [Nat.add_assoc, Nat.add_comm 1]

end TmpfsFile

namespace Tmpfs

/-- `tmpfs_write`. -/
def tmpfsWriteChecked (fs : Tmpfs) (index offset : Nat) (src : List UInt8)
    (alloc : HeapBlockBytes) : Except Fault (Tmpfs × Int) :=
  if tmpfsMaxFiles ≤ index then .ok (fs, -1)
  else if (fs index).inUse = false then .ok (fs, -1)
  else
    let f := fs index
    let endPos := (offset + src.length) % 18446744073709551616
    let count :=
      if tmpfsMaxSize < endPos then (if offset < tmpfsMaxSize then tmpfsMaxSize - offset else 0)
      else src.length
    let endPos :=
      if tmpfsMaxSize < endPos then (offset + count) % 18446744073709551616 else endPos
    if count = 0 then .ok (fs, 0)
    else
      match f.grow endPos alloc with
      | none => .ok (fs, -1)
      | some f => do
        let data ← TmpfsFile.storeBytesChecked f.capacity f.data offset (src.take count)
        return (Function.update fs index
          { f with data, size := if f.size < endPos then endPos else f.size },
          toInt32 (count % 4294967296))

/-- `tmpfs_read`. -/
def tmpfsReadChecked (fs : Tmpfs) (index offset count : Nat) : Except Fault (Int × List UInt8) :=
  if tmpfsMaxFiles ≤ index then .ok (-1, [])
  else if (fs index).inUse = false then .ok (-1, [])
  else
    let f := fs index
    if f.size ≤ offset then .ok (0, [])
    else do
      let remaining := f.size - offset
      let count := if remaining < count then remaining else count
      let bytes ← TmpfsFile.loadBytesChecked f.capacity f.data offset count
      return (toInt32 (count % 4294967296), bytes)

theorem tmpfsReadChecked_eq (h : fs.Bounded) (k offset count : Nat) :
    fs.tmpfsReadChecked k offset count = .ok (fs.tmpfsRead k offset count) := by
  unfold tmpfsReadChecked tmpfsRead
  split
  · rfl
  · split
    · rfl
    · dsimp only
      split
      · rfl
      · have hsize := (h k).size
        have hcap := (h k).capacity
        simp only [tmpfsMaxSize] at hcap
        rw [TmpfsFile.loadBytesChecked_eq _ (by split <;> omega) (by omega)]
        rfl

/-- `tmpfs_write` stores outside the buffer: the end of the range wraps to one that is accepted. -/
structure WriteStrays (fs : Tmpfs) (k offset len : Nat) (alloc : HeapBlockBytes) : Prop where
  index : k < tmpfsMaxFiles
  inUse : (fs k).inUse = true
  wraps : 18446744073709551616 ≤ offset + len
  accepted : offset + len - 18446744073709551616 ≤ tmpfsMaxSize
  room : (fs k).capacity < offset + len - 18446744073709551616 → alloc.isSome

/-- Every store is in the buffer, the sizes keep their bounds, and the loop that doubles the
capacity ends. -/
structure WriteSafe (fs : Tmpfs) (k offset : Nat) (src : List UInt8) (alloc : HeapBlockBytes) :
    Prop where
  inBounds : fs.tmpfsWriteChecked k offset src alloc = .ok (fs.tmpfsWrite k offset src alloc)
  bounded : (fs.tmpfsWrite k offset src alloc).1.Bounded
  ends : k < tmpfsMaxFiles → (fs k).inUse = true → writeCount offset src.length ≠ 0 →
    ∃ n, writeEnd offset src.length ≤
      TmpfsFile.growCap (writeEnd offset src.length) n (fs k).capacity

theorem tmpfsWriteChecked_of_inUse (hk : k < tmpfsMaxFiles) (hu : (fs k).inUse = true)
    (offset : Nat) (src : List UInt8) (alloc : HeapBlockBytes) :
    fs.tmpfsWriteChecked k offset src alloc =
      if writeCount offset src.length = 0 then .ok (fs, 0)
      else
        match (fs k).grow (writeEnd offset src.length) alloc with
        | none => .ok (fs, -1)
        | some g =>
          if ∀ i < (src.take (writeCount offset src.length)).length,
              (offset + i) % 18446744073709551616 < g.capacity then
            .ok (fs.stored k g offset src, toInt32 (writeCount offset src.length % 4294967296))
          else .error .outOfBounds := by
  unfold tmpfsWriteChecked
  rw [if_neg (Nat.not_le.mpr hk), if_neg (by simp [hu])]
  refine if_congr Iff.rfl rfl ?_
  show (match (fs k).grow (writeEnd offset src.length) alloc with
    | none => _
    | some f => _) = _
  cases (fs k).grow (writeEnd offset src.length) alloc with
  | none => rfl
  | some g =>
    change TmpfsFile.storeBytesChecked g.capacity g.data offset
        (src.take (writeCount offset src.length)) >>= (fun data => pure (Function.update fs k
          { g with
            data
            size := if g.size < writeEnd offset src.length then writeEnd offset src.length
              else g.size }, toInt32 (writeCount offset src.length % 4294967296))) = _
    rw [TmpfsFile.storeBytesChecked_eq]
    dsimp only
    split
    · rfl
    · rfl

/-- A range that does not wrap ends where the buffer does, or before. One that does reaches the
last address. -/
theorem write_inBounds_iff {g : TmpfsFile} (hb : fs.Bounded) (hu : (fs k).inUse = true)
    (ho : offset < 18446744073709551616) (hl : src.length < 18446744073709551616)
    (h0 : writeCount offset src.length ≠ 0)
    (hg : (fs k).grow (writeEnd offset src.length) alloc = some g) :
    (∀ i < (src.take (writeCount offset src.length)).length,
      (offset + i) % 18446744073709551616 < g.capacity) ↔
      offset + src.length < 18446744073709551616 := by
  obtain ⟨g', hg', hgrown⟩ : ∃ g', (fs k).grow (writeEnd offset src.length) alloc = some g' ∧
      TmpfsFile.Grown (fs k) g' (writeEnd offset src.length) := by
    rcases TmpfsFile.grow_cases (hb k) hu (writeEnd_eq h0).2 alloc with ⟨_, _, hnone⟩ | ⟨_, h⟩
    · exact absurd (hg.symm.trans hnone) nofun
    · exact h
  obtain rfl := Option.some.inj (hg.symm.trans hg')
  have hreach := hgrown.reaches
  have hcap := hgrown.capacity
  rw [List.length_take]
  constructor
  · intro h
    refine Nat.not_le.mp fun hw => ?_
    obtain ⟨hwhole, hnone⟩ := writeCount_of_wraps ho hl hw
    by_cases hle : offset + src.length - 18446744073709551616 ≤ tmpfsMaxSize
    · obtain ⟨hcount, _⟩ := hwhole hle
      have hlast := h (18446744073709551615 - offset) (by omega)
      simp only [tmpfsMaxSize] at hcap
      omega
    · exact h0 (hnone (Nat.not_le.mp hle))
  · intro h i hi
    have hcount := writeCount_of_lt h
    rw [writeEnd_of_lt h h0] at hreach
    rw [Nat.mod_eq_of_lt (by omega)]
    omega

theorem write_safe_iff (hb : fs.Bounded) (ho : offset < 18446744073709551616)
    (hl : src.length < 18446744073709551616) :
    WriteSafe fs k offset src alloc ↔ ¬ WriteStrays fs k offset src.length alloc := by
  have hbounded := hb.write k offset src alloc
  have hends : k < tmpfsMaxFiles → (fs k).inUse = true → writeCount offset src.length ≠ 0 →
      ∃ n, writeEnd offset src.length ≤
        TmpfsFile.growCap (writeEnd offset src.length) n (fs k).capacity :=
    fun _ hu h0 => ⟨16, (hb k).reaches hu (writeEnd_eq h0).2⟩
  have hiff : WriteSafe fs k offset src alloc ↔
      fs.tmpfsWriteChecked k offset src alloc = .ok (fs.tmpfsWrite k offset src alloc) :=
    ⟨fun h => h.inBounds, fun h => ⟨h, hbounded, hends⟩⟩
  rw [hiff]
  by_cases hk : tmpfsMaxFiles ≤ k
  · refine iff_of_true ?_ fun h => absurd h.index (Nat.not_lt.mpr hk)
    rw [tmpfsWriteChecked, tmpfsWrite, if_pos hk, if_pos hk]
  have hk := Nat.not_le.mp hk
  cases hu : (fs k).inUse with
  | false =>
    refine iff_of_true ?_ fun h => absurd h.inUse (by simp [hu])
    rw [tmpfsWriteChecked, tmpfsWrite, if_neg (Nat.not_le.mpr hk), if_neg (Nat.not_le.mpr hk),
      if_pos hu, if_pos hu]
  | true =>
    rw [tmpfsWriteChecked_of_inUse hk hu, tmpfsWrite_eq hk hu]
    by_cases h0 : writeCount offset src.length = 0
    · -- the clamp leaves nothing
      rw [if_pos h0, if_pos h0]
      refine iff_of_true rfl fun h => ?_
      obtain ⟨hcount, _⟩ := (writeCount_of_wraps ho hl h.wraps).1 h.accepted
      have hw := h.wraps
      omega
    rw [if_neg h0, if_neg h0]
    cases hg : (fs k).grow (writeEnd offset src.length) alloc with
    | none =>
      -- no room
      refine iff_of_true rfl fun h => ?_
      obtain ⟨_, hend⟩ := (writeCount_of_wraps ho hl h.wraps).1 h.accepted
      have hroom := h.room
      rw [← hend] at hroom
      rcases TmpfsFile.grow_cases (hb k) hu (writeEnd_eq h0).2 alloc with
        ⟨hlt, hnone, _⟩ | ⟨_, g, hsome, _⟩
      · exact absurd (hroom hlt) (by simp [hnone])
      · exact absurd (hg.symm.trans hsome) nofun
    | some g =>
      dsimp only
      have hin := write_inBounds_iff hb hu ho hl h0 hg
      by_cases hw : offset + src.length < 18446744073709551616
      · rw [if_pos (hin.mpr hw)]
        exact iff_of_true rfl fun h => absurd h.wraps (Nat.not_le.mpr hw)
      · rw [if_neg fun h => hw (hin.mp h)]
        obtain ⟨hwhole, hnone⟩ := writeCount_of_wraps ho hl (Nat.not_lt.mp hw)
        by_cases hle : offset + src.length - 18446744073709551616 ≤ tmpfsMaxSize
        · obtain ⟨_, hend⟩ := hwhole hle
          refine iff_of_false nofun (not_not.mpr ⟨hk, hu, Nat.not_lt.mp hw, hle, fun hlt => ?_⟩)
          rw [← hend] at hlt
          rcases TmpfsFile.grow_cases (hb k) hu (writeEnd_eq h0).2 alloc with
            ⟨_, _, hnone⟩ | ⟨hroom, _⟩
          · exact absurd (hg.symm.trans hnone) nofun
          · exact hroom hlt
        · exact absurd (hnone (Nat.not_le.mp hle)) h0

/-! ## Runs -/

/-- The call stays in the buffers, which keep their bounds. -/
def CallSafe (fs : Tmpfs) (alloc : HeapBlockBytes) : TmpfsCall → Prop
  | .write index offset src => WriteSafe fs index offset src alloc
  | .read index offset count =>
    fs.Bounded ∧ fs.tmpfsReadChecked index offset count = .ok (fs.tmpfsRead index offset count)
  | c => (fs.call alloc c).1.Bounded

/-- The call is a write outside the buffer. -/
def CallStrays (fs : Tmpfs) (alloc : HeapBlockBytes) : TmpfsCall → Prop
  | .write index offset src => WriteStrays fs index offset src.length alloc
  | _ => False

end Tmpfs

/-- Offsets and counts are `size_t`. -/
def TmpfsCall.Fits : TmpfsCall → Prop
  | .write _ offset src => offset < 18446744073709551616 ∧ src.length < 18446744073709551616
  | .read _ offset count => offset < 18446744073709551616 ∧ count < 18446744073709551616
  | _ => True

namespace Tmpfs

theorem call_safe_iff (hb : fs.Bounded) {c : TmpfsCall} (hc : c.Fits) :
    CallSafe fs alloc c ↔ ¬ CallStrays fs alloc c := by
  cases c with
  | write index offset src => exact write_safe_iff hb hc.1 hc.2
  | read index offset count => exact iff_of_true ⟨hb, tmpfsReadChecked_eq hb _ _ _⟩ id
  | create name => exact iff_of_true (hb.call alloc (.create name)) id
  | unlink name => exact iff_of_true (hb.call alloc (.unlink name)) id

/-- `P` holds of each call, in the state before it. -/
def EachCall (P : Tmpfs → HeapBlockBytes → TmpfsCall → Prop)
    (calls : List (TmpfsCall × HeapBlockBytes)) : Prop :=
  ∀ l c alloc, l ++ [(c, alloc)] <+: calls → P (after l) alloc c

/-- The calls of a run from boot all stay in the buffers exactly when none of them is a write with a
range that wraps to an accepted end. -/
theorem tmpfs_in_bounds (calls : List (TmpfsCall × HeapBlockBytes))
    (hfit : ∀ c ∈ calls, c.1.Fits) :
    EachCall CallSafe calls ↔ EachCall (fun fs alloc c => ¬ CallStrays fs alloc c) calls := by
  have hmem : ∀ {l c alloc}, l ++ [(c, alloc)] <+: calls → c.Fits :=
    fun {_ c alloc} hl => hfit (c, alloc) (hl.subset (by simp))
  constructor
  · exact fun h l c alloc hl => (call_safe_iff (bounded_after l) (hmem hl)).mp (h l c alloc hl)
  · exact fun h l c alloc hl => (call_safe_iff (bounded_after l) (hmem hl)).mpr (h l c alloc hl)

/-- A file `a`, with a byte at 0. -/
def oneByte : List (TmpfsCall × HeapBlockBytes) :=
  [(.create [97], some fun _ => 0), (.write 0 0 [7], none)]

theorem tmpfs_in_bounds_one : EachCall CallSafe oneByte := by
  refine (tmpfs_in_bounds oneByte ?_).mpr fun l c alloc hl hs => ?_
  · simp [oneByte, TmpfsCall.Fits]
  · have hmem : (c, alloc) ∈ oneByte := hl.subset (by simp)
    simp only [oneByte, List.mem_cons, List.not_mem_nil, or_false, Prod.mk.injEq] at hmem
    rcases hmem with ⟨rfl, rfl⟩ | ⟨rfl, rfl⟩
    · exact hs
    · exact absurd hs.wraps (by decide)

/-- Two bytes at `2⁶⁴ - 1`: the first is stored at that index. -/
theorem tmpfs_write_strays : (after oneByte).tmpfsWriteChecked 0 18446744073709551615 [7, 7] none =
      .error .outOfBounds ∧
    ¬ EachCall CallSafe (oneByte ++ [(.write 0 18446744073709551615 [7, 7], none)]) := by
  have herr : (after oneByte).tmpfsWriteChecked 0 18446744073709551615 [7, 7] none =
      .error .outOfBounds := rfl
  refine ⟨herr, fun h => ?_⟩
  have hsafe : WriteSafe (after oneByte) 0 18446744073709551615 [7, 7] none :=
    h oneByte _ _ (List.prefix_refl _)
  exact absurd (herr.symm.trans hsafe.inBounds) nofun

end Tmpfs

end GenOS
