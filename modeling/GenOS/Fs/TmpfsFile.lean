import Mathlib.Algebra.Group.Nat.Defs
import Mathlib.Data.List.Induction
import GenOS.Fs.Tmpfs
import GenOS.Lib.Splice

/-!
# The files of `tmpfs`

`Bounded` is what the size and the capacity of a file keep, `Zeroed` says that the buffer is zero
behind the file's end. `grow_cases` and `tmpfsWrite_cases` say what growing the buffer and writing
to it do; a write is a `splice` of the content.
-/

namespace GenOS

open Splice

namespace TmpfsFile

/-- The size is within the capacity, and a file in use has a buffer. -/
structure Bounded (f : TmpfsFile) : Prop where
  size : f.size ≤ f.capacity
  capacity : f.capacity ≤ tmpfsMaxSize
  buffer : f.inUse = true → 0 < f.capacity

/-- Behind the end of the file the buffer is zero. -/
def Zeroed (f : TmpfsFile) : Prop := ∀ b, f.size ≤ b → b < f.capacity → f.data b = 0

variable {f g : TmpfsFile} {endPos cap n m : Nat} {alloc : HeapBlockBytes}

/-! ## The capacity -/

theorem le_growCap (h : cap ≤ tmpfsMaxSize) (endPos n : Nat) :
    cap ≤ growCap endPos n cap ∧ growCap endPos n cap ≤ tmpfsMaxSize := by
  induction n generalizing cap with
  | zero => exact ⟨Nat.le_refl cap, h⟩
  | succ n ih =>
    unfold growCap
    split
    · obtain ⟨h1, h2⟩ := @ih (min (cap * 2) tmpfsMaxSize) (Nat.min_le_right _ _)
      exact ⟨by omega, h2⟩
    · exact ⟨Nat.le_refl cap, h⟩

/-- `n` doublings are enough. -/
theorem growCap_reaches (he : endPos ≤ tmpfsMaxSize) (h : endPos ≤ cap * 2 ^ n) :
    endPos ≤ growCap endPos n cap := by
  induction n generalizing cap with
  | zero => simpa [growCap] using h
  | succ n ih =>
    unfold growCap
    split
    · refine ih ?_
      rcases Nat.le_total (cap * 2) tmpfsMaxSize with hle | hle
      · rw [Nat.min_eq_left hle, Nat.mul_assoc, ← Nat.pow_succ']
        exact h
      · rw [Nat.min_eq_right hle]
        exact Nat.le_trans he (Nat.le_mul_of_pos_right _ (Nat.two_pow_pos n))
    · next hge => exact Nat.not_lt.mp hge

/-- Then the loop has ended. -/
theorem growCap_done (h : endPos ≤ growCap endPos n cap) (hn : n ≤ m) :
    growCap endPos m cap = growCap endPos n cap := by
  induction n generalizing cap m with
  | zero =>
    have hge : ¬ cap < endPos := Nat.not_lt.mpr h
    cases m with
    | zero => rfl
    | succ m => exact if_neg hge
  | succ n ih =>
    obtain ⟨m, rfl⟩ := Nat.exists_eq_add_of_lt (Nat.lt_of_succ_le hn)
    unfold growCap at h ⊢
    split at h
    · next hlt =>
      rw [if_pos hlt, if_pos hlt]
      exact ih h (by omega)
    · next hge => rw [if_neg hge, if_neg hge]

theorem Bounded.reaches (h : f.Bounded) (hu : f.inUse = true) (he : endPos ≤ tmpfsMaxSize) :
    endPos ≤ growCap endPos 16 f.capacity := by
  refine growCap_reaches he ?_
  have hpos := h.buffer hu
  have hmul : 1 * 2 ^ 16 ≤ f.capacity * 2 ^ 16 := Nat.mul_le_mul_right _ hpos
  have hmax : tmpfsMaxSize = 1 * 2 ^ 16 := rfl
  omega

/-! ## Growth -/

/-- `g` is `f` with a buffer that reaches `endPos`. -/
structure Grown (f g : TmpfsFile) (endPos : Nat) : Prop where
  inUse : g.inUse = f.inUse
  name : g.name = f.name
  size : g.size = f.size
  reaches : endPos ≤ g.capacity
  larger : f.capacity ≤ g.capacity
  capacity : g.capacity ≤ tmpfsMaxSize
  kept : ∀ b < f.capacity, g.data b = f.data b
  zero : ∀ b, f.capacity ≤ b → b < g.capacity → g.data b = 0

theorem grow_cases (h : f.Bounded) (hu : f.inUse = true) (he : endPos ≤ tmpfsMaxSize)
    (alloc : HeapBlockBytes) :
    (f.capacity < endPos ∧ alloc = none ∧ f.grow endPos alloc = none) ∨
      ((f.capacity < endPos → alloc.isSome) ∧ ∃ g, f.grow endPos alloc = some g ∧
        Grown f g endPos) := by
  unfold grow
  split
  · next hlt =>
    cases alloc with
    | none => exact .inl ⟨hlt, rfl, rfl⟩
    | some block =>
      obtain ⟨h1, h2⟩ := le_growCap h.capacity endPos 16
      refine .inr ⟨fun _ => rfl, _, rfl, rfl, rfl, rfl, h.reaches hu he, h1, h2, ?_, ?_⟩
      · exact fun b hb => if_pos hb
      · intro b h3 h4
        exact (if_neg (Nat.not_lt.mpr h3)).trans (if_pos h4)
  · next hge =>
    refine .inr ⟨fun hlt => absurd hlt hge, f, rfl, rfl, rfl, rfl, Nat.not_lt.mp hge, Nat.le_refl _,
      h.capacity, fun _ _ => rfl, fun b h1 h2 => absurd h2 (Nat.not_lt.mpr h1)⟩

theorem Grown.zeroed (hg : Grown f g endPos) (hz : f.Zeroed) : g.Zeroed := by
  intro b h1 h2
  by_cases hb : b < f.capacity
  · rw [hg.kept b hb]
    exact hz b (hg.size ▸ h1) hb
  · exact hg.zero b (Nat.not_lt.mp hb) h2

/-! ## Stores -/

theorem storeBytes_apply (data : Nat → UInt8) (offset : Nat) (src : List UInt8)
    (h : offset + src.length ≤ 18446744073709551616) (i : Nat) :
    storeBytes data offset src i =
      if offset ≤ i ∧ i < offset + src.length then src.getD (i - offset) 0 else data i := by
  induction src generalizing data offset with
  | nil => exact (if_neg (by simp)).symm
  | cons b src ih =>
    rw [List.length_cons] at h ⊢
    rw [storeBytes, ih _ _ (by omega), Nat.mod_eq_of_lt (by omega)]
    by_cases h1 : offset + 1 ≤ i ∧ i < offset + 1 + src.length
    · rw [if_pos h1, if_pos (by omega), show i - offset = i - (offset + 1) + 1 by omega,
        List.getD_cons_succ]
    · rw [if_neg h1]
      by_cases h2 : i = offset
      · rw [h2, Function.update_self, if_pos (by omega), Nat.sub_self, List.getD_cons_zero]
      · rw [Function.update_of_ne h2, if_neg (by omega)]

theorem length_content (f : TmpfsFile) : f.content.length = f.size := by
  rw [content, List.length_map, List.length_range]

theorem getD_content (f : TmpfsFile) (i : Nat) :
    f.content.getD i 0 = if i < f.size then f.data i else 0 := by
  split
  · next h =>
    rw [List.getD_eq_getElem _ _ (by rwa [length_content])]
    simp [content]
  · next h => exact List.getD_eq_default _ _ (by rw [length_content]; omega)

/-- The file after `src` is stored at `offset`. -/
def written (g : TmpfsFile) (offset : Nat) (src : List UInt8) : TmpfsFile :=
  { g with
    data := storeBytes g.data offset src
    size := if g.size < offset + src.length then offset + src.length else g.size }

variable {offset : Nat} {src : List UInt8}

theorem written_bounded (hg : Grown f g (offset + src.length)) (h : f.Bounded) :
    (g.written offset src).Bounded := by
  refine ⟨?_, hg.capacity, fun hu => ?_⟩
  · show (if g.size < offset + src.length then offset + src.length else g.size) ≤ g.capacity
    have h1 := h.size
    have h2 := hg.larger
    have h3 := hg.reaches
    rw [hg.size]
    split <;> omega
  · exact Nat.lt_of_lt_of_le (h.buffer (hg.inUse ▸ hu)) hg.larger

theorem written_zeroed (hg : Grown f g (offset + src.length)) (hz : f.Zeroed) :
    (g.written offset src).Zeroed := by
  intro b h1 h2
  have hcap := hg.capacity
  have hr := hg.reaches
  have hmax : tmpfsMaxSize = 65536 := rfl
  change (if g.size < offset + src.length then offset + src.length else g.size) ≤ b at h1
  change b < g.capacity at h2
  change storeBytes g.data offset src b = 0
  rw [storeBytes_apply _ _ _ (by omega), if_neg (by split at h1 <;> omega)]
  exact hg.zeroed hz b (by split at h1 <;> omega) h2

/-- A write is a splice of the content. -/
theorem content_written (hg : Grown f g (offset + src.length)) (h : f.Bounded) (hz : f.Zeroed) :
    (g.written offset src).content = splice 0 f.content offset src := by
  have hcap := hg.capacity
  have hr := hg.reaches
  have hl := hg.larger
  have hs := h.size
  have hmax : tmpfsMaxSize = 65536 := rfl
  have hsize : (g.written offset src).size = max f.size (offset + src.length) := by
    show (if g.size < offset + src.length then offset + src.length else g.size) = _
    rw [hg.size]
    split <;> omega
  apply ext_getD (z := 0)
  · rw [length_content, length_splice, length_content, hsize]
  intro i hi
  rw [length_content, hsize] at hi
  rw [getD_content, hsize, if_pos hi, getD_splice, getD_content]
  change storeBytes g.data offset src i = _
  rw [storeBytes_apply _ _ _ (by omega)]
  by_cases hin : offset ≤ i ∧ i < offset + src.length
  · rw [if_pos hin, if_pos hin]
  · rw [if_neg hin, if_neg hin]
    split
    · next hlt => exact hg.kept i (by omega)
    · next hge => exact hg.zeroed hz i (by rw [hg.size]; omega) (by omega)

end TmpfsFile

/-! ## Calls -/

namespace Tmpfs

theorem tmpfsOpen_some {fs : Tmpfs} {name : List UInt8} {i : Nat}
    (h : fs.tmpfsOpen name = some i) :
    i < tmpfsMaxFiles ∧ (fs i).inUse = true ∧ (fs i).name = name := by
  have hf := List.find?_some h
  simp only [Bool.and_eq_true, decide_eq_true_eq] at hf
  exact ⟨List.mem_range.mp (List.mem_of_find?_eq_some h), hf⟩

/-- The file that `tmpfs_create` makes in a block. -/
def created (name : List UInt8) (block : Nat → UInt8) : TmpfsFile where
  name := name.take 99
  data := fun b => if b < tmpfsInitialCap then 0 else block b
  size := 0
  capacity := tmpfsInitialCap
  inUse := true

theorem tmpfsOpen_none {fs : Tmpfs} {name : List UInt8} (h : fs.tmpfsOpen name = none) {i : Nat}
    (hi : i < tmpfsMaxFiles) (hu : (fs i).inUse = true) : (fs i).name ≠ name := by
  have hf := List.find?_eq_none.mp h i (List.mem_range.mpr hi)
  simpa [hu] using hf

/-- A file in use is read from its content. -/
theorem tmpfsRead_eq {fs : Tmpfs} {k : Nat} (hk : k < tmpfsMaxFiles)
    (hu : (fs k).inUse = true) (hs : (fs k).size ≤ tmpfsMaxSize) (offset count : Nat) :
    fs.tmpfsRead k offset count = (((((fs k).content.drop offset).take count).length : Int),
      ((fs k).content.drop offset).take count) := by
  unfold tmpfsRead
  rw [if_neg (Nat.not_le.mpr hk), if_neg (by simp [hu]), TmpfsFile.drop_take_content]
  dsimp only
  split
  · next ho => rw [Nat.sub_eq_zero_of_le ho, Nat.min_zero]; rfl
  · have hmin : (if (fs k).size - offset < count then (fs k).size - offset else count) =
        min count ((fs k).size - offset) := by
      split <;> omega
    have hlt : min count ((fs k).size - offset) < 2147483648 := by
      simp only [tmpfsMaxSize] at hs
      omega
    rw [hmin, List.length_map, List.length_range, Nat.mod_eq_of_lt (by omega), toInt32_of_lt hlt]

theorem tmpfsCreate_cases (fs : Tmpfs) (name : List UInt8) (alloc : HeapBlockBytes) :
    (∃ i, fs.tmpfsOpen name = some i ∧ fs.tmpfsCreate name alloc = (fs, some i)) ∨
      fs.tmpfsOpen name = none ∧
        (((∀ i < tmpfsMaxFiles, (fs i).inUse = true) ∨ alloc = none) ∧
            fs.tmpfsCreate name alloc = (fs, none) ∨
          ∃ i block, i < tmpfsMaxFiles ∧ (fs i).inUse = false ∧ alloc = some block ∧
            fs.tmpfsCreate name alloc = (Function.update fs i (created name block), some i)) := by
  unfold tmpfsCreate
  cases hopen : fs.tmpfsOpen name with
  | some i => exact .inl ⟨i, rfl, rfl⟩
  | none =>
    refine .inr ⟨rfl, ?_⟩
    dsimp only
    split
    · next hnone =>
      refine .inl ⟨.inl fun i hi => ?_, rfl⟩
      simpa using List.find?_eq_none.mp hnone i (List.mem_range.mpr hi)
    · next i hi =>
      cases alloc with
      | none => exact .inl ⟨.inr rfl, rfl⟩
      | some block =>
        refine .inr ⟨i, block, List.mem_range.mp (List.mem_of_find?_eq_some hi), ?_, rfl, rfl⟩
        simpa using List.find?_some hi

/-- The `count` that `tmpfs_write` clamps to. -/
def writeCount (offset len : Nat) : Nat :=
  if tmpfsMaxSize < (offset + len) % 18446744073709551616 then
    if offset < tmpfsMaxSize then tmpfsMaxSize - offset else 0
  else len

/-- The `end_pos` that it clamps to. -/
def writeEnd (offset len : Nat) : Nat :=
  if tmpfsMaxSize < (offset + len) % 18446744073709551616 then
    (offset + writeCount offset len) % 18446744073709551616
  else (offset + len) % 18446744073709551616

theorem writeEnd_eq {offset len : Nat} (h : writeCount offset len ≠ 0) :
    writeEnd offset len = (offset + writeCount offset len) % 18446744073709551616 ∧
      writeEnd offset len ≤ tmpfsMaxSize := by
  unfold writeEnd
  by_cases hlt : tmpfsMaxSize < (offset + len) % 18446744073709551616
  · rw [if_pos hlt]
    refine ⟨rfl, ?_⟩
    unfold writeCount at h ⊢
    rw [if_pos hlt] at h ⊢
    split at h
    · next ho =>
      rw [if_pos ho]
      exact Nat.le_trans (Nat.mod_le _ _) (by omega)
    · exact absurd rfl h
  · rw [if_neg hlt]
    exact ⟨by rw [writeCount, if_neg hlt], Nat.not_lt.mp hlt⟩

/-- A range that does not wrap is cut at the maximum. -/
theorem writeCount_of_lt {offset len : Nat} (h : offset + len < 18446744073709551616) :
    writeCount offset len = min len (tmpfsMaxSize - offset) := by
  unfold writeCount
  rw [Nat.mod_eq_of_lt h]
  simp only [tmpfsMaxSize]
  split
  · split <;> omega
  · omega

theorem writeEnd_of_lt {offset len : Nat} (h : offset + len < 18446744073709551616)
    (h0 : writeCount offset len ≠ 0) : writeEnd offset len = offset + writeCount offset len := by
  have hle := writeCount_of_lt h
  rw [(writeEnd_eq h0).1, Nat.mod_eq_of_lt (by omega)]

/-- One that wraps is taken whole, if its end is within the maximum. -/
theorem writeCount_of_wraps {offset len : Nat} (ho : offset < 18446744073709551616)
    (hl : len < 18446744073709551616) (hw : 18446744073709551616 ≤ offset + len) :
    (offset + len - 18446744073709551616 ≤ tmpfsMaxSize →
      writeCount offset len = len ∧ writeEnd offset len = offset + len - 18446744073709551616) ∧
    (tmpfsMaxSize < offset + len - 18446744073709551616 → writeCount offset len = 0) := by
  have hmod : (offset + len) % 18446744073709551616 = offset + len - 18446744073709551616 := by
    omega
  unfold writeEnd writeCount
  rw [hmod]
  generalize hend : offset + len - 18446744073709551616 = e
  refine ⟨fun h => ⟨if_neg (Nat.not_lt.mpr h), if_neg (Nat.not_lt.mpr h)⟩, fun h => ?_⟩
  rw [if_pos h]
  exact if_neg (by omega)

/-- The file after a write that has found room. -/
def stored (fs : Tmpfs) (k : Nat) (g : TmpfsFile) (offset : Nat) (src : List UInt8) : Tmpfs :=
  Function.update fs k
    { g with
      data := TmpfsFile.storeBytes g.data offset (src.take (writeCount offset src.length))
      size := if g.size < writeEnd offset src.length then writeEnd offset src.length else g.size }

theorem tmpfsWrite_eq {fs : Tmpfs} {k : Nat} (hk : k < tmpfsMaxFiles) (hu : (fs k).inUse = true)
    (offset : Nat) (src : List UInt8) (alloc : HeapBlockBytes) :
    fs.tmpfsWrite k offset src alloc =
      if writeCount offset src.length = 0 then (fs, 0)
      else
        match (fs k).grow (writeEnd offset src.length) alloc with
        | none => (fs, -1)
        | some g => (fs.stored k g offset src,
            toInt32 (writeCount offset src.length % 4294967296)) := by
  unfold tmpfsWrite
  rw [if_neg (Nat.not_le.mpr hk), if_neg (by simp [hu])]
  rfl

theorem tmpfsWrite_cases (fs : Tmpfs) (k offset : Nat) (src : List UInt8) (alloc : HeapBlockBytes) :
    (tmpfsMaxFiles ≤ k ∨ (fs k).inUse = false) ∧ fs.tmpfsWrite k offset src alloc = (fs, -1) ∨
      k < tmpfsMaxFiles ∧ (fs k).inUse = true ∧
        (writeCount offset src.length = 0 ∧ fs.tmpfsWrite k offset src alloc = (fs, 0) ∨
          writeCount offset src.length ≠ 0 ∧
            ((fs k).grow (writeEnd offset src.length) alloc = none ∧
                fs.tmpfsWrite k offset src alloc = (fs, -1) ∨
              ∃ g, (fs k).grow (writeEnd offset src.length) alloc = some g ∧
                fs.tmpfsWrite k offset src alloc = (fs.stored k g offset src,
                  toInt32 (writeCount offset src.length % 4294967296)))) := by
  by_cases hk : tmpfsMaxFiles ≤ k
  · exact .inl ⟨.inl hk, if_pos hk⟩
  cases hu : (fs k).inUse with
  | false =>
    refine .inl ⟨.inr rfl, ?_⟩
    unfold tmpfsWrite
    rw [if_neg hk, if_pos hu]
  | true =>
    have heq := tmpfsWrite_eq (Nat.not_le.mp hk) hu offset src alloc
    refine .inr ⟨Nat.not_le.mp hk, rfl, ?_⟩
    by_cases h0 : writeCount offset src.length = 0
    · exact .inl ⟨h0, heq.trans (if_pos h0)⟩
    · rw [if_neg h0] at heq
      refine .inr ⟨h0, ?_⟩
      cases hg : (fs k).grow (writeEnd offset src.length) alloc with
      | none =>
        rw [hg] at heq
        exact .inl ⟨rfl, heq⟩
      | some g =>
        rw [hg] at heq
        exact .inr ⟨g, rfl, heq⟩

theorem tmpfsWrite_of_ne {fs : Tmpfs} {j k : Nat} (h : j ≠ k) (offset : Nat) (src : List UInt8)
    (alloc : HeapBlockBytes) : (fs.tmpfsWrite k offset src alloc).1 j = fs j := by
  rcases tmpfsWrite_cases fs k offset src alloc with
    ⟨_, heq⟩ | ⟨_, _, ⟨_, heq⟩ | ⟨_, ⟨_, heq⟩ | ⟨g, _, heq⟩⟩⟩
  · rw [heq]
  · rw [heq]
  · rw [heq]
  · rw [heq]
    exact Function.update_of_ne h _ _

end Tmpfs

/-! ## Runs -/

/-- A call of `tmpfs`. -/
inductive TmpfsCall where
  | create (name : List UInt8)
  | write (index offset : Nat) (src : List UInt8)
  | read (index offset count : Nat)
  | unlink (name : List UInt8)
  deriving DecidableEq

namespace Tmpfs

/-- An index as an `int`. -/
def indexInt : Option Nat → Int
  | some i => i
  | none => -1

/-- The files after a call, what it returns, and the bytes that it stores for the caller. `alloc` is
what the heap does if it is asked for a buffer. -/
def call (fs : Tmpfs) (alloc : HeapBlockBytes) : TmpfsCall → Tmpfs × Int × List UInt8
  | .create name => ((fs.tmpfsCreate name alloc).1, indexInt (fs.tmpfsCreate name alloc).2, [])
  | .write index offset src =>
    ((fs.tmpfsWrite index offset src alloc).1, (fs.tmpfsWrite index offset src alloc).2, [])
  | .read index offset count => (fs, fs.tmpfsRead index offset count)
  | .unlink name => ((fs.tmpfsUnlink name).1, (fs.tmpfsUnlink name).2, [])

/-- The files after calls from boot. -/
def after (calls : List (TmpfsCall × HeapBlockBytes)) : Tmpfs :=
  calls.foldl (fun fs c => (fs.call c.2 c.1).1) init

/-- The bounds of all files. -/
def Bounded (fs : Tmpfs) : Prop := ∀ k, (fs k).Bounded

variable {fs : Tmpfs} {k : Nat} {f : TmpfsFile}

theorem Bounded.update (h : fs.Bounded) (hf : f.Bounded) : Bounded (Function.update fs k f) := by
  intro j
  by_cases hj : j = k
  · rw [hj, Function.update_self]
    exact hf
  · rw [Function.update_of_ne hj]
    exact h j

theorem created_bounded (name : List UInt8) (block : Nat → UInt8) : (created name block).Bounded :=
  ⟨Nat.zero_le _, show tmpfsInitialCap ≤ tmpfsMaxSize by decide, fun _ => Nat.zero_lt_succ _⟩

theorem Bounded.create (h : fs.Bounded) (name : List UInt8) (alloc : HeapBlockBytes) :
    Bounded (fs.tmpfsCreate name alloc).1 := by
  rcases tmpfsCreate_cases fs name alloc with
    ⟨_, _, heq⟩ | ⟨_, ⟨_, heq⟩ | ⟨i, block, _, _, _, heq⟩⟩
  · rwa [heq]
  · rwa [heq]
  · rw [heq]
    exact h.update (created_bounded name block)

theorem Bounded.unlink (h : fs.Bounded) (name : List UInt8) : Bounded (fs.tmpfsUnlink name).1 := by
  unfold tmpfsUnlink
  split
  · exact h.update ⟨Nat.le_refl _, Nat.zero_le _, nofun⟩
  · exact h

theorem stored_bounded {g : TmpfsFile} {offset : Nat} {src : List UInt8} (h : fs.Bounded)
    (hg : TmpfsFile.Grown (fs k) g (writeEnd offset src.length)) :
    (fs.stored k g offset src).Bounded := by
  have hsize := (h k).size
  have hle := hg.larger
  refine h.update ⟨?_, hg.capacity, fun hu => ?_⟩
  · show (if g.size < writeEnd offset src.length then writeEnd offset src.length else g.size) ≤
      g.capacity
    have hr := hg.reaches
    rw [hg.size]
    split <;> omega
  · exact Nat.lt_of_lt_of_le ((h k).buffer (hg.inUse ▸ hu)) hle

theorem Bounded.write (h : fs.Bounded) (k offset : Nat) (src : List UInt8)
    (alloc : HeapBlockBytes) : Bounded (fs.tmpfsWrite k offset src alloc).1 := by
  rcases tmpfsWrite_cases fs k offset src alloc with
    ⟨_, heq⟩ | ⟨_, hu, ⟨_, heq⟩ | ⟨h0, ⟨_, heq⟩ | ⟨g, hg, heq⟩⟩⟩
  · rwa [heq]
  · rwa [heq]
  · rwa [heq]
  · rw [heq]
    rcases TmpfsFile.grow_cases (h k) hu (writeEnd_eq h0).2 alloc with
      ⟨_, _, hnone⟩ | ⟨_, g', hg', hgrown⟩
    · exact absurd (hg.symm.trans hnone) nofun
    · obtain rfl := Option.some.inj (hg.symm.trans hg')
      exact stored_bounded h hgrown

/-- One call. -/
theorem Bounded.call (h : fs.Bounded) (alloc : HeapBlockBytes) (c : TmpfsCall) :
    (fs.call alloc c).1.Bounded := by
  cases c with
  | create name => exact h.create name alloc
  | write index offset src => exact h.write index offset src alloc
  | read index offset count => exact h
  | unlink name => exact h.unlink name

theorem bounded_after (calls : List (TmpfsCall × HeapBlockBytes)) : (after calls).Bounded := by
  induction calls using List.reverseRecOn with
  | nil => exact fun _ => ⟨Nat.le_refl _, Nat.zero_le _, nofun⟩
  | append_singleton calls c ih =>
    unfold after
    rw [List.foldl_append]
    exact ih.call c.2 c.1

end Tmpfs

end GenOS
