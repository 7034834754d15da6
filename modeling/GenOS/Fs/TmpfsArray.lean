import GenOS.Fs.TmpfsFile

/-!
# `tmpfs` as files that are byte arrays

`ByteStore.Does` says what the calls of `tmpfs` are for: slots that hold files with distinct names,
each an array of at most 65536 bytes. `call_refines` shows that `tmpfs` does that. The buffers are
in `Tmpfs.Sound`, and only there.
-/

namespace GenOS

open Splice

/-- A file. -/
structure ByteFile where
  name : List UInt8
  bytes : List UInt8
  bounded : bytes.length ≤ tmpfsMaxSize

/-- The files by their slots. -/
@[ext]
structure ByteStore where
  file : Nat → Option ByteFile
  slots : ∀ k f, file k = some f → k < tmpfsMaxFiles
  distinct : ∀ j k f g, file j = some f → file k = some g → f.name = g.name → j = k

/-- The number of `len` bytes at `offset` that the maximum leaves. -/
def fitting (offset len : Nat) : Nat := min len (tmpfsMaxSize - offset)

namespace ByteStore

/-- No file. -/
def empty : ByteStore where
  file _ := none
  slots _ _ := nofun
  distinct _ _ _ _ := nofun

/-- No file has the name. -/
def Absent (A : ByteStore) (name : List UInt8) : Prop := ∀ k f, A.file k = some f → f.name ≠ name

/-- The call may need a buffer: it makes a file, or stores past the end of one. -/
def Asks (A : ByteStore) : TmpfsCall → Prop
  | .create name => A.Absent name ∧ ∃ k < tmpfsMaxFiles, A.file k = none
  | .write k offset src => ∃ f, A.file k = some f ∧ fitting offset src.length ≠ 0 ∧
    f.bytes.length < offset + fitting offset src.length
  | .read .. | .unlink _ => False

/-- A call, its reply, and the files after it. `room` says whether the call had the buffer that it
asked for, if it asked for one: without it the call fails and no file changes, and with it no call
fails but those on a file that is not there. -/
inductive Does (A : ByteStore) : (room : Bool) → TmpfsCall → Int × List UInt8 → ByteStore → Prop
  | refused {c : TmpfsCall} (h : A.Asks c) : Does A false c (-1, []) A
  | found {k : Nat} {f : ByteFile} (h : A.file k = some f) : Does A true (.create f.name) (k, []) A
  | full {name : List UInt8} (hn : A.Absent name) (h : ∀ k < tmpfsMaxFiles, A.file k ≠ none) :
    Does A true (.create name) (-1, []) A
  | created {name : List UInt8} {k : Nat} {f : ByteFile} {B : ByteStore} (hn : A.Absent name)
    (h : A.file k = none) (hf : f.name = name) (h0 : f.bytes = [])
    (hB : B.file = Function.update A.file k (some f)) : Does A true (.create name) (k, []) B
  | writeNone {k offset : Nat} {src : List UInt8} (h : A.file k = none) :
    Does A true (.write k offset src) (-1, []) A
  | writeNothing {k offset : Nat} {src : List UInt8} {f : ByteFile} (h : A.file k = some f)
    (h0 : fitting offset src.length = 0) : Does A true (.write k offset src) (0, []) A
  | written {k offset : Nat} {src : List UInt8} {f g : ByteFile} {B : ByteStore}
    (h : A.file k = some f) (h0 : fitting offset src.length ≠ 0) (hname : g.name = f.name)
    (hbytes : g.bytes = splice 0 f.bytes offset (src.take (fitting offset src.length)))
    (hB : B.file = Function.update A.file k (some g)) :
    Does A true (.write k offset src) (fitting offset src.length, []) B
  | readNone {k offset count : Nat} (h : A.file k = none) :
    Does A true (.read k offset count) (-1, []) A
  | read {k offset count : Nat} {f : ByteFile} (h : A.file k = some f) :
    Does A true (.read k offset count)
      (((f.bytes.drop offset).take count).length, (f.bytes.drop offset).take count) A
  | unlinkNone {name : List UInt8} (hn : A.Absent name) : Does A true (.unlink name) (-1, []) A
  | unlinked {k : Nat} {f : ByteFile} {B : ByteStore} (h : A.file k = some f)
    (hB : B.file = Function.update A.file k none) : Does A true (.unlink f.name) (0, []) B

/-- A call with the answer to what it asked for, and its reply. -/
def Step (A : ByteStore) (e : Bool × TmpfsCall × Int × List UInt8) (B : ByteStore) : Prop :=
  Does A e.1 e.2.1 e.2.2 B

end ByteStore

/-- The name has at most 99 characters, and the range does not wrap. -/
def TmpfsCall.Plain : TmpfsCall → Prop
  | .create name => name.length ≤ 99
  | .write _ offset src => offset + src.length < 18446744073709551616
  | .read _ offset count => offset + count < 18446744073709551616
  | .unlink name => name.length ≤ 99

namespace Tmpfs

/-- What the files of `tmpfs` keep. -/
structure Sound (fs : Tmpfs) : Prop where
  bounded : fs.Bounded
  zeroed : ∀ k, (fs k).Zeroed
  slots : ∀ k, (fs k).inUse = true → k < tmpfsMaxFiles
  distinct : ∀ j k, (fs j).inUse = true → (fs k).inUse = true → (fs j).name = (fs k).name → j = k

variable {fs : Tmpfs} {k : Nat} {f g : TmpfsFile} {name : List UInt8} {alloc : HeapBlockBytes}

/-- What a file holds. -/
def fileAt (fs : Tmpfs) (h : fs.Bounded) (k : Nat) : Option ByteFile :=
  if (fs k).inUse then
    some ⟨(fs k).name, (fs k).content, by
      rw [TmpfsFile.length_content]
      exact Nat.le_trans (h k).size (h k).capacity⟩
  else none

theorem fileAt_some (h : fs.Bounded) {x : ByteFile} (hx : fs.fileAt h k = some x) :
    (fs k).inUse = true ∧ x.name = (fs k).name ∧ x.bytes = (fs k).content := by
  unfold fileAt at hx
  split at hx
  · next hu =>
    obtain rfl := Option.some.inj hx
    exact ⟨hu, rfl, rfl⟩
  · exact absurd hx nofun

theorem fileAt_none (h : fs.Bounded) : fs.fileAt h k = none ↔ (fs k).inUse = false := by
  unfold fileAt
  split
  · next hu => simp [hu]
  · next hu => simpa using hu

theorem fileAt_of_inUse (h : fs.Bounded) (hu : (fs k).inUse = true) :
    ∃ x, fs.fileAt h k = some x ∧ x.name = (fs k).name ∧ x.bytes = (fs k).content := by
  refine ⟨_, if_pos hu, rfl, rfl⟩

/-- The files as byte arrays. -/
def Sound.store (h : fs.Sound) : ByteStore where
  file := fs.fileAt h.bounded
  slots k f hf := h.slots k (fileAt_some h.bounded hf).1
  distinct j k f g hj hk hn := by
    obtain ⟨h1, h2, _⟩ := fileAt_some h.bounded hj
    obtain ⟨h3, h4, _⟩ := fileAt_some h.bounded hk
    exact h.distinct j k h1 h3 (h2.symm.trans (hn.trans h4))

theorem fileAt_update (h : fs.Bounded) (h' : Bounded (Function.update fs k f)) :
    fileAt (Function.update fs k f) h' =
      Function.update (fs.fileAt h) k (fileAt (Function.update fs k f) h' k) := by
  funext j
  by_cases hj : j = k
  · rw [hj, Function.update_self]
  · rw [Function.update_of_ne hj]
    unfold fileAt
    simp only [Function.update_of_ne hj]

/-- One file changed. -/
theorem Sound.update (h : fs.Sound) (hb : f.Bounded) (hz : f.Zeroed)
    (hk : f.inUse = true → k < tmpfsMaxFiles)
    (hn : f.inUse = true → ∀ j, j ≠ k → (fs j).inUse = true → (fs j).name ≠ f.name) :
    Sound (Function.update fs k f) := by
  refine ⟨h.bounded.update hb, fun j => ?_, fun j hj => ?_, fun i j hi hj hij => ?_⟩
  · by_cases hjk : j = k
    · rw [hjk, Function.update_self]
      exact hz
    · rw [Function.update_of_ne hjk]
      exact h.zeroed j
  · by_cases hjk : j = k
    · rw [hjk, Function.update_self] at hj
      exact hjk ▸ hk hj
    · rw [Function.update_of_ne hjk] at hj
      exact h.slots j hj
  · by_cases hik : i = k
    · by_cases hjk : j = k
      · exact hik.trans hjk.symm
      · subst hik
        rw [Function.update_self] at hi hij
        rw [Function.update_of_ne hjk] at hj hij
        exact absurd hij.symm (hn hi j hjk hj)
    · rw [Function.update_of_ne hik] at hi hij
      by_cases hjk : j = k
      · subst hjk
        rw [Function.update_self] at hj hij
        exact absurd hij (hn hj i hik hi)
      · rw [Function.update_of_ne hjk] at hj hij
        exact h.distinct i j hi hj hij

theorem Sound.store_update (h : fs.Sound) (h' : Sound (Function.update fs k f))
    {x : Option ByteFile} (hx : fileAt (Function.update fs k f) h'.bounded k = x) :
    h'.store.file = Function.update h.store.file k x :=
  (fileAt_update h.bounded h'.bounded).trans (congrArg (Function.update h.store.file k) hx)

theorem Sound.absent (h : fs.Sound) (hn : fs.tmpfsOpen name = none) : h.store.Absent name := by
  intro k f hf
  obtain ⟨hu, hname, _⟩ := fileAt_some h.bounded hf
  rw [hname]
  exact tmpfsOpen_none hn (h.slots k hu) hu

/-! ## What the calls do -/

/-- The call asks the heap for a buffer. -/
def asks (fs : Tmpfs) : TmpfsCall → Bool
  | .create name =>
    (fs.tmpfsOpen name).isNone && (List.range tmpfsMaxFiles).any fun i => !(fs i).inUse
  | .write k offset src =>
    decide (k < tmpfsMaxFiles) && (fs k).inUse && decide (writeCount offset src.length ≠ 0) &&
      decide ((fs k).capacity < writeEnd offset src.length)
  | .read .. | .unlink _ => false

/-- The call has what it asks for. -/
def hasRoom (fs : Tmpfs) (alloc : HeapBlockBytes) (c : TmpfsCall) : Bool :=
  alloc.isSome || !fs.asks c

theorem hasRoom_of_not {c : TmpfsCall} (h : fs.asks c = false) (alloc : HeapBlockBytes) :
    fs.hasRoom alloc c = true := by
  rw [hasRoom, h]
  exact Bool.or_true _

/-- A call that ends in `r` did what it is for. -/
def Refines (h : fs.Sound) (room : Bool) (c : TmpfsCall) (r : Tmpfs × Int × List UInt8) : Prop :=
  ∃ h' : r.1.Sound, ByteStore.Does h.store room c r.2 h'.store

theorem create_refines (h : fs.Sound) (alloc : HeapBlockBytes) (hn : name.length ≤ 99) :
    Refines h (fs.hasRoom alloc (.create name)) (.create name) (fs.call alloc (.create name)) := by
  show Refines h _ _ ((fs.tmpfsCreate name alloc).1, indexInt (fs.tmpfsCreate name alloc).2, [])
  rcases tmpfsCreate_cases fs name alloc with
    ⟨i, hopen, heq⟩ | ⟨hopen, ⟨hor, heq⟩ | ⟨i, block, hlt, hfree, rfl, heq⟩⟩
  · rw [heq]
    obtain ⟨_, hu, hname⟩ := tmpfsOpen_some hopen
    obtain ⟨x, hx, hxn, _⟩ := fileAt_of_inUse h.bounded hu
    obtain rfl : x.name = name := hxn.trans hname
    rw [hasRoom_of_not (by rw [asks, hopen]; rfl)]
    exact ⟨h, .found hx⟩
  · rw [heq]
    refine ⟨h, ?_⟩
    by_cases hall : ∀ i < tmpfsMaxFiles, (fs i).inUse = true
    · have hno : fs.asks (.create name) = false := by
        rw [asks, hopen, Option.isNone_none, Bool.true_and, List.any_eq_false]
        intro i hi
        rw [hall i (List.mem_range.mp hi)]
        exact Bool.false_ne_true
      rw [hasRoom_of_not hno]
      refine .full (h.absent hopen) fun k hk hnone => ?_
      exact absurd ((fileAt_none h.bounded).mp hnone) (by simp [hall k hk])
    · -- a slot is free, and the heap has no block for it
      obtain rfl := hor.resolve_left hall
      push Not at hall
      obtain ⟨i, hi, hfree⟩ := hall
      have hask : fs.asks (.create name) = true := by
        rw [asks, hopen, Option.isNone_none, Bool.true_and, List.any_eq_true]
        exact ⟨i, List.mem_range.mpr hi, by simpa using hfree⟩
      rw [hasRoom, hask]
      exact .refused ⟨h.absent hopen, i, hi, (fileAt_none h.bounded).mpr (by simpa using hfree)⟩
  · rw [heq, show fs.hasRoom (some block) (.create name) = true from Bool.true_or _]
    have hname : (created name block).name = name := List.take_of_length_le hn
    have hsound : Sound (Function.update fs i (created name block)) := by
      refine h.update (created_bounded name block) (fun b _ hb => ?_)
        (fun _ => hlt) fun _ j _ hj => ?_
      · exact if_pos hb
      · rw [hname]
        exact tmpfsOpen_none hopen (h.slots j hj) hj
    have hself : (Function.update fs i (created name block) i).inUse = true := by
      rw [Function.update_self]
      rfl
    obtain ⟨x, hx, hxn, hxb⟩ := fileAt_of_inUse hsound.bounded hself
    rw [Function.update_self] at hxn hxb
    exact ⟨hsound, .created (h.absent hopen) ((fileAt_none h.bounded).mpr hfree)
      (hxn.trans hname) hxb (h.store_update hsound hx)⟩

/-- A write that does not wrap stores what fits. -/
theorem stored_eq {offset : Nat} {src : List UInt8} (fs : Tmpfs) (g : TmpfsFile)
    (hw : offset + src.length < 18446744073709551616) (h0 : writeCount offset src.length ≠ 0) :
    fs.stored k g offset src =
      Function.update fs k (g.written offset (src.take (fitting offset src.length))) := by
  have hcount : writeCount offset src.length = fitting offset src.length := writeCount_of_lt hw
  have hlen : (src.take (fitting offset src.length)).length = fitting offset src.length := by
    rw [List.length_take, fitting]
    omega
  unfold stored TmpfsFile.written
  rw [writeEnd_of_lt hw h0, hcount, hlen]

theorem write_refines (h : fs.Sound) (alloc : HeapBlockBytes) {offset : Nat} {src : List UInt8}
    (hw : offset + src.length < 18446744073709551616) :
    Refines h (fs.hasRoom alloc (.write k offset src)) (.write k offset src)
      (fs.call alloc (.write k offset src)) := by
  show Refines h _ _ ((fs.tmpfsWrite k offset src alloc).1,
    (fs.tmpfsWrite k offset src alloc).2, [])
  have hcount : writeCount offset src.length = fitting offset src.length := writeCount_of_lt hw
  rcases tmpfsWrite_cases fs k offset src alloc with
    ⟨hor, heq⟩ | ⟨hk, hu, hcase⟩
  · have hu : (fs k).inUse = false := by
      rcases hor with hk | hu
      · by_contra hc
        exact absurd (h.slots k (by simpa using hc)) (Nat.not_lt.mpr hk)
      · exact hu
    rw [heq, hasRoom_of_not (by simp [asks, hu])]
    exact ⟨h, .writeNone ((fileAt_none h.bounded).mpr hu)⟩
  obtain ⟨x, hx, hxn, hxb⟩ := fileAt_of_inUse h.bounded hu
  have hxl : x.bytes.length = (fs k).size := by rw [hxb, TmpfsFile.length_content]
  rcases hcase with ⟨h0, heq⟩ | ⟨h0, hcase⟩
  · rw [heq, hasRoom_of_not (by simp [asks, h0])]
    exact ⟨h, .writeNothing hx (hcount ▸ h0)⟩
  have hend : writeEnd offset src.length = offset + fitting offset src.length :=
    hcount ▸ writeEnd_of_lt hw h0
  rcases TmpfsFile.grow_cases (h.bounded k) hu (writeEnd_eq h0).2 alloc with
    ⟨hlt, rfl, hnone⟩ | ⟨hroom, g, hg, hgrown⟩
  · -- no room for the buffer
    rcases hcase with ⟨_, heq⟩ | ⟨g, hg, _⟩
    · have hask : fs.asks (.write k offset src) = true := by simp [asks, hk, hu, h0, hlt]
      rw [heq, hasRoom, hask]
      refine ⟨h, .refused ⟨x, hx, hcount ▸ h0, ?_⟩⟩
      have hsize := (h.bounded k).size
      omega
    · exact absurd (hg.symm.trans hnone) nofun
  · have hroom : fs.hasRoom alloc (.write k offset src) = true := by
      by_cases hlt : (fs k).capacity < writeEnd offset src.length
      · rw [hasRoom, hroom hlt]
        rfl
      · exact hasRoom_of_not (by simp [asks, hlt]) alloc
    rw [hroom]
    rcases hcase with ⟨hnone, _⟩ | ⟨g', hg', heq⟩
    · exact absurd (hg.symm.trans hnone) nofun
    obtain rfl := Option.some.inj (hg.symm.trans hg')
    have hlen : (src.take (fitting offset src.length)).length = fitting offset src.length := by
      rw [List.length_take, fitting]
      omega
    have hgrown : TmpfsFile.Grown (fs k) g
        (offset + (src.take (fitting offset src.length)).length) := by
      rwa [hlen, ← hend]
    have hmax : fitting offset src.length ≤ 65536 := by
      rw [fitting, tmpfsMaxSize]
      omega
    rw [heq, stored_eq fs g hw h0, hcount, Nat.mod_eq_of_lt (by omega), toInt32_of_lt (by omega)]
    have hsound : Sound (Function.update fs k
        (g.written offset (src.take (fitting offset src.length)))) := by
      refine h.update (TmpfsFile.written_bounded hgrown (h.bounded k))
        (TmpfsFile.written_zeroed hgrown (h.zeroed k)) (fun _ => hk) fun _ j hj hju hn => ?_
      exact hj (h.distinct j k hju hu (hn.trans hgrown.name))
    have hself : (Function.update fs k
        (g.written offset (src.take (fitting offset src.length))) k).inUse = true := by
      rw [Function.update_self]
      exact hgrown.inUse.trans hu
    obtain ⟨y, hy, hyn, hyb⟩ := fileAt_of_inUse hsound.bounded hself
    rw [Function.update_self] at hyn hyb
    refine ⟨hsound, .written hx (hcount ▸ h0) ?_ ?_ (h.store_update hsound hy)⟩
    · exact hyn.trans (hgrown.name.trans hxn.symm)
    · rw [hyb, hxb]
      exact TmpfsFile.content_written hgrown (h.bounded k) (h.zeroed k)

theorem read_refines (h : fs.Sound) (alloc : HeapBlockBytes) (k offset count : Nat) :
    Refines h (fs.hasRoom alloc (.read k offset count)) (.read k offset count)
      (fs.call alloc (.read k offset count)) := by
  rw [hasRoom_of_not rfl]
  refine ⟨h, ?_⟩
  show ByteStore.Does h.store true _ (fs.tmpfsRead k offset count) h.store
  cases hu : (fs k).inUse with
  | false =>
    have heq : fs.tmpfsRead k offset count = (-1, []) := by
      unfold tmpfsRead
      rw [if_pos hu]
      exact ite_self _
    rw [heq]
    exact .readNone ((fileAt_none h.bounded).mpr hu)
  | true =>
    obtain ⟨x, hx, _, hxb⟩ := fileAt_of_inUse h.bounded hu
    have hsmall := Nat.le_trans (h.bounded k).size (h.bounded k).capacity
    rw [tmpfsRead_eq (h.slots k hu) hu hsmall, ← hxb]
    exact .read hx

theorem unlink_refines (h : fs.Sound) (alloc : HeapBlockBytes) (name : List UInt8) :
    Refines h (fs.hasRoom alloc (.unlink name)) (.unlink name)
      (fs.call alloc (.unlink name)) := by
  rw [hasRoom_of_not rfl]
  show Refines h _ _ ((fs.tmpfsUnlink name).1, (fs.tmpfsUnlink name).2, [])
  unfold tmpfsUnlink
  cases hopen : fs.tmpfsOpen name with
  | none => exact ⟨h, .unlinkNone (h.absent hopen)⟩
  | some i =>
    obtain ⟨_, hu, hname⟩ := tmpfsOpen_some hopen
    obtain ⟨x, hx, hxn, _⟩ := fileAt_of_inUse h.bounded hu
    obtain rfl : x.name = name := hxn.trans hname
    have hsound : Sound (Function.update fs i
        { fs i with data := fun _ => 0, size := 0, capacity := 0, inUse := false }) :=
      h.update ⟨Nat.le_refl _, Nat.zero_le _, nofun⟩ (fun _ _ _ => rfl) nofun nofun
    exact ⟨hsound, .unlinked hx (h.store_update hsound
      ((fileAt_none hsound.bounded).mpr (by rw [Function.update_self])))⟩

/-- Every call of `tmpfs` does what it is for. -/
theorem call_refines (h : fs.Sound) (alloc : HeapBlockBytes) {c : TmpfsCall} (hc : c.Plain) :
    Refines h (fs.hasRoom alloc c) c (fs.call alloc c) := by
  cases c with
  | create name => exact create_refines h alloc hc
  | write k offset src => exact write_refines h alloc hc
  | read k offset count => exact read_refines h alloc k offset count
  | unlink name => exact unlink_refines h alloc name

theorem init_sound : init.Sound :=
  ⟨fun _ => ⟨Nat.le_refl _, Nat.zero_le _, nofun⟩, fun _ _ _ _ => rfl, fun _ => nofun,
    fun _ _ => nofun⟩

end Tmpfs

end GenOS
