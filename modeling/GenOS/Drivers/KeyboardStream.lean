import Mathlib.Algebra.Group.Nat.Even
import Mathlib.Data.List.Induction
import GenOS.Drivers.Keyboard

/-!
# Modifier keys

What `keyboard_handler` makes of a stream of set-1 codes, next to what the keys do. A byte changes
the modifiers independently of the ring, so the modifiers are a fold over the bytes. The handler
has one flag for two shift keys and takes a repeated Caps Lock for a new one; apart from that the
case of a letter is right.
-/

namespace GenOS.Keyboard

/-! ## Bytes -/

/-- The modifiers after a byte. -/
def nextMods (f : Modifiers) (b : UInt8) : Modifiers := (keyboardHandler { mods := f } b).1.mods

/-- The character that a byte enters into an empty ring. -/
def pushed (f : Modifiers) (b : UInt8) : Option UInt8 := queued { mods := f } b

/-- States that the bytes lead to, with calls of `keyboard_get_char` in between. -/
inductive Feeds : List UInt8 → Keyboard → Prop
  | boot : Feeds [] {}
  | getChar {bs : List UInt8} {s : Keyboard} (h : Feeds bs s) : Feeds bs s.keyboardGetChar.1
  | byte {bs : List UInt8} {s : Keyboard} (h : Feeds bs s) (b : UInt8) :
    Feeds (bs ++ [b]) (s.keyboardHandler b).1

variable {s : Keyboard} {bs : List UInt8}

/-- The state with other modifiers, after `buffer_push` of a character if there is one. -/
def put (s : Keyboard) (f : Modifiers) (o : Option UInt8) : Keyboard :=
  o.elim { s with mods := f } ({ s with mods := f } : Keyboard).bufferPush

/-- The modifiers and the character depend on the modifiers and the byte only. -/
theorem exists_put (f : Modifiers) (b : UInt8) :
    ∃ g o, ∀ s : Keyboard, s.mods = f → (s.keyboardHandler b).1 = s.put g o := by
  unfold keyboardHandler
  dsimp only
  by_cases hp : f.pauseBytes ≠ 0
  · exact ⟨_, none, fun s hs => by rw [hs, if_pos hp]; rfl⟩
  by_cases h1 : b = 0xE1
  · exact ⟨_, none, fun s hs => by rw [hs, if_neg hp, if_pos h1]; rfl⟩
  by_cases h0 : b = 0xE0
  · exact ⟨_, none, fun s hs => by rw [hs, if_neg hp, if_neg h1, if_pos h0]; rfl⟩
  by_cases hx : f.extendedKey = true
  · by_cases hu : b &&& 0x80 ≠ 0
    · refine ⟨{ f with extendedKey := false }, none, fun s hs => ?_⟩
      rw [hs, if_neg hp, if_neg h1, if_neg h0, if_pos hx, if_pos hu]
      rfl
    · refine ⟨{ f with extendedKey := false }, specialKey b, fun s hs => ?_⟩
      rw [hs, if_neg hp, if_neg h1, if_neg h0, if_pos hx, if_neg hu]
      cases specialKey b <;> rfl
  by_cases hu : b &&& 0x80 ≠ 0
  · refine ⟨if b &&& 0x7F = 0x2A ∨ b &&& 0x7F = 0x36 then { f with shiftPressed := false } else f,
      none, fun s hs => ?_⟩
    rw [hs, if_neg hp, if_neg h1, if_neg h0, if_neg hx, if_pos hu]
    split
    · rfl
    · rw [← hs]
      rfl
  by_cases hs : b = 0x2A ∨ b = 0x36
  · refine ⟨{ f with shiftPressed := true }, none, fun s hf => ?_⟩
    rw [hf, if_neg hp, if_neg h1, if_neg h0, if_neg hx, if_neg hu, if_pos hs]
    rfl
  by_cases hc : b = 0x3A
  · refine ⟨{ f with capsLockActive := !f.capsLockActive }, none, fun s hf => ?_⟩
    rw [hf, if_neg hp, if_neg h1, if_neg h0, if_neg hx, if_neg hu, if_neg hs, if_pos hc]
    rfl
  refine ⟨f, if b.toNat < scancodeToAsciiBase.length ∧ translate f b ≠ 0 then some (translate f b)
    else none, fun s hf => ?_⟩
  rw [hf, if_neg hp, if_neg h1, if_neg h0, if_neg hx, if_neg hu, if_neg hs, if_neg hc]
  have hself : ({ s with mods := f } : Keyboard) = s := by rw [← hf]
  unfold put
  rw [hself]
  by_cases ht : b.toNat < scancodeToAsciiBase.length
  · by_cases hz : translate f b ≠ 0
    · rw [if_pos ht, if_pos hz, if_pos ⟨ht, hz⟩]
      rfl
    · rw [if_pos ht, if_neg hz, if_neg fun h => hz h.2]
      rfl
  · rw [if_neg ht, if_neg fun h => ht h.1]
    rfl

theorem mods_put (s : Keyboard) (f : Modifiers) (o : Option UInt8) : (s.put f o).mods = f := by
  cases o with
  | none => rfl
  | some c =>
    unfold put bufferPush
    dsimp only [Option.elim]
    split <;> rfl

theorem head_put_ne (s : Keyboard) (f : Modifiers) (c : UInt8) (h : s.HasRoom) :
    (s.put f (some c)).bufferHead ≠ s.bufferHead ∧
      (s.put f (some c)).keyBuffer s.bufferHead = c := by
  have hput : s.put f (some c) = { s with
      mods := f
      keyBuffer := Function.update s.keyBuffer s.bufferHead c
      bufferHead := (s.bufferHead + 1) % keyBufferSize } := if_pos h
  rw [hput]
  refine ⟨?_, Function.update_self _ _ _⟩
  show (s.bufferHead + 1) % 256 ≠ s.bufferHead
  omega

theorem put_of_full (s : Keyboard) (f : Modifiers) (o : Option UInt8) (h : ¬ s.HasRoom) :
    (s.put f o).bufferHead = s.bufferHead := by
  cases o with
  | none => rfl
  | some c =>
    have hput : s.put f (some c) = { s with mods := f } := if_neg h
    rw [hput]

/-- What a byte does: the modifiers change, and its character is entered if the ring has room. -/
theorem keyboardHandler_eq (s : Keyboard) (b : UInt8) :
    (s.keyboardHandler b).1.mods = nextMods s.mods b ∧
      (s.HasRoom → s.queued b = pushed s.mods b) ∧ (¬ s.HasRoom → s.queued b = none) := by
  obtain ⟨g, o, hput⟩ := exists_put s.mods b
  have hs := hput s rfl
  have h0 := hput { mods := s.mods } rfl
  have hq : ∀ t : Keyboard, (t.keyboardHandler b).1 = t.put g o → t.HasRoom → t.queued b = o := by
    intro t ht hr
    unfold queued
    rw [ht]
    cases o with
    | none => exact if_pos rfl
    | some c =>
      obtain ⟨hne, hc⟩ := head_put_ne t g c hr
      exact (if_neg hne).trans (congrArg some hc)
  refine ⟨?_, fun hr => ?_, fun hr => ?_⟩
  · rw [nextMods, hs, h0, mods_put, mods_put]
  · have hempty : HasRoom { mods := s.mods } := show (0 + 1) % keyBufferSize ≠ 0 by decide
    rw [pushed, hq s hs hr, hq _ h0 hempty]
  · unfold queued
    rw [hs]
    exact if_pos (put_of_full s g o hr)

theorem mods_keyboardGetChar (s : Keyboard) : s.keyboardGetChar.1.mods = s.mods := by
  unfold keyboardGetChar
  split <;> rfl

theorem Feeds.mods (h : Feeds bs s) : s.mods = bs.foldl nextMods {} := by
  induction h with
  | boot => rfl
  | getChar h ih => rw [mods_keyboardGetChar, ih]
  | byte h b ih => rw [(keyboardHandler_eq _ b).1, ih, List.foldl_append, List.foldl_cons,
      List.foldl_nil]

theorem Feeds.queued (h : Feeds bs s) (b : UInt8) :
    s.queued b = none ∨ s.queued b = pushed (bs.foldl nextMods {}) b := by
  obtain ⟨-, hroom, hfull⟩ := keyboardHandler_eq s b
  by_cases hr : s.HasRoom
  · exact .inr (h.mods ▸ hroom hr)
  · exact .inl (hfull hr)

theorem Feeds.head_lt (h : Feeds bs s) : s.bufferHead < keyBufferSize := by
  induction h with
  | boot => decide
  | @getChar bs s h ih =>
    unfold keyboardGetChar
    split
    · exact ih
    · exact ih
  | @byte bs s h b ih =>
    obtain ⟨g, o, hput⟩ := exists_put s.mods b
    rw [hput s rfl]
    by_cases hr : s.HasRoom
    · cases o with
      | none => exact ih
      | some c =>
        have hs : s.put g (some c) = { s with
            mods := g
            keyBuffer := Function.update s.keyBuffer s.bufferHead c
            bufferHead := (s.bufferHead + 1) % keyBufferSize } := if_pos hr
        rw [hs]
        exact Nat.mod_lt _ (by decide)
    · rwa [put_of_full s g o hr]

/-- One call of `keyboard_get_char` makes room. -/
theorem Feeds.exists_room (h : Feeds bs s) : ∃ t, Feeds bs t ∧ t.HasRoom := by
  by_cases hr : s.HasRoom
  · exact ⟨s, h, hr⟩
  · have hlt : s.bufferHead < 256 := h.head_lt
    have htail : (s.bufferHead + 1) % 256 = s.bufferTail := not_not.mp hr
    have hne : ¬ s.bufferHead = s.bufferTail := by omega
    refine ⟨s.keyboardGetChar.1, h.getChar, ?_⟩
    unfold keyboardGetChar HasRoom
    rw [if_neg hne]
    show (s.bufferHead + 1) % 256 ≠ (s.bufferTail + 1) % 256
    omega

theorem exists_feeds (bs : List UInt8) : ∃ s, Feeds bs s := by
  induction bs using List.reverseRecOn with
  | nil => exact ⟨_, .boot⟩
  | append_singleton bs b ih =>
    obtain ⟨s, h⟩ := ih
    exact ⟨_, h.byte b⟩

/-! ## Codes -/

/-- A key, by its set-1 code. -/
structure Key where
  code : Nat
  pos : 0 < code
  lt : code < 128
  ne_prefix : code ≠ 0x60 ∧ code ≠ 0x61

namespace Key

/-- The byte of a key that goes down or repeats. -/
def make (k : Key) : UInt8 := UInt8.ofNat k.code

/-- The byte of a key that goes up. -/
def release (k : Key) : UInt8 := UInt8.ofNat (k.code + 128)

def IsShift (k : Key) : Prop := k.code = 0x2A ∨ k.code = 0x36

def IsCaps (k : Key) : Prop := k.code = 0x3A

/-- The keys of the letters, row by row. -/
def IsLetter (k : Key) : Prop :=
  16 ≤ k.code ∧ k.code ≤ 25 ∨ 30 ≤ k.code ∧ k.code ≤ 38 ∨ 44 ≤ k.code ∧ k.code ≤ 50

instance (k : Key) : Decidable k.IsShift := inferInstanceAs (Decidable (_ ∨ _))

instance (k : Key) : Decidable k.IsCaps := inferInstanceAs (Decidable (_ = _))

instance (k : Key) : Decidable k.IsLetter := inferInstanceAs (Decidable (_ ∨ _))

end Key

/-- What a keyboard sends at a time. -/
inductive Code where
  | make (k : Key)
  | release (k : Key)
  | extMake (k : Key)
  | extRelease (k : Key)
  | pause

namespace Code

def bytes : Code → List UInt8
  | make k => [k.make]
  | release k => [k.release]
  | extMake k => [0xE0, k.make]
  | extRelease k => [0xE0, k.release]
  | pause => [0xE1, 0x1D, 0x45, 0xE1, 0x9D, 0xC5]

/-- The special key code that a code enters, where it does. -/
def special : Code → Option UInt8
  | extMake k => specialKey k.make
  | _ => none

end Code

/-- The keys, with what is counted of them. -/
structure Keys where
  held : Nat → Bool := fun _ => false
  /-- How often Caps Lock went down. -/
  capsPresses : Nat := 0
  /-- How often a held Caps Lock repeated. -/
  capsRepeats : Nat := 0
  /-- The last code of a shift key is a release, and the other shift key is held. -/
  shiftLost : Bool := false

namespace Keys

/-- Some shift key is held. -/
def shiftHeld (ks : Keys) : Bool := ks.held 0x2A || ks.held 0x36

def step (ks : Keys) : Code → Keys
  | .make k =>
    { held := Function.update ks.held k.code true
      capsPresses := ks.capsPresses + if k.IsCaps ∧ ks.held k.code = false then 1 else 0
      capsRepeats := ks.capsRepeats + if k.IsCaps ∧ ks.held k.code = true then 1 else 0
      shiftLost := if k.IsShift then false else ks.shiftLost }
  | .release k =>
    let held := Function.update ks.held k.code false
    { ks with
      held
      shiftLost := if k.IsShift then held 0x2A || held 0x36 else ks.shiftLost }
  | _ => ks

/-- The keys after codes. -/
def after (codes : List Code) : Keys := codes.foldl step {}

end Keys

/-- A key that goes up was down. -/
def Consistent (ks : Keys) : List Code → Prop
  | [] => True
  | c :: codes =>
    (match c with
      | .release k => ks.held k.code = true
      | _ => True) ∧ Consistent (ks.step c) codes

/-- The codes that a keyboard sends from the start on, with all keys up. -/
structure ScanStream where
  codes : List Code
  consistent : Consistent {} codes

/-! ## What a code does -/

/-- The characters of bytes. -/
def pushes (f : Modifiers) : List UInt8 → List (Option UInt8)
  | [] => []
  | b :: bs => pushed f b :: pushes (nextMods f b) bs

theorem length_pushes (f : Modifiers) (bs : List UInt8) : (pushes f bs).length = bs.length := by
  induction bs generalizing f with
  | nil => rfl
  | cons b bs ih => rw [pushes, List.length_cons, List.length_cons, ih]

theorem getElem?_pushes (f : Modifiers) (bs : List UInt8) (b : UInt8) (rest : List UInt8) :
    (pushes f (bs ++ b :: rest))[bs.length]? = some (pushed (bs.foldl nextMods f) b) := by
  induction bs generalizing f with
  | nil => rfl
  | cons a bs ih => exact ih (nextMods f a)

/-- Shift and Caps Lock as the handler keeps them between two codes. -/
abbrev idle (shift caps : Bool) : Modifiers := ⟨shift, caps, false, 0⟩

section Table

variable (k : Key) (shift caps : Bool)

theorem nextMods_make : nextMods (idle shift caps) k.make =
    idle (shift || decide k.IsShift) (caps != decide k.IsCaps) := by
  have h : ∀ n < 128, n ≠ 0x60 → n ≠ 0x61 → ∀ shift caps : Bool,
      nextMods (idle shift caps) (UInt8.ofNat n) =
        idle (shift || decide (n = 0x2A ∨ n = 0x36)) (caps != decide (n = 0x3A)) := by
    decide +kernel
  exact h k.code k.lt k.ne_prefix.1 k.ne_prefix.2 shift caps

theorem nextMods_release : nextMods (idle shift caps) k.release =
    idle (shift && !decide k.IsShift) caps := by
  have h : ∀ n < 128, n ≠ 0x60 → n ≠ 0x61 → ∀ shift caps : Bool,
      nextMods (idle shift caps) (UInt8.ofNat (n + 128)) =
        idle (shift && !decide (n = 0x2A ∨ n = 0x36)) caps := by
    decide
  exact h k.code k.lt k.ne_prefix.1 k.ne_prefix.2 shift caps

theorem pushed_release : pushed (idle shift caps) k.release = none := by
  have h : ∀ n < 128, n ≠ 0x60 → n ≠ 0x61 → ∀ shift caps : Bool,
      pushed (idle shift caps) (UInt8.ofNat (n + 128)) = none := by
    decide
  exact h k.code k.lt k.ne_prefix.1 k.ne_prefix.2 shift caps

theorem extended_make : nextMods ⟨shift, caps, true, 0⟩ k.make = idle shift caps ∧
    pushed ⟨shift, caps, true, 0⟩ k.make = specialKey k.make := by
  have h : ∀ n < 128, n ≠ 0x60 → n ≠ 0x61 → ∀ shift caps : Bool,
      nextMods ⟨shift, caps, true, 0⟩ (UInt8.ofNat n) = idle shift caps ∧
        pushed ⟨shift, caps, true, 0⟩ (UInt8.ofNat n) = specialKey (UInt8.ofNat n) := by
    decide
  exact h k.code k.lt k.ne_prefix.1 k.ne_prefix.2 shift caps

theorem extended_release : nextMods ⟨shift, caps, true, 0⟩ k.release = idle shift caps ∧
    pushed ⟨shift, caps, true, 0⟩ k.release = none := by
  have h : ∀ n < 128, n ≠ 0x60 → n ≠ 0x61 → ∀ shift caps : Bool,
      nextMods ⟨shift, caps, true, 0⟩ (UInt8.ofNat (n + 128)) = idle shift caps ∧
        pushed ⟨shift, caps, true, 0⟩ (UInt8.ofNat (n + 128)) = none := by
    decide
  exact h k.code k.lt k.ne_prefix.1 k.ne_prefix.2 shift caps

/-- A capital letter of ASCII. -/
def IsUpper (c : UInt8) : Prop := 65 ≤ c ∧ c ≤ 90

instance (c : UInt8) : Decidable (IsUpper c) := inferInstanceAs (Decidable (_ ∧ _))

theorem pushed_letter (hk : k.IsLetter) :
    ∃ c, pushed (idle shift caps) k.make = some c ∧ (IsUpper c ↔ (shift != caps) = true) := by
  have h : ∀ n < 128, (16 ≤ n ∧ n ≤ 25 ∨ 30 ≤ n ∧ n ≤ 38 ∨ 44 ≤ n ∧ n ≤ 50) →
      ∀ shift caps : Bool, (pushed (idle shift caps) (UInt8.ofNat n)).any
        (fun c => decide (IsUpper c) == (shift != caps)) = true := by
    decide +kernel
  have hany := h k.code k.lt hk shift caps
  change (pushed (idle shift caps) k.make).any _ = true at hany
  cases hc : pushed (idle shift caps) k.make with
  | none =>
    rw [hc] at hany
    exact absurd hany nofun
  | some c =>
    rw [hc, Option.any_some, beq_iff_eq] at hany
    exact ⟨c, rfl, by rw [← hany, decide_eq_true_iff]⟩

end Table

/-- Only the last byte of a code that is no make code of a plain key may have a character. -/
theorem pushes_bytes {c : Code} (hc : ∀ k, c ≠ .make k) (shift caps : Bool) :
    ∃ n, pushes (idle shift caps) c.bytes = List.replicate n none ++ [c.special] := by
  have hpre : ∀ shift caps : Bool, pushed (idle shift caps) 0xE0 = none ∧
      nextMods (idle shift caps) 0xE0 = ⟨shift, caps, true, 0⟩ := by decide
  have hpause : ∀ shift caps : Bool, pushes (idle shift caps) (Code.bytes .pause)
      = List.replicate 5 none ++ [none] := by decide
  cases c with
  | make k => exact absurd rfl (hc k)
  | release k =>
    refine ⟨0, ?_⟩
    rw [Code.bytes, pushes, pushes, pushed_release]
    rfl
  | extMake k =>
    refine ⟨1, ?_⟩
    rw [Code.bytes, pushes, pushes, pushes, (hpre shift caps).1, (hpre shift caps).2,
      (extended_make k shift caps).2]
    rfl
  | extRelease k =>
    refine ⟨1, ?_⟩
    rw [Code.bytes, pushes, pushes, pushes, (hpre shift caps).1, (hpre shift caps).2,
      (extended_release k shift caps).2]
    rfl
  | pause => exact ⟨5, hpause shift caps⟩

/-! ## Streams -/

namespace Keys

/-- What the handler keeps of the keys. -/
def mods (ks : Keys) : Modifiers :=
  idle (ks.shiftHeld && !ks.shiftLost) (decide ((ks.capsPresses + ks.capsRepeats) % 2 = 1))

theorem shiftHeld_update {ks : Keys} {k : Key} (hk : ¬ k.IsShift) (b : Bool) :
    (Function.update ks.held k.code b 0x2A || Function.update ks.held k.code b 0x36)
      = ks.shiftHeld := by
  obtain ⟨h1, h2⟩ := not_or.mp hk
  rw [Function.update_of_ne (Ne.symm h1), Function.update_of_ne (Ne.symm h2)]
  rfl

theorem shiftHeld_make {ks : Keys} {k : Key} (hk : k.IsShift) :
    (ks.step (.make k)).shiftHeld = true := by
  unfold shiftHeld step
  dsimp only
  rcases hk with h | h
  · rw [h, Function.update_self, Bool.true_or]
  · rw [h, Function.update_self, Bool.or_true]

theorem shiftHeld_of_not_shift {ks : Keys} {k : Key} (hk : ¬ k.IsShift) :
    (ks.step (.make k)).shiftHeld = ks.shiftHeld ∧
      (ks.step (.release k)).shiftHeld = ks.shiftHeld :=
  ⟨shiftHeld_update hk true, shiftHeld_update hk false⟩

theorem shiftLost_of_shift {ks : Keys} {k : Key} (hk : k.IsShift) :
    (ks.step (.make k)).shiftLost = false ∧
      (ks.step (.release k)).shiftLost = (ks.step (.release k)).shiftHeld :=
  ⟨if_pos hk, if_pos hk⟩

theorem shiftLost_of_not_shift {ks : Keys} {k : Key} (hk : ¬ k.IsShift) :
    (ks.step (.make k)).shiftLost = ks.shiftLost ∧
      (ks.step (.release k)).shiftLost = ks.shiftLost :=
  ⟨if_neg hk, if_neg hk⟩

/-- Both a press and a repeat of Caps Lock add one. -/
theorem capsCount_make (ks : Keys) (k : Key) :
    (ks.step (.make k)).capsPresses + (ks.step (.make k)).capsRepeats
      = ks.capsPresses + ks.capsRepeats + if k.IsCaps then 1 else 0 := by
  unfold step
  dsimp only
  by_cases hk : k.IsCaps
  · cases hh : ks.held k.code
    · rw [if_pos ⟨hk, rfl⟩, if_neg (fun h => absurd h.2 nofun), if_pos hk]
      omega
    · rw [if_neg (fun h => absurd h.2 nofun), if_pos ⟨hk, rfl⟩, if_pos hk]
      omega
  · rw [if_neg (fun h => hk h.1), if_neg (fun h => hk h.1), if_neg hk]
    omega

theorem mods_make (ks : Keys) (k : Key) : nextMods ks.mods k.make = (ks.step (.make k)).mods := by
  rw [mods, nextMods_make, mods, capsCount_make]
  congr 1
  · by_cases hk : k.IsShift
    · rw [shiftHeld_make hk, (shiftLost_of_shift hk).1, decide_eq_true hk, Bool.or_true]
      rfl
    · rw [(shiftHeld_of_not_shift hk).1, (shiftLost_of_not_shift hk).1, decide_eq_false hk,
        Bool.or_false]
  · by_cases hk : k.IsCaps
    · rw [if_pos hk, decide_eq_true hk, Bool.bne_true, ← decide_not, decide_eq_decide]
      omega
    · rw [if_neg hk, decide_eq_false hk, Bool.bne_false, Nat.add_zero]

theorem mods_release (ks : Keys) (k : Key) :
    nextMods ks.mods k.release = (ks.step (.release k)).mods := by
  rw [mods, nextMods_release, mods]
  congr 1
  by_cases hk : k.IsShift
  · rw [(shiftLost_of_shift hk).2, decide_eq_true hk, Bool.not_true, Bool.and_false,
      Bool.and_not_self]
  · rw [(shiftHeld_of_not_shift hk).2, (shiftLost_of_not_shift hk).2, decide_eq_false hk,
      Bool.not_false, Bool.and_true]

/-- A code takes the modifiers along. -/
theorem foldl_bytes (ks : Keys) (c : Code) :
    c.bytes.foldl nextMods ks.mods = (ks.step c).mods := by
  have hpre : ∀ shift caps : Bool, nextMods (idle shift caps) 0xE0 = ⟨shift, caps, true, 0⟩ := by
    decide
  have hpause : ∀ shift caps : Bool, (Code.bytes .pause).foldl nextMods (idle shift caps)
      = idle shift caps := by
    decide
  cases c with
  | make k => exact mods_make ks k
  | release k => exact mods_release ks k
  | extMake k =>
    rw [Code.bytes, List.foldl_cons, List.foldl_cons, List.foldl_nil, mods, hpre,
      (extended_make k _ _).1]
    rfl
  | extRelease k =>
    rw [Code.bytes, List.foldl_cons, List.foldl_cons, List.foldl_nil, mods, hpre,
      (extended_release k _ _).1]
    rfl
  | pause => exact hpause _ _

/-- A shift key is lost only while one is held. -/
theorem shiftHeld_of_lost {ks : Keys} (h : ks.shiftLost = true → ks.shiftHeld = true) (c : Code) :
    (ks.step c).shiftLost = true → (ks.step c).shiftHeld = true := by
  cases c with
  | make k =>
    by_cases hk : k.IsShift
    · exact fun _ => shiftHeld_make hk
    · rwa [(shiftHeld_of_not_shift hk).1, (shiftLost_of_not_shift hk).1]
  | release k =>
    by_cases hk : k.IsShift
    · rw [(shiftLost_of_shift hk).2]
      exact id
    · rwa [(shiftHeld_of_not_shift hk).2, (shiftLost_of_not_shift hk).2]
  | extMake k => exact h
  | extRelease k => exact h
  | pause => exact h

theorem after_append (codes : List Code) (c : Code) :
    after (codes ++ [c]) = (after codes).step c := by
  rw [after, List.foldl_append]
  rfl

theorem mods_after (codes : List Code) :
    (codes.flatMap Code.bytes).foldl nextMods {} = (after codes).mods ∧
      ((after codes).shiftLost = true → (after codes).shiftHeld = true) := by
  induction codes using List.reverseRecOn with
  | nil => exact ⟨rfl, nofun⟩
  | append_singleton codes c ih =>
    rw [List.flatMap_append, List.flatMap_singleton, List.foldl_append, ih.1, after_append]
    exact ⟨foldl_bytes _ c, shiftHeld_of_lost ih.2 c⟩

end Keys


/-- The characters of a stream are what the keys say, in every state that its bytes lead to. -/
structure Tracks (codes : List Code) : Prop where
  /-- A letter is upper case exactly when a shift key is held or Caps Lock is on, and not both. -/
  letter : ∀ pre k post, codes = pre ++ .make k :: post → k.IsLetter →
    ∀ s, Feeds (pre.flatMap Code.bytes) s → ∀ ch, s.queued k.make = some ch →
      (IsUpper ch ↔ Xor ((Keys.after pre).shiftHeld = true) (Odd (Keys.after pre).capsPresses))
  /-- Break codes, prefixes and the bytes of Pause have no character. An extended make code has the
  special key code of its key, if there is one. -/
  silent : ∀ pre c post, codes = pre ++ c :: post → (∀ k, c ≠ .make k) →
    ∀ bs b rest, c.bytes = bs ++ b :: rest →
      ∀ s, Feeds (pre.flatMap Code.bytes ++ bs) s → ∀ ch, s.queued b = some ch →
        rest = [] ∧ c.special = some ch

theorem queued_silent (pre : List Code) {c : Code} (hc : ∀ k, c ≠ .make k) {bs rest : List UInt8}
    {b : UInt8} (hb : c.bytes = bs ++ b :: rest) (hs : Feeds (pre.flatMap Code.bytes ++ bs) s)
    {ch : UInt8} (hch : s.queued b = some ch) : rest = [] ∧ c.special = some ch := by
  have hpush : pushed (bs.foldl nextMods (Keys.after pre).mods) b = some ch := by
    rcases hs.queued b with h | h
    · exact absurd (h.symm.trans hch) nofun
    · rw [← hch, h, List.foldl_append, (Keys.mods_after pre).1]
  obtain ⟨n, hn⟩ := pushes_bytes hc ((Keys.after pre).shiftHeld && !(Keys.after pre).shiftLost)
    (decide (((Keys.after pre).capsPresses + (Keys.after pre).capsRepeats) % 2 = 1))
  have hget := getElem?_pushes (Keys.after pre).mods bs b rest
  have hlen := congrArg List.length hn
  rw [← hb, Keys.mods, hn] at hget
  rw [length_pushes, hb, List.length_append, List.length_append, List.length_replicate,
    List.length_cons, List.length_singleton] at hlen
  rw [← Keys.mods, hpush] at hget
  rcases Nat.lt_or_ge bs.length n with hlt | hge
  · rw [List.getElem?_append_left (by rwa [List.length_replicate]),
      List.getElem?_replicate_of_lt hlt] at hget
    exact absurd hget nofun
  · obtain hl : bs.length = n := by omega
    rw [List.getElem?_append_right (by rw [List.length_replicate]; omega), List.length_replicate,
      hl, Nat.sub_self] at hget
    exact ⟨List.eq_nil_of_length_eq_zero (by omega), Option.some.inj hget⟩

/-- What the handler keeps gives the right case unless exactly one of the two slips is at work. -/
theorem letter_iff {ks : Keys} (hl : ks.shiftLost = true → ks.shiftHeld = true) :
    (((ks.shiftHeld && !ks.shiftLost) != decide ((ks.capsPresses + ks.capsRepeats) % 2 = 1)) =
      true ↔
        Xor (ks.shiftHeld = true) (Odd ks.capsPresses)) ↔
      (ks.shiftLost = true ↔ Odd ks.capsRepeats) := by
  rw [Nat.odd_iff, Nat.odd_iff, bne_iff_ne, xor_def]
  rcases Nat.mod_two_eq_zero_or_one ks.capsPresses with hp | hp <;>
    rcases Nat.mod_two_eq_zero_or_one ks.capsRepeats with hr | hr <;>
      cases hh : ks.shiftHeld <;> cases hs : ks.shiftLost <;>
        simp_all [Nat.add_mod]

/-- Some state has room for the character, so the condition is needed at every letter. -/
theorem Tracks.lost_iff {codes pre post : List Code} {k : Key} (h : Tracks codes)
    (hst : codes = pre ++ .make k :: post) (hk : k.IsLetter) :
    (Keys.after pre).shiftLost = true ↔ Odd (Keys.after pre).capsRepeats := by
  obtain ⟨s, hs⟩ := exists_feeds (pre.flatMap Code.bytes)
  obtain ⟨s, hs, hroom⟩ := hs.exists_room
  obtain ⟨hmods, hlost⟩ := Keys.mods_after pre
  obtain ⟨ch, hch, hup⟩ := pushed_letter k
    ((Keys.after pre).shiftHeld && !(Keys.after pre).shiftLost)
    (decide (((Keys.after pre).capsPresses + (Keys.after pre).capsRepeats) % 2 = 1)) hk
  have hq : s.queued k.make = some ch := by
    rw [(keyboardHandler_eq s k.make).2.1 hroom, hs.mods, hmods]
    exact hch
  rw [← letter_iff hlost, ← hup]
  exact h.letter pre k post hst hk s hs ch hq

theorem isUpper_queued {pre : List Code} {k : Key} (hk : k.IsLetter)
    (hiff : (Keys.after pre).shiftLost = true ↔ Odd (Keys.after pre).capsRepeats)
    (hs : Feeds (pre.flatMap Code.bytes) s) {ch : UInt8} (hch : s.queued k.make = some ch) :
    IsUpper ch ↔ Xor ((Keys.after pre).shiftHeld = true) (Odd (Keys.after pre).capsPresses) := by
  obtain ⟨hmods, hlost⟩ := Keys.mods_after pre
  obtain ⟨ch', hch', hup⟩ := pushed_letter k
    ((Keys.after pre).shiftHeld && !(Keys.after pre).shiftLost)
    (decide (((Keys.after pre).capsPresses + (Keys.after pre).capsRepeats) % 2 = 1)) hk
  obtain rfl : ch' = ch := by
    rcases hs.queued k.make with hq | hq
    · exact absurd (hq.symm.trans hch) nofun
    · rw [hq, hmods] at hch
      exact Option.some.inj (hch'.symm.trans hch)
  rw [hup]
  exact (letter_iff hlost).mpr hiff

/-- The handler tracks the modifier keys exactly when at every letter of the stream a shift key is
lost if and only if Caps Lock has repeated an odd number of times. -/
theorem keyboard_tracks (st : ScanStream) :
    Tracks st.codes ↔ ∀ pre k post, st.codes = pre ++ .make k :: post → k.IsLetter →
      ((Keys.after pre).shiftLost = true ↔ Odd (Keys.after pre).capsRepeats) := by
  constructor
  · exact fun h pre k post hst hk => h.lost_iff hst hk
  · intro h
    constructor
    · exact fun pre k post hst hk s hs ch hch => isUpper_queued hk (h pre k post hst hk) hs hch
    · exact fun pre c post _ hc bs b rest hb s hs ch hch => queued_silent pre hc hb hs hch

def leftShift : Key := ⟨0x2A, by decide, by decide, by decide⟩

def rightShift : Key := ⟨0x36, by decide, by decide, by decide⟩

def capsLock : Key := ⟨0x3A, by decide, by decide, by decide⟩

def letterA : Key := ⟨0x1E, by decide, by decide, by decide⟩

/-- Both shift keys go down, the left one goes up, and `A` goes down. -/
def bothShifts : ScanStream :=
  ⟨[.make leftShift, .make rightShift, .release leftShift, .make letterA],
    trivial, trivial, by decide, trivial, trivial⟩

/-- Caps Lock goes down and repeats once, and `A` goes down. -/
def heldCaps : ScanStream :=
  ⟨[.make capsLock, .make capsLock, .make letterA], trivial, trivial, trivial, trivial⟩

/-- Both streams queue `a`. -/
theorem keyboard_strays :
    (∃ s, Feeds [0x2A, 0x36, 0xAA] s ∧ s.queued letterA.make = some 97) ∧
      ¬ Tracks bothShifts.codes ∧
      (∃ s, Feeds [0x3A, 0x3A] s ∧ s.queued letterA.make = some 97) ∧
      ¬ Tracks heldCaps.codes := by
  refine ⟨⟨_, ((Feeds.boot.byte 0x2A).byte 0x36).byte 0xAA, rfl⟩, fun h => ?_,
    ⟨_, (Feeds.boot.byte 0x3A).byte 0x3A, rfl⟩, fun h => ?_⟩
  · have hst : bothShifts.codes =
        [.make leftShift, .make rightShift, .release leftShift] ++ .make letterA :: [] := rfl
    have hiff := h.lost_iff hst (by decide)
    exact absurd (hiff.mp (by decide)) (by decide)
  · have hst : heldCaps.codes = [.make capsLock, .make capsLock] ++ .make letterA :: [] := rfl
    have hiff := h.lost_iff hst (by decide)
    exact absurd (hiff.mpr (by decide)) (by decide)

end GenOS.Keyboard
