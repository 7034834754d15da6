import Mathlib.Data.Nat.Digits.Lemmas
import GenOS.Fs.TmpfsFile
import GenOS.Shell.Terminal

/-!
# The line buffers of the security terminal

Every handler but `cmd_rm` keeps its stores inside its buffers, whatever the system calls return:
the lengths of the literals, of the longest names and of the longest numbers add up to less than
the buffer. `cmd_rm` does so for names of up to 65 characters only.
-/

namespace GenOS.Shell

open Cursor Buffer

variable {sys : System} {b : Buffer UInt8} {l l' : List Event} {e : Event} {color : Color}

/-- Every store of a handler is inside its buffer. -/
def Within (l : List Event) : Prop := ∀ e ∈ l, e.InBounds

@[simp] theorem within_nil : Within [] := nofun

@[simp] theorem within_cons : Within (e :: l) ↔ e.InBounds ∧ Within l := List.forall_mem_cons

@[simp] theorem within_append : Within (l ++ l') ↔ Within l ∧ Within l' := List.forall_mem_append

@[simp] theorem inBounds_print {t : Text} : (Event.print t color).InBounds := trivial

@[simp] theorem inBounds_store {size index : Nat} :
    (Event.store size index).InBounds ↔ index < size := Iff.rfl

theorem within_flatMap {ι : Type} {xs : List ι} {f : ι → List Event} :
    Within (xs.flatMap f) ↔ ∀ x ∈ xs, Within (f x) := List.forall_mem_flatMap

@[simp] theorem within_stores : Within (stores b) ↔ b.Safe := List.forall_mem_map

/-- A line that is handed on has room for its terminator. -/
@[simp] theorem within_finish :
    Within (finish b color) ↔ b.Safe ∧ b.text.length < b.size := by
  rw [finish, within_append, within_stores, safe_close]
  simp

/-! ## The helpers -/

theorem tmpDigits_pos (v : UInt64) : 1 ≤ (tmpDigits v).length := by
  unfold tmpDigits
  split
  · exact le_refl 1
  · next h =>
    have hv : v.toNat ≠ 0 := fun h0 => h (UInt64.toNat_inj.mp h0)
    rw [List.length_map]
    exact List.length_pos_iff.mpr (Nat.digits_ne_nil_iff_ne_zero.mpr hv)

theorem tmpDigits_le {v : UInt64} {k : Nat} (hk : 1 ≤ k) (h : v.toNat < 10 ^ k) :
    (tmpDigits v).length ≤ k := by
  unfold tmpDigits
  split
  · exact hk
  · rw [List.length_map]
    exact (Nat.digits_length_le_iff (by decide) _).mpr h

theorem tmpDigits_le_twenty (v : UInt64) : (tmpDigits v).length ≤ 20 :=
  tmpDigits_le (by decide) (v.toNat_lt.trans (by decide))

theorem tmpDigits_le_ten {n : Nat} (h : n < 4294967296) :
    (tmpDigits (UInt64.ofNat n)).length ≤ 10 :=
  tmpDigits_le (by decide) (by rw [UInt64.toNat_ofNat']; omega)

@[simp] theorem strAppend_size {s : Text} : (strAppend b s).size = b.size := appendUpTo_size

@[simp] theorem strAppend_length {s : Text} : (strAppend b s).text.length =
    max b.text.length (min 120 (b.text.length + s.length)) := length_appendUpTo

@[simp] theorem strAppend_safe {s : Text} : (strAppend b s).Safe ↔ b.Safe ∧
    (120 ≤ b.text.length ∨ s.length = 0 ∨ min 120 (b.text.length + s.length) ≤ b.size) :=
  safe_appendUpTo

@[simp] theorem u64ToStr_size {v : UInt64} : (u64ToStr b v).size = b.size := append_size

@[simp] theorem u64ToStr_length {v : UInt64} :
    (u64ToStr b v).text.length = b.text.length + (tmpDigits v).length := by
  simp [u64ToStr]

/-- `tmp` is large enough for every number. -/
@[simp] theorem u64ToStr_safe {v : UInt64} :
    (u64ToStr b v).Safe ↔ b.Safe ∧ b.text.length + (tmpDigits v).length ≤ b.size := by
  have hpos := tmpDigits_pos v
  have htmp : ((line 24).append (tmpDigits v)).Safe :=
    safe_append.mpr ⟨safe_new, .inr (by simpa using (tmpDigits_le_twenty v).trans (by decide))⟩
  rw [u64ToStr, safe_append, safe_also, append_text]
  simp only [List.length_reverse, new_text, List.nil_append, also_text, also_size]
  constructor
  · rintro ⟨⟨h, -⟩, hl⟩
    exact ⟨h, by omega⟩
  · rintro ⟨h, hl⟩
    exact ⟨⟨h, htmp⟩, .inr hl⟩

@[simp] theorem str_length (s : String) : (str s).length = s.toList.length := by
  rw [str, List.length_map]

@[simp] theorem i32ToStr_size {v : Int} : (i32ToStr b v).size = b.size := by
  rw [i32ToStr, u64ToStr_size]
  split <;> rfl

/-- A sign and ten digits. -/
theorem i32ToStr_within (v : Int) (hb : b.Safe) (hl : b.text.length + 11 ≤ b.size) :
    (i32ToStr b v).Safe ∧ (i32ToStr b v).text.length ≤ b.text.length + 11 := by
  have := tmpDigits_le_ten (Nat.mod_lt v.natAbs (by decide : 4294967296 > 0))
  rw [i32ToStr, u64ToStr_safe, u64ToStr_length]
  split
  · simp only [safe_put, put_text, put_size, List.length_append, List.length_singleton]
    exact ⟨⟨⟨hb, by omega⟩, by omega⟩, by omega⟩
  · exact ⟨⟨hb, by omega⟩, by omega⟩

/-! ## The handlers -/

theorem cmdHwinfo_within : Within (cmdHwinfo sys) := by
  have hd := tmpDigits_le_twenty
  unfold cmdHwinfo
  split
  · simp
  next info _ =>
    have h1 := hd info.onlineCpus.toUInt64
    have h2 := hd info.detectedCpus.toUInt64
    have h3 := hd info.currentCpu.toUInt64
    have h4 := hd (info.freeBytes / 1024)
    have h5 := hd info.pciDevices.toUInt64
    simp only [within_append, within_flatMap]
    refine ⟨⟨⟨?_, ?_⟩, ?_⟩, fun i _ => ?_⟩
    · simp
      omega
    · simp
      omega
    · simp
    · have h6 := hd (UInt64.ofNat i)
      have h7 := hd (info.switches i)
      simp
      omega

theorem lsLine_within {entry : Text × Int} (h : entry.1.length ≤ 99) : Within (lsLine entry) := by
  have := tmpDigits_le_twenty (UInt64.ofInt entry.2)
  simp [lsLine, length_pad, safe_pad]
  omega

theorem cmdLs_within : Within (cmdLs sys) := by
  rw [cmdLs, within_cons]
  refine ⟨trivial, ?_⟩
  split
  · simp
  · exact within_flatMap.mpr fun entry h => lsLine_within (sys.entries_le entry h)

theorem cmdCat_within (fname : Text) : Within (cmdCat sys fname) := by
  unfold cmdCat
  extract_lets fd
  split
  · simp
  have hr := sys.read_le fd 511
  split
  next bytes content hread =>
    rw [hread] at hr
    dsimp only at hr
    split
    · simp
      omega
    · simp

theorem copyName_within (args : Text) (hb : b.Safe) (hs : b.size = 64) (hl : b.text.length ≤ 63) :
    (copyName b args).1.Safe ∧ (copyName b args).1.size = 64 ∧
      (copyName b args).1.text.length ≤ 63 := by
  induction args generalizing b with
  | nil => exact ⟨hb, hs, hl⟩
  | cons c args ih =>
    rw [copyName]
    split
    · next h => exact ih (safe_put.mpr ⟨hb, by omega⟩) hs (by simp; omega)
    · exact ⟨hb, hs, hl⟩

theorem cmdWrite_within (args : Text) : Within (cmdWrite sys args) := by
  obtain ⟨hf, hs, hl⟩ := copyName_within (b := line 64) args safe_new rfl (by simp)
  unfold cmdWrite
  split
  next fname rest hname =>
    simp only [hname] at hf hs hl
    extract_lets text fd
    rw [within_append, within_stores, safe_close]
    refine ⟨⟨hf, hs.symm ▸ Nat.lt_succ_of_le hl⟩, ?_⟩
    split
    · simp
    split
    · simp
    split
    · obtain ⟨hi, hn⟩ := i32ToStr_within (b := strAppend (line 128) (str "[OK] Wrote "))
        (sys.write fd text) (by simp) (by simp)
      simp at hn
      show Within (finish (strAppend (strAppend (i32ToStr (strAppend (line 128)
        (str "[OK] Wrote ")) (sys.write fd text)) (str " bytes to ")) fname.text) .success)
      simp [hi]
      omega
    · simp

theorem cmdRm_within (fname : Text) :
    Within (cmdRm sys fname) ↔ (sys.unlink fname = 0 → fname.length ≤ 65) := by
  unfold cmdRm
  split
  · next h =>
    simp [h]
    omega
  · next h => simp [h]

theorem cmdCache_within : Within (cmdCache sys) := by
  have hd := tmpDigits_le_twenty
  unfold cmdCache
  rw [within_cons]
  refine ⟨trivial, ?_⟩
  split
  · simp
  next cs _ =>
    have h1 := hd cs.hits
    have h2 := hd cs.misses
    have h3 := hd cs.evictions
    have h4 := hd cs.usedBlocks.toUInt64
    have h5 := hd cs.totalBlocks.toUInt64
    have h6 := hd (cs.hits * 100 / (cs.hits + cs.misses))
    simp only [within_append]
    refine ⟨⟨⟨⟨?_, ?_⟩, ?_⟩, ?_⟩, ?_⟩
    · simp
      omega
    · simp
      omega
    · simp
      omega
    · simp
      omega
    · split
      · simp [safe_put]
        omega
      · simp

theorem cmdFork_within : Within (cmdFork sys) := by
  obtain ⟨hi, hn⟩ := i32ToStr_within (b := strAppend (line 80) (str "[PARENT] Child PID: "))
    sys.fork (by simp) (by simp)
  unfold cmdFork
  rw [within_cons]
  refine ⟨trivial, ?_⟩
  split
  · simp
  split
  · simp
  · simp at hn
    simp [hi]
    omega

theorem cmdWhoami_within : Within (cmdWhoami sys) := by
  have hu := sys.userName_le
  obtain ⟨hi, hn⟩ := i32ToStr_within (b := strAppend (strAppend (strAppend (line 80)
    (str "[*] User: ")) sys.userName) (str "  (UID ")) sys.uid (by simp; omega) (by simp; omega)
  simp at hn
  simp [cmdWhoami, safe_put, hi]
  omega

theorem readPassword_within (keys : Text) (hb : b.Safe) (hs : b.size = 64)
    (hl : b.text.length ≤ 63) : (readPassword b keys).Safe ∧ (readPassword b keys).size = 64 ∧
      (readPassword b keys).text.length ≤ 63 := by
  induction keys generalizing b with
  | nil => exact ⟨hb, hs, hl⟩
  | cons k keys ih =>
    rw [readPassword]
    split
    · exact ⟨hb, hs, hl⟩
    split
    · exact ih hb hs (by simp; omega)
    split
    · next h => exact ih (safe_put.mpr ⟨hb, by omega⟩) hs (by simp; omega)
    · exact ih hb hs hl

theorem cmdLogin_within (uname : Text) : Within (cmdLogin sys uname) := by
  obtain ⟨hp, hs, hl⟩ := readPassword_within (b := line 64) sys.passwordKeys safe_new rfl (by simp)
  unfold cmdLogin
  dsimp only
  rw [within_append, within_cons, within_stores, safe_close]
  refine ⟨⟨trivial, hp, by omega⟩, ?_⟩
  split
  · next h =>
    have hu := sys.login_le _ _ h
    obtain ⟨hi, hn⟩ := i32ToStr_within (b := strAppend (strAppend (strAppend (line 80)
      (str "[OK] Authenticated as ")) uname) (str " (UID "))
      (sys.login uname (readPassword (line 64) sys.passwordKeys).text) (by simp; omega)
      (by simp; omega)
    simp at hn
    simp [safe_put, hi]
    omega
  · simp

/-! ## The loop -/

theorem printPrompt_within : Within (printPrompt sys) := by
  simp [printPrompt, prompt, safe_close, length_appendUpTo, safe_appendUpTo]
  omega

theorem within_ite {c : Prop} [Decidable c] {r : Option (List Event)} (hl : Within l)
    (hr : ∀ events, r = some events → Within events) :
    ∀ events, (if c then some l else r) = some events → Within events := by
  intro events h
  split at h
  · cases h
    exact hl
  · exact hr events h

theorem plainCommand_within {cmd : Text} :
    ∀ events, plainCommand sys cmd = some events → Within events := by
  have usage {s : String} : Within [.print (str s) .warn] := by simp
  exact within_ite cmdHwinfo_within <| within_ite cmdLs_within <| within_ite cmdCache_within <|
    within_ite cmdFork_within <| within_ite cmdWhoami_within <| within_ite usage <|
    within_ite usage <| within_ite usage <| within_ite usage <| within_ite usage <|
    within_ite usage <| within_ite within_nil nofun

/-- `rm` of a file with a name of 66 characters or more. -/
def LongRm (sys : System) (cmd : Text) : Prop :=
  ∃ name : Text, cmd = str "rm " ++ name ∧ 66 ≤ name.length ∧ sys.unlink name = 0

theorem longRm_iff {name : Text} :
    LongRm sys (str "rm " ++ name) ↔ 66 ≤ name.length ∧ sys.unlink name = 0 := by
  constructor
  · rintro ⟨name', h, hl⟩
    rwa [List.append_cancel_left h]
  · rintro h
    exact ⟨name, rfl, h⟩

/-- No other command looks like `rm` with a name. -/
theorem dispatch_within {cmd : Text} : Within (dispatch sys cmd) ↔ ¬ LongRm sys cmd := by
  by_cases hrm : ∃ name, cmd = str "rm " ++ name
  · obtain ⟨name, rfl⟩ := hrm
    have hp : plainCommand sys (str "rm " ++ name) = none := by
      simp [plainCommand, str]
    have hd : dispatch sys (str "rm " ++ name) = cmdRm sys name := by
      rw [dispatch, hp]
      simp [str]
    rw [hd, cmdRm_within, longRm_iff]
    constructor
    · rintro h ⟨hl, hu⟩
      have := h hu
      omega
    · intro h hu
      by_contra hl
      exact h ⟨by omega, hu⟩
  · have hl : ¬ LongRm sys cmd := fun ⟨name, h, _⟩ => hrm ⟨name, h⟩
    refine iff_of_true ?_ hl
    unfold dispatch
    split
    · next events h => exact plainCommand_within events h
    split
    · exact cmdCat_within _
    split
    · exact cmdWrite_within _
    split
    · next h => 
      obtain ⟨name, h⟩ := List.isPrefixOf_iff_prefix.mp h
      exact absurd ⟨name, h.symm⟩ hrm
    split
    · exact cmdLogin_within _
    split
    · exact within_nil
    split
    · exact within_nil
    · simp

theorem longRm_nil : ¬ LongRm sys [] := by
  rintro ⟨name, h, -⟩
  cases h

theorem enter_within {cmd : Text} (hc : cmd.length ≤ 254) :
    Within (enter sys cmd) ↔ ¬ LongRm sys cmd := by
  have hecho : Within (finish (strAppend (prompt sys 200) cmd) .prompt) := by
    simp [prompt, length_appendUpTo, safe_appendUpTo]
  have hdispatch : Within (if cmd = [] then [] else dispatch sys cmd) ↔ ¬ LongRm sys cmd := by
    split
    · next h => exact iff_of_true within_nil (h ▸ longRm_nil)
    · exact dispatch_within
  rw [enter, within_append, within_append, within_cons, hdispatch, inBounds_store]
  exact ⟨fun h => h.1.2, fun h => ⟨⟨⟨by omega, hecho⟩, h⟩, printPrompt_within⟩⟩

/-- The cursor of the command line stays below the terminator's place. -/
theorem press_length {cmd : Text} (hc : cmd.length ≤ 254) (p : Press) :
    (press cmd p).1.length ≤ 254 := by
  unfold press
  split_ifs
  all_goals simp
  all_goals omega

theorem press_within {cmd : Text} (hc : cmd.length ≤ 254) (p : Press) :
    Within (press cmd p).2 ↔ (p.key = 10 → ¬ LongRm p.sys cmd) := by
  have hdrawn : Within (if p.redraw then printPrompt p.sys else []) := by
    split
    · exact printPrompt_within
    · exact within_nil
  unfold press
  extract_lets drawn
  by_cases h10 : p.key = 10
  · rw [if_neg (by rw [h10]; decide), if_neg (by rw [h10]; decide), if_pos h10]
    simp only [within_append, enter_within hc]
    exact ⟨fun h _ => h.2, fun h => ⟨hdrawn, h h10⟩⟩
  · refine iff_of_true ?_ fun h => absurd h h10
    rw [if_neg h10]
    split_ifs
    · exact within_nil
    · exact hdrawn
    · exact hdrawn
    · exact hdrawn
    · simp only [within_append, within_cons, inBounds_store]
      exact ⟨hdrawn, by omega, within_nil⟩
    · exact hdrawn

theorem session_within (ps : List Press) {cmd : Text} (hc : cmd.length ≤ 254) :
    Within (session cmd ps) ↔ ∀ q ∈ accepted cmd ps, ¬ LongRm q.1 q.2 := by
  induction ps generalizing cmd with
  | nil => exact iff_of_true within_nil nofun
  | cons p ps ih =>
    rw [session, within_append, press_within hc, ih (press_length hc p), accepted]
    by_cases h10 : p.key = 10
    · rw [if_pos h10, List.forall_mem_cons]
      simp [h10]
    · rw [if_neg h10]
      simp [h10]

/-- **The stores of a session** are all inside their buffers exactly if no command line removes a
file with a name of 66 characters or more. -/
theorem line_buffers_exact (sys : System) (ps : List Press) :
    (∀ e ∈ start sys ps, e.InBounds) ↔ ∀ q ∈ accepted [] ps, ¬ LongRm q.1 q.2 := by
  show Within (printPrompt sys ++ session [] ps) ↔ _
  have h : Within (session [] ps) ↔ _ := session_within ps (by decide)
  rw [within_append, h]
  exact and_iff_right printPrompt_within

/-! ## A long name -/

/-- A key that is a character of the command line. -/
def Printable (key : UInt8) : Prop := 32 ≤ key ∧ key < 127

instance (key : UInt8) : Decidable (Printable key) :=
  inferInstanceAs (Decidable (32 ≤ key ∧ key < 127))

theorem Printable.ne {key k : UInt8} (h : Printable key) (hk : ¬ Printable k := by decide) :
    key ≠ k := fun he => hk (he ▸ h)

theorem press_printable {key : UInt8} (hk : Printable key) {cmd : Text} (hc : cmd.length < 254) :
    (press cmd ⟨key, false, sys⟩).1 = cmd ++ [key] := by
  have h0 : key ≠ 0 := hk.ne
  have h10 : key ≠ 10 := hk.ne
  have h8 : key ≠ 8 := hk.ne
  have hview : ¬ (key = 0x84 ∨ key = 0x85) := not_or.mpr ⟨hk.ne, hk.ne⟩
  have harrow : ¬ (key = 0x80 ∨ key = 0x81 ∨ key = 0x82 ∨ key = 0x83) :=
    not_or.mpr ⟨hk.ne, not_or.mpr ⟨hk.ne, not_or.mpr ⟨hk.ne, hk.ne⟩⟩⟩
  simp only [press, h0, h10, h8, hview, harrow, hc, if_true, if_false]

/-- Every line of up to 254 characters is accepted. -/
theorem accepted_typed {line : Text} (hl : ∀ key ∈ line, Printable key) {cmd : Text}
    (hn : cmd.length + line.length ≤ 254) :
    accepted cmd (typed sys line) = [(sys, cmd ++ line)] := by
  induction line generalizing cmd with
  | nil => simp [typed, accepted]
  | cons key line ih =>
    have hk := hl key List.mem_cons_self
    rw [List.length_cons] at hn
    show accepted cmd (⟨key, false, sys⟩ :: typed sys line) = _
    rw [accepted, if_neg hk.ne, press_printable hk (by omega),
      ih (fun k h => hl k (List.mem_cons_of_mem _ h)) (by simp; omega), List.append_assoc]
    rfl

theorem tmpfsOpen_create {fs : Tmpfs} {name : Text} {alloc : HeapBlockBytes}
    (hl : name.length ≤ 99) (h : (fs.tmpfsCreate name alloc).2.isSome) :
    ∃ i, (fs.tmpfsCreate name alloc).1.tmpfsOpen name = some i := by
  rcases Tmpfs.tmpfsCreate_cases fs name alloc with
    ⟨i, ho, hc⟩ | ⟨-, ⟨-, hc⟩ | ⟨i, block, hi, -, -, hc⟩⟩
  · exact ⟨i, by rw [hc, ho]⟩
  · rw [hc] at h
    cases h
  · rw [hc]
    dsimp only
    cases ho : Tmpfs.tmpfsOpen (Function.update fs i (Tmpfs.created name block)) name with
    | some j => exact ⟨j, rfl⟩
    | none =>
      have hname := Tmpfs.tmpfsOpen_none ho hi
      rw [Function.update_self] at hname
      exact absurd (List.take_of_length_le hl) (hname rfl)

/-- A file that a program creates can be removed by its name. -/
theorem sysUnlink_create {s : Vfs} {filename : Text} {alloc : HeapBlockBytes}
    (hl : filename.length ≤ 99) (h : (s.vfsCreate filename alloc).2 = 0) :
    sysUnlink (s.vfsCreate filename alloc).1 filename = 0 := by
  have hsome : (s.files.tmpfsCreate filename alloc).2.isSome := by
    by_contra hn
    simp [Vfs.vfsCreate, hn] at h
  obtain ⟨i, hi⟩ := tmpfsOpen_create hl hsome
  have hfiles : (s.vfsCreate filename alloc).1.files = (s.files.tmpfsCreate filename alloc).1 := rfl
  rw [sysUnlink, if_neg (by omega), Vfs.vfsUnlink, hfiles, Tmpfs.tmpfsUnlink, hi]

/-- A name of 66 characters. -/
def longName : Text := List.replicate 66 97

/-- The calls fail, except those of the kernel with the files of `s`. -/
def shellOn (s : Vfs) : System :=
  System.ofKernel
    { userName := [], uid := 0, openFile := fun _ _ => -1, entries := [], read := fun _ _ => (0, [])
      write := fun _ _ => -1, unlink := fun _ => -1, login := fun _ _ => -1, passwordKeys := []
      fork := -1, systemInfo := none, cacheStats := none, userName_le := by decide
      login_le := fun _ _ h => absurd h (by decide), entries_le := nofun
      read_le := fun _ n => Int.natCast_nonneg n }
    s (credInit credZero (List.replicate 16 0) (List.replicate 16 0)) 1000

/-- A program has created a file with a name of 66 characters, and the user removes it. -/
theorem rm_overruns :
    let sys := shellOn (Vfs.after (fun _ => none) [.create longName (some fun _ => 0)])
    ¬ ∀ e ∈ start sys (typed sys (str "rm " ++ longName)), e.InBounds := by
  intro sys h
  have hrm : (str "rm ").all fun key => decide (Printable key) := by decide
  have hprint : ∀ key ∈ str "rm " ++ longName, Printable key := List.forall_mem_append.mpr
    ⟨fun key hk => of_decide_eq_true (List.all_eq_true.mp hrm key hk),
      fun key hk => List.eq_of_mem_replicate hk ▸ by decide⟩
  have hs := (within_append.mp h).2
  rw [session_within _ (by decide), accepted_typed hprint (by decide)] at hs
  have hu : sys.unlink longName = 0 :=
    @sysUnlink_create Vfs.init longName (some fun _ => 0) (by decide) rfl
  exact hs _ List.mem_cons_self ⟨longName, rfl, by decide, hu⟩

end GenOS.Shell
