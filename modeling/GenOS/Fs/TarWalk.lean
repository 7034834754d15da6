import Mathlib.Data.Nat.Cast.Order.Ring
import Mathlib.Tactic.Ring.RingNF
import GenOS.Fs.Tar

/-!
# Walks over the archive

The three functions of `fs/tar.c` walk the same headers. A `Trail` is the list of them, in order; it
gives what each function returns. Without one a walk does not end: the step is computed in 64 bits
from a size field that may hold anything.
-/

namespace GenOS.Tar

variable {m : TarMem} {archive p : Nat} {l : List Nat} {name : List UInt8} {fuel : Nat}

/-- The headers from `p` on. -/
inductive Trail (m : TarMem) : Nat → List Nat → Prop
  | stop {p : Nat} (h : m p = 0) : Trail m p []
  | next {p : Nat} {l : List Nat} (h : m p ≠ 0) (ht : Trail m (nextHeader m p) l) :
    Trail m p (p :: l)

/-! ## What a trail gives -/

theorem Trail.listFilesLoop (h : Trail m p l) (hf : l.length < fuel) :
    listFilesLoop m fuel p = some (l.map fun q => (q, fileSize m q)) := by
  induction h generalizing fuel with
  | stop h =>
    obtain ⟨fuel, rfl⟩ := Nat.exists_eq_succ_of_ne_zero (Nat.ne_of_gt hf)
    exact if_pos h
  | next h _ ih =>
    obtain ⟨fuel, rfl⟩ := Nat.exists_eq_succ_of_ne_zero (Nat.ne_of_gt (Nat.zero_lt_of_lt hf))
    rw [Tar.listFilesLoop, if_neg h, ih (Nat.lt_of_succ_lt_succ hf)]
    rfl

theorem Trail.readFileLoop (h : Trail m p l) (hf : l.length < fuel) (name : List UInt8) :
    readFileLoop m name fuel p = some
      ((l.find? fun q => decide (strcmp m q name = 0)).map fun q =>
        (advance q 512, fileSize m q)) := by
  induction h generalizing fuel with
  | stop h =>
    obtain ⟨fuel, rfl⟩ := Nat.exists_eq_succ_of_ne_zero (Nat.ne_of_gt hf)
    exact if_pos h
  | @next p l h _ ih =>
    obtain ⟨fuel, rfl⟩ := Nat.exists_eq_succ_of_ne_zero (Nat.ne_of_gt (Nat.zero_lt_of_lt hf))
    rw [Tar.readFileLoop, if_neg h]
    by_cases hs : strcmp m p name = 0
    · rw [if_pos hs, List.find?_cons_of_pos (by simpa using hs)]
      rfl
    · rw [if_neg hs, List.find?_cons_of_neg (by simpa using hs)]
      exact ih (Nat.lt_of_succ_lt_succ hf)

/-- The value of `current` at the header `k`. -/
def counter (k : Nat) : Int := (k : Int).bmod 4294967296

theorem counter_succ (k : Nat) : (counter k + 1).bmod 4294967296 = counter (k + 1) := by
  unfold counter
  rw [Int.bmod_add_bmod, Nat.cast_succ]

theorem counter_of_lt {k : Nat} (h : k < 2147483648) : counter k = k := by
  unfold counter
  rw [Int.bmod_def]
  split <;> omega

theorem counter_inj {j k : Nat} (h : counter j = counter k) : j % 4294967296 = k % 4294967296 := by
  unfold counter at h
  rw [Int.bmod_def, Int.bmod_def] at h
  split at h <;> split at h <;> omega

/-- The entry that `tar_get_entry` copies from a header. -/
def entryAt (m : TarMem) (q : Nat) : List UInt8 × Nat := (copyName m q 99 0, fileSize m q)

/-- The counter wraps only after 2³² headers. -/
theorem Trail.getEntryLoop (h : Trail m p l) (hf : l.length < fuel) {i : Nat} (hi : i < 4294967296)
    (c : Nat) : getEntryLoop m (counter (c + i)) fuel p (counter c) =
      some (l[i]?.map (entryAt m)) := by
  induction h generalizing fuel i c with
  | stop h =>
    obtain ⟨fuel, rfl⟩ := Nat.exists_eq_succ_of_ne_zero (Nat.ne_of_gt hf)
    exact if_pos h
  | @next p l h _ ih =>
    obtain ⟨fuel, rfl⟩ := Nat.exists_eq_succ_of_ne_zero (Nat.ne_of_gt (Nat.zero_lt_of_lt hf))
    rw [Tar.getEntryLoop, if_neg h]
    cases i with
    | zero => exact if_pos rfl
    | succ i =>
      have hne : counter c ≠ counter (c + (i + 1)) := fun hc => by
        have := counter_inj hc
        omega
      rw [if_neg hne, counter_succ, ← Nat.add_assoc, Nat.add_right_comm,
        ih (Nat.lt_of_succ_lt_succ hf) (Nat.lt_of_succ_lt hi)]
      rfl

theorem Trail.getEntryLoop_isSome (h : Trail m p l) (hf : l.length < fuel) (index c : Int) :
    (Tar.getEntryLoop m index fuel p c).isSome := by
  induction h generalizing fuel c with
  | stop h =>
    obtain ⟨fuel, rfl⟩ := Nat.exists_eq_succ_of_ne_zero (Nat.ne_of_gt hf)
    rw [Tar.getEntryLoop, if_pos h]
    rfl
  | next h _ ih =>
    obtain ⟨fuel, rfl⟩ := Nat.exists_eq_succ_of_ne_zero (Nat.ne_of_gt (Nat.zero_lt_of_lt hf))
    rw [Tar.getEntryLoop, if_neg h]
    split
    · rfl
    · exact ih (Nat.lt_of_succ_lt_succ hf) _

/-! ## Steps -/

/-- A header that a walk comes to, if it does not stop before. -/
inductive Reached (m : TarMem) (archive : Nat) : Nat → Prop
  | start : Reached m archive archive
  | next {p : Nat} (h : Reached m archive p) (hp : m p ≠ 0) : Reached m archive (nextHeader m p)

theorem octalLoop_lt (m : TarMem) (str left i : Nat) {result : Nat}
    (h : result < 18446744073709551616) :
    octalLoop m str left i result < 18446744073709551616 := by
  induction left generalizing i result with
  | zero => exact h
  | succ left ih =>
    unfold octalLoop
    dsimp only
    split
    · exact ih (i + 1) (by omega)
    · exact h

theorem fileSize_lt (m : TarMem) (p : Nat) : fileSize m p < 18446744073709551616 :=
  octalLoop_lt m _ _ _ (by decide)

/-- The data of the entry, in blocks, ends in the address space. A size of the last 511 values is
rounded to 0. -/
def DataFits (m : TarMem) (p : Nat) : Prop :=
  if fileSize m p ≤ 18446744073709551104 then
    p + 512 + (fileSize m p + 511) / 512 * 512 < 18446744073709551616
  else p + 512 < 18446744073709551616

/-- The step goes forward by a positive multiple of 512. -/
def Forward (m : TarMem) (p : Nat) : Prop := p < nextHeader m p ∧ 512 ∣ nextHeader m p - p

theorem forward_iff (hp : p < 18446744073709551616) : Forward m p ↔ DataFits m p := by
  have hv := fileSize_lt m p
  unfold Forward DataFits nextHeader advance
  generalize fileSize m p = v at hv ⊢
  by_cases h : v ≤ 18446744073709551104
  · rw [if_pos h, Nat.mod_eq_of_lt (show v + 511 < 18446744073709551616 by omega)]
    generalize hb : (v + 511) / 512 = b
    have hle : b * 512 ≤ 18446744073709551104 := by omega
    omega
  · rw [if_neg h, show (v + 511) % 18446744073709551616 / 512 = 0 by omega]
    omega

theorem Reached.lt (h : Reached m archive p) (ha : archive < 18446744073709551616) :
    p < 18446744073709551616 := by
  cases h with
  | start => exact ha
  | next => exact Nat.mod_lt _ (by decide)

/-- Steps that go forward come to an end. -/
theorem exists_trail (hfwd : ∀ p, Reached m archive p → m p ≠ 0 → Forward m p)
    (hp : Reached m archive p) : ∃ l, Trail m p l := by
  induction hn : 18446744073709551616 - p using Nat.strong_induction_on generalizing p with
  | _ n ih =>
    by_cases h : m p = 0
    · exact ⟨[], .stop h⟩
    · have hlt := (hfwd p hp h).1
      have hnext : nextHeader m p < 18446744073709551616 := Nat.mod_lt _ (by decide)
      obtain ⟨l, hl⟩ := ih _ (by omega) (hp.next h) rfl
      exact ⟨p :: l, .next h hl⟩

/-- Every walk ends, by steps that go forward. -/
structure Terminates (m : TarMem) (archive : Nat) : Prop where
  forward : ∀ p, Reached m archive p → m p ≠ 0 → Forward m p
  readFile : ∀ filename, ∃ fuel, (tarReadFile m archive fuel filename).isSome
  listFiles : ∃ fuel, (tarListFiles m archive fuel).isSome
  getEntry : ∀ index, ∃ fuel, (tarGetEntry m archive fuel index).isSome

/-- The walks over an archive end, by steps that go forward, exactly when the data of every header
that they come to ends in the address space. -/
theorem tar_terminates (m : TarMem) (archive : Nat) (ha : archive < 18446744073709551616) :
    Terminates m archive ↔ ∀ p, Reached m archive p → m p ≠ 0 → DataFits m p := by
  constructor
  · exact fun h p hp hm => (forward_iff (hp.lt ha)).mp (h.forward p hp hm)
  · intro h
    have hfwd : ∀ p, Reached m archive p → m p ≠ 0 → Forward m p := fun p hp hm =>
      (forward_iff (hp.lt ha)).mpr (h p hp hm)
    obtain ⟨l, hl⟩ := exists_trail hfwd .start
    refine ⟨hfwd, fun filename => ⟨l.length + 1, ?_⟩, ⟨l.length + 1, ?_⟩,
      fun index => ⟨l.length + 1, ?_⟩⟩
    · unfold tarReadFile
      split
      · rfl
      · rw [hl.readFileLoop (Nat.lt_succ_self _)]
        rfl
    · unfold tarListFiles
      split
      · rfl
      · rw [hl.listFilesLoop (Nat.lt_succ_self _)]
        rfl
    · unfold tarGetEntry
      split
      · rfl
      · exact hl.getEntryLoop_isSome (Nat.lt_succ_self _) index 0

/-- An empty file `a`, in memory that is zero otherwise. -/
def oneFile : TarMem := fun p => if p = 4096 then 97 else 0

theorem tar_terminates_one : Terminates oneFile 4096 := by
  refine (tar_terminates oneFile 4096 (by decide)).mpr fun p _ hm => ?_
  obtain rfl : p = 4096 := by
    by_contra hne
    exact hm (if_neg hne)
  unfold DataFits
  exact (if_pos (by decide)).mpr (by decide)

/-- The size field of `a` holds the bytes `F0 30`, which are parsed to -512. -/
def stuck : TarMem := fun p =>
  if p = 4096 then 97 else if p = 4220 then 0xF0 else if p = 4221 then 48 else 0

/-- The walk stays at the header. -/
theorem tar_stuck : (∀ fuel, tarListFiles stuck 4096 fuel = none) ∧ ¬ Terminates stuck 4096 := by
  have hnext : nextHeader stuck 4096 = 4096 := rfl
  have hloop : ∀ fuel, listFilesLoop stuck fuel 4096 = none := by
    intro fuel
    induction fuel with
    | zero => rfl
    | succ fuel ih => rw [listFilesLoop, if_neg (by decide), hnext, ih, Option.map_none]
  have hnone : ∀ fuel, tarListFiles stuck 4096 fuel = none := fun fuel => hloop fuel
  refine ⟨hnone, fun h => ?_⟩
  obtain ⟨fuel, hf⟩ := h.listFiles
  rw [hnone fuel] at hf
  exact absurd hf nofun

end GenOS.Tar
