import Mathlib.Data.BitVec
import Mathlib.Data.Nat.Bitwise

/-!
# Page-table entries

The constants of `mm/vmm.h` and what the code does with the bits of an entry. A word is a
`BitVec 64`, as the source's `uint64_t`. `Word.has w PTE` is the source's `w & PTE` used as a
truth value; every flag is one bit, so the lemmas read it as that bit.
-/

namespace GenOS

/-- `uint64_t`. -/
abbrev Word := BitVec 64

def ptePresent : Word := 1#64 <<< 0
def pteWrite : Word := 1#64 <<< 1
def pteUser : Word := 1#64 <<< 2
def pteLarge : Word := 1#64 <<< 7
def pteCow : Word := 1#64 <<< 9
def pteNx : Word := 1#64 <<< 63
def pteAddrMask : Word := 0x000FFFFFFFFFF000#64
def pteFlagMask : Word := 0xFFF#64 ||| pteNx

/-- `VMM_FLAGS_USER_DATA`, `VMM_FLAGS_USER_STACK`. -/
def vmmFlagsUserData : Word := ptePresent ||| pteWrite ||| pteUser ||| pteNx

def vmmPteAddress (entry : Word) : Word := entry &&& pteAddrMask

namespace Word

/-- `w & mask` as a truth value. -/
def has (w mask : Word) : Bool := w &&& mask != 0#64

/-! ## One bit -/

theorem has_bit (w : Word) {k : Nat} (hk : k < 64) : has w (1#64 <<< k) = w.getLsbD k := by
  unfold has
  rw [show (1#64 <<< k) = BitVec.twoPow 64 k from rfl, BitVec.and_twoPow]
  cases h : w.getLsbD k
  · simp
  · simp only [if_true, bne_iff_ne, ne_eq]
    intro hz
    have := congrArg (fun y => BitVec.getLsbD y k) hz
    simp [hk] at this

theorem has_present (w : Word) : has w ptePresent = w.getLsbD 0 := has_bit w (by decide)
theorem has_write (w : Word) : has w pteWrite = w.getLsbD 1 := has_bit w (by decide)
theorem has_user (w : Word) : has w pteUser = w.getLsbD 2 := has_bit w (by decide)
theorem has_large (w : Word) : has w pteLarge = w.getLsbD 7 := has_bit w (by decide)
theorem has_cow (w : Word) : has w pteCow = w.getLsbD 9 := has_bit w (by decide)
theorem has_nx (w : Word) : has w pteNx = w.getLsbD 63 := has_bit w (by decide)

@[simp] theorem has_zero (mask : Word) : has 0#64 mask = false := by simp [has]

theorem getLsbD_shift (k i : Nat) :
    (1#64 <<< k).getLsbD i = (decide (i = k) && decide (i < 64)) := by
  rw [show (1#64 <<< k) = BitVec.twoPow 64 k from rfl, BitVec.getLsbD_twoPow]
  by_cases h : k = i
  · subst h
    simp
  · simp [h, Ne.symm h]

/-- The word with the bits of `l`. -/
def ofBits (l : List Nat) : Word := l.foldr (fun k w => 1#64 <<< k ||| w) 0#64

theorem getLsbD_ofBits (l : List Nat) {i : Nat} (hi : i < 64) :
    (ofBits l).getLsbD i = decide (i ∈ l) := by
  induction l with
  | nil => simp [ofBits]
  | cons k l ih =>
    show (1#64 <<< k ||| ofBits l).getLsbD i = _
    rw [BitVec.getLsbD_or, ih, getLsbD_shift]
    simp [hi, List.mem_cons]

/-- A test for some of the bits of a mask. -/
theorem and_ofBits {w : Word} {l l' : List Nat} (hl : ∀ k ∈ l, k < 64) (hs : l' ⊆ l) :
    w &&& ofBits l = ofBits l' ↔ ∀ k ∈ l, w.getLsbD k = decide (k ∈ l') := by
  constructor
  · intro h k hk
    have hb := congrArg (fun x => BitVec.getLsbD x k) h
    simp only [BitVec.getLsbD_and, getLsbD_ofBits _ (hl k hk), hk, decide_true, Bool.and_true] at hb
    exact hb
  · intro h
    apply BitVec.eq_of_getLsbD_eq
    intro i hi
    rw [BitVec.getLsbD_and, getLsbD_ofBits _ hi, getLsbD_ofBits _ hi]
    by_cases hil : i ∈ l
    · rw [h i hil, decide_eq_true hil, Bool.and_true]
    · rw [decide_eq_false hil, decide_eq_false fun hi' => hil (hs hi'), Bool.and_false]

theorem getLsbD_addrMask (i : Nat) : pteAddrMask.getLsbD i = decide (12 ≤ i ∧ i < 52) := by
  by_cases hi : i < 64
  · exact (by decide : ∀ i : Fin 64, pteAddrMask.getLsbD i = decide (12 ≤ i.val ∧ i.val < 52))
      ⟨i, hi⟩
  · rw [BitVec.getLsbD_of_ge _ _ (by omega)]
    exact (decide_eq_false (by omega)).symm

theorem getLsbD_flagMask (i : Nat) : pteFlagMask.getLsbD i = decide (i < 12 ∨ i = 63) := by
  by_cases hi : i < 64
  · exact (by decide : ∀ i : Fin 64, pteFlagMask.getLsbD i = decide (i.val < 12 ∨ i.val = 63))
      ⟨i, hi⟩
  · rw [BitVec.getLsbD_of_ge _ _ (by omega)]
    exact (decide_eq_false (by omega)).symm

/-- A word without bits outside a mask. -/
theorem getLsbD_of_and_not {w mask : Word} (h : w &&& ~~~mask = 0#64) {i : Nat} (hi : i < 64)
    (hm : mask.getLsbD i = false) : w.getLsbD i = false := by
  have := congrArg (fun x => BitVec.getLsbD x i) h
  simp only [BitVec.getLsbD_and, BitVec.getLsbD_not, hm, hi, BitVec.getLsbD_zero, Bool.not_false,
    decide_true, Bool.and_true] at this
  exact this

/-! ## Addresses and flags -/

/-- A frame address fits the address field of an entry. -/
theorem address_ofNat {f : Nat} (ha : f % 4096 = 0) (hlt : f < 2 ^ 52) :
    (BitVec.ofNat 64 f : Word) &&& ~~~pteAddrMask = 0#64 := by
  apply BitVec.eq_of_getLsbD_eq
  intro i hi
  rw [BitVec.getLsbD_and, BitVec.getLsbD_not, getLsbD_addrMask, BitVec.getLsbD_ofNat]
  simp only [hi, decide_true, Bool.true_and, BitVec.getLsbD_zero, Bool.and_eq_false_iff,
    Bool.not_eq_false', decide_eq_true_eq]
  by_cases h12 : i < 12
  · left
    obtain ⟨q, rfl⟩ : ∃ q, f = 2 ^ 12 * q := ⟨f / 4096, by omega⟩
    rw [Nat.testBit_two_pow_mul]
    simp [Nat.not_le.mpr h12]
  · by_cases h52 : i < 52
    · exact .inr ⟨by omega, h52⟩
    · left
      exact Nat.testBit_lt_two_pow
        (Nat.lt_of_lt_of_le hlt (Nat.pow_le_pow_right (by decide) (by omega)))

theorem toNat_ofNat {f : Nat} (hlt : f < 2 ^ 52) : (BitVec.ofNat 64 f : Word).toNat = f := by
  rw [BitVec.toNat_ofNat]
  exact Nat.mod_eq_of_lt (by omega)

/-- What an entry built from an address and flags says. -/
structure Built (w phys flags : Word) : Prop where
  address : vmmPteAddress w = phys
  flag : w &&& pteFlagMask = flags
  bit : ∀ i, i < 12 ∨ i = 63 → w.getLsbD i = flags.getLsbD i

/-- The flags of an entry keep its flag bits. -/
theorem getLsbD_flags (w : Word) {i : Nat} (hi : i < 12 ∨ i = 63) :
    (w &&& pteFlagMask).getLsbD i = w.getLsbD i := by
  rw [BitVec.getLsbD_and, getLsbD_flagMask, decide_eq_true hi, Bool.and_true]

theorem built {phys flags : Word} (hp : phys &&& ~~~pteAddrMask = 0#64)
    (hf : flags &&& ~~~pteFlagMask = 0#64) : Built (phys ||| flags) phys flags := by
  have hbit : ∀ i, i < 12 ∨ i = 63 → (phys ||| flags).getLsbD i = flags.getLsbD i := by
    intro i hi
    rw [BitVec.getLsbD_or, getLsbD_of_and_not hp (by omega) (by
      rw [getLsbD_addrMask]
      exact decide_eq_false (by omega)), Bool.false_or]
  refine ⟨BitVec.eq_of_getLsbD_eq fun i hi => ?_, BitVec.eq_of_getLsbD_eq fun i hi => ?_, hbit⟩
  · rw [vmmPteAddress, BitVec.getLsbD_and, BitVec.getLsbD_or, getLsbD_addrMask]
    by_cases hr : 12 ≤ i ∧ i < 52
    · have : flags.getLsbD i = false := getLsbD_of_and_not hf hi (by
        rw [getLsbD_flagMask]
        exact decide_eq_false (by omega))
      simp [hr, this]
    · have : phys.getLsbD i = false := getLsbD_of_and_not hp hi (by
        rw [getLsbD_addrMask]
        exact decide_eq_false hr)
      simp [hr, this]
  · rw [BitVec.getLsbD_and, getLsbD_flagMask]
    by_cases hr : i < 12 ∨ i = 63
    · simp [hbit i hr, hr]
    · have : flags.getLsbD i = false := getLsbD_of_and_not hf hi (by
        rw [getLsbD_flagMask]
        exact decide_eq_false hr)
      simp [hr, this]

/-- Every entry is built from its address and its flags, up to the ignored bits 52 to 62. -/
theorem address_aligned (w : Word) : (vmmPteAddress w).toNat % 4096 = 0 ∧
    (vmmPteAddress w).toNat < 2 ^ 52 := by
  have hbit : ∀ i, (vmmPteAddress w).toNat.testBit i =
      (w.getLsbD i && decide (12 ≤ i ∧ i < 52)) := fun i => by
    rw [BitVec.testBit_toNat, vmmPteAddress, BitVec.getLsbD_and, getLsbD_addrMask]
  constructor
  · apply Nat.eq_of_testBit_eq
    intro i
    rw [show (4096 : Nat) = 2 ^ 12 from rfl, Nat.testBit_mod_two_pow, hbit, Nat.zero_testBit]
    by_cases h : i < 12
    · simp [Nat.not_le.mpr h]
    · simp [h]
  · refine Nat.lt_pow_two_of_testBit _ fun i hi => ?_
    rw [hbit]
    simp [Nat.not_lt.mpr hi]

end Word

end GenOS
