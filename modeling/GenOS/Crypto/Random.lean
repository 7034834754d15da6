import GenOS.Lib.XorShift

/-!
# The random number generator

`crypto/random.c`. What `rdrand` delivers is left open: `hw i` is its attempt `i`, `none` where the
carry flag stays clear. So are the time stamps and the stack address that `random_init` mixes into
the seed. The messages on the serial port are left out.
-/

namespace GenOS

/-- `prng_s`. -/
@[ext] structure Prng where
  s0 : BitVec 64
  s1 : BitVec 64
  s2 : BitVec 64
  s3 : BitVec 64
  deriving DecidableEq, Repr

/-- The static variables of `random.c`. -/
structure Random where
  hasRdrand : Bool
  prng : Prng

/-- `rdrand64`: ten attempts. -/
def rdrand64 (hw : Nat → Option (BitVec 64)) : Option (BitVec 64) := (List.range 10).findSome? hw

/-- `rotl64`. -/
def rotl64 (x : BitVec 64) (k : Nat) : BitVec 64 := x <<< k ||| x >>> (64 - k)

/-- `xoshiro256ss`. -/
def xoshiro256ss (s : Prng) : BitVec 64 × Prng :=
  let result := rotl64 (s.s1 * 5#64) 7 * 9#64
  let t := s.s1 <<< 17
  let s2 := s.s2 ^^^ s.s0
  let s3 := s.s3 ^^^ s.s1
  let s1 := s.s1 ^^^ s2
  let s0 := s.s0 ^^^ s3
  let s2 := s2 ^^^ t
  let s3 := rotl64 s3 45
  (result, ⟨s0, s1, s2, s3⟩)

/-- `splitmix64`: the word, and the state after it. -/
def splitmix64 (state : BitVec 64) : BitVec 64 × BitVec 64 :=
  let state := state + 0x9e3779b97f4a7c15#64
  let z := state
  let z := (z ^^^ z >>> 30) * 0xbf58476d1ce4e5b9#64
  let z := (z ^^^ z >>> 27) * 0x94d049bb133111eb#64
  (z ^^^ z >>> 31, state)

/-- The seeding steps of `random_init`. -/
def Prng.seed (seed : BitVec 64) : Prng :=
  let (s0, seed) := splitmix64 seed
  let (s1, seed) := splitmix64 seed
  let (s2, seed) := splitmix64 seed
  let (s3, _) := splitmix64 seed
  ⟨s0, s1, s2, s3⟩

/-- What `random_init` finds: `detect_rdrand`, two time stamps, `&seed`, and the hardware source. -/
structure Entropy where
  hasRdrand : Bool
  tsc : BitVec 64
  tsc' : BitVec 64
  address : BitVec 64
  hw : Nat → Option (BitVec 64)

/-- `random_init`. -/
def randomInit (e : Entropy) : Random :=
  let seed := e.tsc ^^^ e.tsc' ^^^ e.address
  let seed :=
    if e.hasRdrand then
      match rdrand64 e.hw with
      | some hw => seed ^^^ hw
      | none => seed
    else seed
  ⟨e.hasRdrand, .seed seed⟩

/-- `random_u64`. -/
def randomU64 (hw : Nat → Option (BitVec 64)) (r : Random) : BitVec 64 × Random :=
  match if r.hasRdrand then rdrand64 hw else none with
  | some val => (val, r)
  | none =>
    match xoshiro256ss r.prng with
    | (result, prng) => (result, { r with prng })

/-- `random_u32`. -/
def randomU32 (hw : Nat → Option (BitVec 64)) (r : Random) : BitVec 32 × Random :=
  match randomU64 hw r with
  | (val, r) => ((val >>> 32).setWidth 32, r)

/-- The low `n` bytes of a word. -/
def lowBytes (val : BitVec 64) (n : Nat) : List (BitVec 8) :=
  (List.range n).map fun i => (val >>> (i * 8)).setWidth 8

/-- The first loop of `random_bytes`, `n` turns from turn `k`. -/
def randomWords (hw : Nat → Nat → Option (BitVec 64)) :
    (n k : Nat) → Random → List (BitVec 8) × Random
  | 0, _, r => ([], r)
  | n + 1, k, r =>
    match randomU64 (hw k) r with
    | (val, r) =>
      match randomWords hw n (k + 1) r with
      | (bytes, r) => (lowBytes val 8 ++ bytes, r)

/-- `random_bytes`: the bytes that it stores. `hw k` is the hardware source at word `k`. -/
def randomBytes (hw : Nat → Nat → Option (BitVec 64)) (len : Nat) (r : Random) :
    List (BitVec 8) × Random :=
  match randomWords hw (len / 8) 0 r with
  | (bytes, r) =>
    if 0 < len % 8 then
      match randomU64 (hw (len / 8)) r with
      | (val, r) => (bytes ++ lowBytes val (len % 8), r)
    else (bytes, r)

/-- A call of the public interface. -/
inductive RandomCall where
  | u64 (hw : Nat → Option (BitVec 64))
  | u32 (hw : Nat → Option (BitVec 64))
  | bytes (hw : Nat → Nat → Option (BitVec 64)) (len : Nat)

/-- The state after a call. -/
def Random.call (r : Random) : RandomCall → Random
  | .u64 hw => (randomU64 hw r).2
  | .u32 hw => (randomU32 hw r).2
  | .bytes hw len => (randomBytes hw len r).2

namespace Prng

open XorShift

/-- The state that the generator must not be in. -/
def zero : Prng := ⟨0#64, 0#64, 0#64, 0#64⟩

/-- The transition of the state. -/
def next (s : Prng) : Prng := (xoshiro256ss s).2

/-! ## The transition -/

theorem rotl64_injective {k : Nat} (hk : k < 64) : Function.Injective fun x => rotl64 x k :=
  rotate_injective hk

/-- The words can be recovered: `s3 ^ s1` from the rotation, then `s0`, `s1`, `s2` and `s3`. -/
theorem next_injective : Function.Injective next := by
  rintro ⟨a, b, c, d⟩ ⟨a', b', c', d'⟩ h
  obtain ⟨h0, h1, h2, h3⟩ := Prng.mk.inj h
  have hu : d ^^^ b = d' ^^^ b' := rotl64_injective (show 45 < 64 by decide) h3
  have ha : a = a' := by
    rw [hu] at h0
    exact (BitVec.xor_left_inj _).mp h0
  have hshift : ∀ a b c : BitVec 64,
      (b ^^^ (c ^^^ a)) ^^^ ((c ^^^ a) ^^^ b <<< 17) = b ^^^ b <<< 17 := by
    intro a b c
    rw [BitVec.xor_assoc, ← BitVec.xor_assoc (c ^^^ a), BitVec.xor_self, BitVec.zero_xor]
  have hb : b = b' := by
    refine xor_shiftLeft_injective (show 0 < 17 by decide) ?_
    dsimp only
    rw [← hshift a b c, ← hshift a' b' c']
    exact congrArg₂ (· ^^^ ·) h1 h2
  subst ha hb
  have hc : c = c' := (BitVec.xor_left_inj a).mp ((BitVec.xor_right_inj b).mp h1)
  have hd : d = d' := (BitVec.xor_left_inj b).mp hu
  rw [hc, hd]

theorem next_zero : next zero = zero := by decide

theorem next_eq_zero_iff (s : Prng) : next s = zero ↔ s = zero :=
  ⟨fun h => next_injective (h.trans next_zero.symm), fun h => h ▸ next_zero⟩

/-! ## The seed -/

/-- The mixing of `splitmix64` loses nothing. -/
theorem splitmix64_injective : Function.Injective fun z => (splitmix64 z).1 := by
  have h1 := mul_injective (w := 64) (c := 0xbf58476d1ce4e5b9#64) (d := 0x96de1b173f119089#64)
    (by decide)
  have h2 := mul_injective (w := 64) (c := 0x94d049bb133111eb#64) (d := 0x319642b2d24d8ec3#64)
    (by decide)
  have hmix := (xor_shiftRight_injective (w := 64) (show 0 < 31 by decide)).comp
    (h2.comp ((xor_shiftRight_injective (show 0 < 27 by decide)).comp
      (h1.comp (xor_shiftRight_injective (show 0 < 30 by decide)))))
  intro x y h
  have hsum : x + 0x9e3779b97f4a7c15#64 = y + 0x9e3779b97f4a7c15#64 := hmix h
  exact add_right_cancel hsum

/-- Two words in a row are different. -/
theorem splitmix64_next_ne (z : BitVec 64) :
    (splitmix64 (splitmix64 z).2).1 ≠ (splitmix64 z).1 := by
  intro h
  have hz : z + 0x9e3779b97f4a7c15#64 = z := splitmix64_injective h
  exact absurd (add_eq_left.mp hz) (by decide)

theorem seed_ne_zero (seed : BitVec 64) : Prng.seed seed ≠ zero := by
  intro h
  obtain ⟨h0, h1, -, -⟩ := Prng.mk.inj h
  exact splitmix64_next_ne seed (h1.trans h0.symm)

end Prng

/-! ## Runs -/

namespace Random

variable {r : Random}

/-- The generator has not collapsed. -/
def Live (r : Random) : Prop := r.prng ≠ .zero

theorem Live.randomU64 (h : r.Live) (hw : Nat → Option (BitVec 64)) : Live (randomU64 hw r).2 := by
  unfold GenOS.randomU64
  split
  · exact h
  · exact fun hz => h ((Prng.next_eq_zero_iff r.prng).mp hz)

theorem Live.randomWords (h : r.Live) (hw : Nat → Nat → Option (BitVec 64)) (n k : Nat) :
    Live (randomWords hw n k r).2 := by
  induction n generalizing k r with
  | zero => exact h
  | succ n ih => exact ih (h.randomU64 (hw k)) (k + 1)

theorem Live.randomBytes (h : r.Live) (hw : Nat → Nat → Option (BitVec 64)) (len : Nat) :
    Live (randomBytes hw len r).2 := by
  have hwords := h.randomWords hw (len / 8) 0
  unfold GenOS.randomBytes
  dsimp only
  split
  · exact hwords.randomU64 _
  · exact hwords

theorem Live.call (h : r.Live) (c : RandomCall) : Live (r.call c) := by
  cases c with
  | u64 hw => exact h.randomU64 hw
  | u32 hw => exact h.randomU64 hw
  | bytes hw len => exact h.randomBytes hw len

theorem Live.calls (h : r.Live) (calls : List RandomCall) : Live (calls.foldl Random.call r) := by
  induction calls generalizing r with
  | nil => exact h
  | cons c calls ih => exact ih (h.call c)

theorem randomInit_live (e : Entropy) : Live (randomInit e) := Prng.seed_ne_zero _

/-- **The generator does not collapse**: no seed gives the state of zeros, and neither steps nor
calls lead to it. -/
theorem prng_never_collapses :
    (∀ seed n, Prng.next^[n] (.seed seed) ≠ .zero) ∧
      (∀ (e : Entropy) (calls : List RandomCall),
        (calls.foldl Random.call (randomInit e)).prng ≠ .zero) ∧
      Function.Injective Prng.next ∧ ∀ s, Prng.next s = .zero ↔ s = .zero :=
  ⟨fun seed => XorShift.iterate_ne Prng.next_injective Prng.next_zero (Prng.seed_ne_zero seed),
    fun e => (randomInit_live e).calls, Prng.next_injective, Prng.next_eq_zero_iff⟩

end Random

end GenOS
