import GenOS.Lib.Bytes
import GenOS.Lib.Kdf
import GenOS.Crypto.Sha256Stream

/-!
# HMAC-SHA256 and PBKDF2

`crypto/hmac.c`, over a byte memory, so that an output buffer may be an input buffer. The key pad,
the hashed key and the hash context are locals nobody else can name and stay values; the locals `U`,
`T` and `salt_block` of `pbkdf2_hmac_sha256` are passed by address and lie at `frame`.
-/

namespace GenOS

open Bytes

/-! ## The code -/

/-- `k_pad` after its two loops. -/
def keyPad (key : List (BitVec 8)) (x : BitVec 8) : List (BitVec 8) :=
  key.map (· ^^^ x) ++ List.replicate (64 - key.length) x

/-- `hmac_sha256`; `ctx` is what the local context holds before. -/
def hmacSha256 (ctx : Sha256Ctx) (m : Mem) (key keyLen data dataLen mac : Nat) : Mem :=
  let tk := sha256Hash ctx (read m key keyLen)
  -- the bytes behind the pointer `key`, which a long key moves to `tk`
  let keyNow := fun m : Mem => if 64 < keyLen then tk else read m key keyLen
  let inner := sha256Update (sha256Update (sha256Init ctx) (keyPad (keyNow m) 0x36))
    (read m data dataLen)
  let m := write m mac (sha256Final inner)
  let outer := sha256Update (sha256Update (sha256Init inner) (keyPad (keyNow m) 0x5c))
    (read m mac 32)
  write m mac (sha256Final outer)

/-- `for (i = 0; i < n; i++) t[i] ^= u[i];` -/
def xorLoop (m : Mem) (t u : Nat) : (n : Nat) → Mem
  | 0 => m
  | n + 1 => Function.update (xorLoop m t u n) (t + n)
      (xorLoop m t u n (t + n) ^^^ xorLoop m t u n (u + n))

/-- The loop over `U_2` to `U_c`. -/
def pbkdf2Loop (ctx : Sha256Ctx) (password passLen u t : Nat) : (turns : Nat) → Mem → Mem
  | 0, m => m
  | turns + 1, m => pbkdf2Loop ctx password passLen u t turns
      (xorLoop (hmacSha256 ctx m password passLen u 32 u) t u 32)

/-- `pbkdf2_hmac_sha256`. -/
def pbkdf2HmacSha256 (ctx : Sha256Ctx) (m : Mem) (frame password passLen salt saltLen : Nat)
    (iterations : Nat) (dk dkLen : Nat) : Mem :=
  let dkLen := if 32 < dkLen then 32 else dkLen
  let u := frame
  let t := frame + 32
  let saltBlock := frame + 64
  let sbLen := if 128 < saltLen then 128 else saltLen
  let m := copy m saltBlock salt sbLen
  let m := write m (saltBlock + sbLen) [0, 0, 0, 1]
  let m := hmacSha256 ctx m password passLen saltBlock (sbLen + 4) u
  let m := copy m t u 32
  let m := pbkdf2Loop ctx password passLen u t (iterations - 1) m
  copy m dk t dkLen

/-! ## HMAC -/

/-- The repository's HMAC, as the standard states it over the repository's hash. -/
def hmacRef (ctx : Sha256Ctx) (key msg : List (BitVec 8)) : List (BitVec 8) :=
  Kdf.hmac (sha256Hash ctx) 64 key msg

variable {ctx ctx' : Sha256Ctx} {m : Mem} {key keyLen data dataLen mac : Nat}

theorem length_sha256Hash (ctx : Sha256Ctx) (l : List (BitVec 8)) :
    (sha256Hash ctx l).length = 32 := by
  rw [sha256Hash_eq]
  rfl

/-- Two updates take in one message. -/
theorem final_two_updates (ctx ctx' : Sha256Ctx) (a b : List (BitVec 8)) :
    sha256Final (sha256Update (sha256Update (sha256Init ctx) a) b) = sha256Hash ctx' (a ++ b) := by
  have h := ((Absorbed.init ctx).updates [a, b]).final
  rw [sha256Hash_eq]
  simpa using h

theorem length_hmacRef (ctx : Sha256Ctx) (k l : List (BitVec 8)) : (hmacRef ctx k l).length = 32 :=
  length_sha256Hash ..

theorem keyPad_eq (ctx : Sha256Ctx) (key : List (BitVec 8)) (x : BitVec 8) :
    keyPad (if 64 < key.length then sha256Hash ctx key else key) x =
      (Kdf.blockKey (sha256Hash ctx) 64 key).map (· ^^^ x) := (Kdf.map_xor_blockKey ..).symm

theorem sha256Hash_any (ctx ctx' : Sha256Ctx) : sha256Hash ctx = sha256Hash ctx' :=
  funext fun l => (sha256Hash_eq ctx l).trans (sha256Hash_eq ctx' l).symm

/-- **HMAC**: the code writes the standard's value, whatever buffer the message is in. -/
theorem hmacSha256_eq (ctx ctx' : Sha256Ctx) (h : keyLen ≤ 64 → Apart mac 32 key keyLen) :
    hmacSha256 ctx m key keyLen data dataLen mac =
      write m mac (hmacRef ctx' (read m key keyLen) (read m data dataLen)) := by
  have hkey := @keyPad_eq ctx' (read m key keyLen)
  rw [length_read] at hkey
  simp only [hmacSha256, sha256Hash_any ctx ctx', final_two_updates _ ctx', hkey]
  -- the digest in the output buffer is the inner one, and the key is still there
  generalize hin : sha256Hash ctx' (List.map (· ^^^ 0x36) (Kdf.blockKey (sha256Hash ctx') 64
    (read m key keyLen)) ++ read m data dataLen) = inner
  have hlen : inner.length = 32 := by rw [← hin, length_sha256Hash]
  have hmac : read (write m mac inner) mac 32 = inner := read_write_of_length hlen
  have hk : (if 64 < keyLen then sha256Hash ctx' (read m key keyLen)
      else read (write m mac inner) key keyLen) =
      if 64 < keyLen then sha256Hash ctx' (read m key keyLen) else read m key keyLen := by
    split
    · rfl
    · next hle =>
      have hout := write_outside m mac inner
      rw [hlen] at hout
      exact hout.read_eq (h (Nat.le_of_not_lt hle))
  rw [hmac, hk, hkey, hmacRef, Kdf.hmac, hin]
  exact write_write (hlen.trans (length_sha256Hash ..).symm)

theorem hmacSha256_outside (ctx : Sha256Ctx) (h : keyLen ≤ 64 → Apart mac 32 key keyLen) :
    Outside m (hmacSha256 ctx m key keyLen data dataLen mac) mac 32 := by
  rw [hmacSha256_eq ctx ctx h]
  have := write_outside m mac (hmacRef ctx (read m key keyLen) (read m data dataLen))
  rwa [length_hmacRef] at this

theorem read_hmacSha256 (ctx ctx' : Sha256Ctx) (h : keyLen ≤ 64 → Apart mac 32 key keyLen) :
    read (hmacSha256 ctx m key keyLen data dataLen mac) mac 32 =
      hmacRef ctx' (read m key keyLen) (read m data dataLen) := by
  rw [hmacSha256_eq ctx ctx' h]
  exact read_write_of_length (length_hmacRef ..)

/-! ## PBKDF2 -/

variable {m' : Mem} {t u n : Nat}

theorem xorLoop_apply (hd : Apart t n u n) : ∀ k ≤ n, ∀ x, xorLoop m t u k x =
    if t ≤ x ∧ x < t + k then m x ^^^ m (u + (x - t)) else m x := by
  unfold Apart at hd
  intro k hk
  induction k with
  | zero => exact fun x => (if_neg (by omega)).symm
  | succ k ih =>
    intro x
    rw [xorLoop, Function.update_apply, ih (by omega) x, ih (by omega) (t + k),
      ih (by omega) (u + k),
      if_neg (show ¬ (t ≤ t + k ∧ t + k < t + k) by omega),
      if_neg (show ¬ (t ≤ u + k ∧ u + k < t + k) by omega)]
    by_cases hx : x = t + k
    · rw [if_pos hx, if_pos (by omega), hx, Nat.add_sub_cancel_left]
    · rw [if_neg hx]
      exact if_congr (by omega) rfl rfl

theorem xorLoop_outside (hd : Apart t n u n) : Outside m (xorLoop m t u n) t n := by
  intro x hx
  rw [xorLoop_apply hd n (Nat.le_refl n), if_neg (by omega)]

theorem read_xorLoop (hd : Apart t n u n) :
    read (xorLoop m t u n) t n = Kdf.xorBytes (read m t n) (read m u n) := by
  refine List.ext_getElem (by simp [Kdf.length_xorBytes]) fun i h1 h2 => ?_
  have hi : i < n := by rwa [length_read] at h1
  have hr : ∀ a, i < (Bytes.read m a n).length := fun a => by rwa [length_read]
  rw [Kdf.getElem_xorBytes h2 (hr t) (hr u), getElem_read, getElem_read, getElem_read,
    xorLoop_apply hd n (Nat.le_refl n), if_pos (by omega), Nat.add_sub_cancel_left]

/-- The buffers `U` and `T` after `k + 1` values, `m₀` being the memory of the caller. -/
structure Derived (prf : List (BitVec 8) → List (BitVec 8)) (s : List (BitVec 8)) (frame k : Nat)
    (m₀ m : Mem) : Prop where
  outside : Outside m₀ m frame 196
  last : read m frame 32 = Kdf.chain prf s k
  acc : read m (frame + 32) 32 = Kdf.xorChain prf s k

variable {frame password passLen salt saltLen k : Nat} {m₀ : Mem} {s : List (BitVec 8)}

/-- A turn of the loop. -/
theorem Derived.turn (ctx : Sha256Ctx) (hp : Apart frame 196 password passLen)
    (h : Derived (hmacRef ctx' (read m₀ password passLen)) s frame k m₀ m) :
    Derived (hmacRef ctx' (read m₀ password passLen)) s frame (k + 1) m₀
      (xorLoop (hmacSha256 ctx m password passLen frame 32 frame) (frame + 32) frame 32) := by
  have hkey : passLen ≤ 64 → Apart frame 32 password passLen := fun _ => by
    unfold Apart at hp ⊢
    omega
  have hut : Apart (frame + 32) 32 frame 32 := .inr (Nat.le_refl _)
  have hout := @hmacSha256_outside m password passLen frame 32 frame ctx hkey
  have hu : read (hmacSha256 ctx m password passLen frame 32 frame) frame 32 =
      Kdf.chain (hmacRef ctx' (read m₀ password passLen)) s (k + 1) := by
    rw [read_hmacSha256 ctx ctx' hkey, h.last, h.outside.read_eq hp]
    rfl
  have hx := @xorLoop_outside (hmacSha256 ctx m password passLen frame 32 frame) _ _ _ hut
  refine ⟨?_, ?_, ?_⟩
  · exact (h.outside.trans (hout.mono (Nat.le_refl _) (by omega))).trans
      (hx.mono (by omega) (by omega))
  · rw [hx.read_eq hut, hu]
  · rw [read_xorLoop hut, hu, hout.read_eq (.inl (Nat.le_refl _)), h.acc]
    rfl

theorem Derived.loop (ctx : Sha256Ctx) (hp : Apart frame 196 password passLen) (turns : Nat) :
    ∀ {k : Nat} {m : Mem}, Derived (hmacRef ctx' (read m₀ password passLen)) s frame k m₀ m →
      Derived (hmacRef ctx' (read m₀ password passLen)) s frame (k + turns) m₀
        (pbkdf2Loop ctx password passLen frame (frame + 32) turns m) := by
  induction turns with
  | zero => exact fun h => h
  | succ turns ih =>
    intro k m h
    have := ih (h.turn ctx hp)
    rwa [show k + 1 + turns = k + (turns + 1) by omega] at this

/-- What the first call leaves: `salt_block` holds the salt and the index 1. -/
theorem Derived.first (ctx ctx' : Sha256Ctx) (m₀ : Mem) (hp : Apart frame 196 password passLen)
    (hs : Apart frame 196 salt saltLen)
    (hmax : saltLen ≤ 128) :
    let m₁ := write (copy m₀ (frame + 64) salt saltLen) (frame + 64 + saltLen) [0, 0, 0, 1]
    Derived (hmacRef ctx' (read m₀ password passLen)) (read m₀ salt saltLen ++ Kdf.blockIndex 1)
      frame 0 m₀
      (copy (hmacSha256 ctx m₁ password passLen (frame + 64) (saltLen + 4) frame)
        (frame + 32) frame 32) := by
  intro m₁
  have hkey : passLen ≤ 64 → Apart frame 32 password passLen := fun _ => by
    unfold Apart at hp ⊢
    omega
  have hcopy := copy_outside m₀ (frame + 64) salt saltLen
  have hwrite := write_outside (copy m₀ (frame + 64) salt saltLen)
    (frame + 64 + saltLen) [0, 0, 0, 1]
  have hm₁ : Outside m₀ m₁ frame 196 :=
    (hcopy.mono (by omega) (by omega)).trans (hwrite.mono (by omega) (by simp; omega))
  have hsalt : read m₁ (frame + 64) (saltLen + 4) = read m₀ salt saltLen ++ Kdf.blockIndex 1 := by
    have hindex : read m₁ (frame + 64 + saltLen) 4 = [0, 0, 0, 1] := read_write_of_length rfl
    rw [read_add, hwrite.read_eq (.inr (by omega)), read_copy (by unfold Apart at hs ⊢; omega),
      hindex]
    rfl
  have hout := @hmacSha256_outside m₁ password passLen (frame + 64) (saltLen + 4) frame ctx hkey
  have hu : read (hmacSha256 ctx m₁ password passLen (frame + 64) (saltLen + 4) frame) frame 32 =
      hmacRef ctx' (read m₀ password passLen) (read m₀ salt saltLen ++ Kdf.blockIndex 1) := by
    rw [read_hmacSha256 ctx ctx' hkey, hsalt, hm₁.read_eq hp]
  have hc := copy_outside (hmacSha256 ctx m₁ password passLen (frame + 64) (saltLen + 4) frame)
    (frame + 32) frame 32
  refine ⟨?_, ?_, ?_⟩
  · exact (hm₁.trans (hout.mono (Nat.le_refl _) (by omega))).trans (hc.mono (by omega) (by omega))
  · rw [hc.read_eq (.inr (Nat.le_refl _)), hu]
    rfl
  · rw [read_copy (.inl (Nat.le_refl _)), hu]
    rfl

/-- **PBKDF2**: a prefix of the first block, written to `dk`. -/
theorem pbkdf2HmacSha256_eq {iterations dk dkLen : Nat} (hp : Apart frame 196 password passLen)
    (hs : Apart frame 196 salt saltLen) (hdk : Apart frame 196 dk dkLen) (hmax : saltLen ≤ 128)
    (hlen : dkLen ≤ 32) :
    read (pbkdf2HmacSha256 ctx m frame password passLen salt saltLen iterations dk dkLen) dk dkLen =
      (Kdf.block (hmacRef ctx' (read m password passLen)) (read m salt saltLen) iterations 1).take
        dkLen ∧
    ∀ x, (x < frame ∨ frame + 196 ≤ x) → (x < dk ∨ dk + dkLen ≤ x) →
      pbkdf2HmacSha256 ctx m frame password passLen salt saltLen iterations dk dkLen x = m x := by
  have h := (Derived.first ctx ctx' m hp hs hmax).loop ctx hp
    (iterations - 1)
  rw [Nat.zero_add] at h
  unfold pbkdf2HmacSha256
  rw [if_neg (Nat.not_lt.mpr hmax), if_neg (Nat.not_lt.mpr hlen)]
  refine ⟨?_, fun x hx hx' => ?_⟩
  · rw [read_copy (by unfold Apart at hdk ⊢; omega), ← take_read _ _ hlen, h.acc]
    rfl
  · rw [copy_outside _ _ _ _ x hx', h.outside x hx]

/-- **HMAC and PBKDF2 are the standards' functions** over the repository's hash. -/
theorem hmac_pbkdf2_standard (ctx ctx' : Sha256Ctx) (m : Mem) :
    (∀ key keyLen data dataLen mac, Apart mac 32 key keyLen →
      read (hmacSha256 ctx m key keyLen data dataLen mac) mac 32 =
        Kdf.hmac (sha256Hash ctx') 64 (read m key keyLen) (read m data dataLen) ∧
      Outside m (hmacSha256 ctx m key keyLen data dataLen mac) mac 32) ∧
    (∀ frame password passLen salt saltLen iterations dk dkLen,
      Apart frame 196 password passLen → Apart frame 196 salt saltLen → Apart frame 196 dk dkLen →
      saltLen ≤ 128 → dkLen ≤ 32 →
      read
        (pbkdf2HmacSha256 ctx m frame password passLen salt saltLen iterations dk dkLen) dk dkLen =
        (Kdf.block (Kdf.hmac (sha256Hash ctx') 64 (read m password passLen)) (read m salt saltLen)
          iterations 1).take dkLen ∧
      ∀ x, (x < frame ∨ frame + 196 ≤ x) → (x < dk ∨ dk + dkLen ≤ x) →
        pbkdf2HmacSha256 ctx m frame password passLen salt saltLen iterations dk dkLen x = m x) :=
  ⟨fun _ _ _ _ _ h => ⟨read_hmacSha256 ctx ctx' fun _ => h, hmacSha256_outside ctx fun _ => h⟩,
    fun _ _ _ _ _ _ _ _ hp hs hdk hmax hlen => pbkdf2HmacSha256_eq hp hs hdk hmax hlen⟩

/-- A context that holds nothing. -/
def zeroCtx : Sha256Ctx := ⟨⟨0, 0, 0, 0, 0, 0, 0, 0⟩, 0, fun _ => 0, 0⟩

theorem hmac_pbkdf2_standard_zero :
    read (hmacSha256 zeroCtx (fun _ => 7) 0 80 200 50 200) 200 32 =
        Kdf.hmac (sha256Hash zeroCtx) 64 (read (fun _ => 7) 0 80) (read (fun _ => 7) 200 50) ∧
      read (pbkdf2HmacSha256 zeroCtx (fun _ => 7) 1000 0 80 100 16 10 300 20) 300 20 =
        (Kdf.block (Kdf.hmac (sha256Hash zeroCtx) 64 (read (fun _ => 7) 0 80))
          (read (fun _ => 7) 100 16) 10 1).take 20 :=
  have h := hmac_pbkdf2_standard zeroCtx zeroCtx fun _ => 7
  ⟨(h.1 0 80 200 50 200 (.inr (by decide))).1,
    (h.2 1000 0 80 100 16 10 300 20 (.inr (by decide)) (.inr (by decide)) (.inr (by decide))
      (by decide) (by decide)).1⟩

end GenOS
