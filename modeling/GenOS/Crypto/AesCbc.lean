import Mathlib.Data.List.GetD
import GenOS.Lib.Blocks
import GenOS.Lib.Cbc
import GenOS.Crypto.AesBlock

/-!
# AES-256-CBC with its padding

The two loops of `aes.c` are chaining over the blocks of the padded plaintext and of the ciphertext.
Removing the padding undoes adding it, in both directions. A length is returned as an `int`, so a
ciphertext from 4 GiB on can be accepted with a length that is not that of its plaintext.
-/

namespace GenOS

open Blocks

/-! ## Blocks of bytes -/

/-- The bytes of a list as blocks. -/
def stateBlocks (l : List (BitVec 8)) : List AesState := (blocks 16 l).map fun b => blockAt b 0

/-- The bytes of blocks. -/
def stateBytes (bs : List AesState) : List (BitVec 8) := (bs.map Vector.toList).flatten

theorem getElem_blockAt (p : List (BitVec 8)) (offset : Nat) {k : Nat} (hk : k < 16) :
    (blockAt p offset)[k] = p.getD (offset + k) 0 := by
  unfold blockAt
  rw [Vector.getElem_ofFn]

theorem blockAt_toList (s : AesState) : blockAt s.toList 0 = s := by
  apply Vector.ext
  intro k hk
  rw [getElem_blockAt _ _ hk, Nat.zero_add, List.getD_eq_getElem _ _ (by simpa using hk)]
  exact Vector.getElem_toList _

theorem toList_blockAt {b : List (BitVec 8)} (h : b.length = 16) : (blockAt b 0).toList = b := by
  apply List.ext_getElem
  · rw [Vector.length_toList, h]
  · intro i h1 h2
    rw [Vector.getElem_toList, getElem_blockAt _ _ (by omega), Nat.zero_add,
      List.getD_eq_getElem _ _ h2]

theorem length_stateBytes (bs : List AesState) : (stateBytes bs).length = 16 * bs.length := by
  induction bs with
  | nil => rfl
  | cons b bs ih =>
    have hcons : stateBytes (b :: bs) = b.toList ++ stateBytes bs := rfl
    rw [hcons, List.length_append, ih, Vector.length_toList, List.length_cons]
    omega

theorem stateBlocks_stateBytes (bs : List AesState) : stateBlocks (stateBytes bs) = bs := by
  unfold stateBlocks stateBytes
  rw [blocks_flatten (by decide), List.map_map]
  · exact List.map_id'' blockAt_toList bs
  · intro b hb
    obtain ⟨s, -, rfl⟩ := List.mem_map.mp hb
    exact Vector.length_toList

theorem stateBytes_stateBlocks {l : List (BitVec 8)} (h : l.length % 16 = 0) :
    stateBytes (stateBlocks l) = l := by
  unfold stateBlocks stateBytes
  have hmap : ((blocks 16 l).map fun b => blockAt b 0).map Vector.toList = blocks 16 l := by
    rw [List.map_map]
    exact (List.map_congr_left fun b hb =>
      toList_blockAt (length_of_mem_blocks hb)).trans (List.map_id' _)
  rw [hmap, flatten_blocks h]

/-- The block at an offset comes before the blocks after it. -/
theorem stateBlocks_drop {l : List (BitVec 8)} {offset : Nat} (h : offset + 16 ≤ l.length) :
    stateBlocks (l.drop offset) = blockAt l offset :: stateBlocks (l.drop (offset + 16)) := by
  have hblock : blockAt ((l.drop offset).take 16) 0 = blockAt l offset := by
    apply Vector.ext
    intro k hk
    rw [getElem_blockAt _ _ hk, getElem_blockAt _ _ hk, Nat.zero_add, List.getD_eq_getElem?_getD,
      List.getElem?_take_of_lt hk, List.getElem?_drop, ← List.getD_eq_getElem?_getD]
  unfold stateBlocks
  rw [blocks_of_le (by decide) (by rw [List.length_drop]; omega), List.map_cons, hblock,
    List.drop_drop]

theorem stateBlocks_nil {l : List (BitVec 8)} (h : l.length = 0) : stateBlocks l = [] := by
  unfold stateBlocks
  rw [blocks_of_lt (by omega), List.map_nil]

theorem stateBytes_cons (b : AesState) (bs : List AesState) :
    stateBytes (b :: bs) = b.toList ++ stateBytes bs := rfl

/-! ## The loops -/

/-- The plaintext with its padding. -/
def padded (pt : List (BitVec 8)) (paddedLen : Nat) : List (BitVec 8) :=
  pt ++ List.replicate (paddedLen - pt.length) (BitVec.ofNat 8 (paddedLen - pt.length))

theorem length_padded {pt : List (BitVec 8)} {paddedLen : Nat} (h : pt.length ≤ paddedLen) :
    (padded pt paddedLen).length = paddedLen := by
  unfold padded
  rw [List.length_append, List.length_replicate]
  omega

theorem paddedBlock_eq {pt : List (BitVec 8)} {paddedLen offset : Nat}
    (h : offset + 16 ≤ paddedLen) :
    paddedBlock pt paddedLen offset = blockAt (padded pt paddedLen) offset := by
  apply Vector.ext
  intro k hk
  unfold paddedBlock padded
  rw [getElem_blockAt _ _ hk, Vector.getElem_ofFn]
  dsimp only
  split
  · next hlt => rw [List.getD_append _ _ _ _ hlt]
  · next hge =>
    rw [List.getD_append_right _ _ _ _ (by omega), List.getD_replicate _ (by omega)]

/-- The loop of the encryption chains over the blocks that are left. -/
theorem cbcEncryptLoop_eq {key : AesKey} {pt : List (BitVec 8)} {paddedLen : Nat}
    (hl : pt.length ≤ paddedLen) (hm : paddedLen % 16 = 0) {offset : Nat} (ho : offset % 16 = 0)
    (prev : AesState) (ct : List (BitVec 8)) :
    cbcEncryptLoop key pt paddedLen offset prev ct = ct ++ stateBytes (Cbc.encrypt
      (aes256EncryptBlock key) xorBlock prev
      (stateBlocks ((padded pt paddedLen).drop offset))) := by
  fun_induction cbcEncryptLoop key pt paddedLen offset prev ct with
  | case1 offset prev ct hlt c ih =>
    have hle : offset + 16 ≤ paddedLen := by omega
    have hd : stateBlocks ((padded pt paddedLen).drop offset) = _ :=
      stateBlocks_drop (by rw [length_padded hl]; exact hle)
    rw [ih (by omega), hd, Cbc.encrypt, stateBytes_cons, List.append_assoc, ← paddedBlock_eq hle]
  | case2 offset prev ct hge =>
    rw [stateBlocks_nil (by rw [List.length_drop, length_padded hl]; omega), Cbc.encrypt]
    exact (List.append_nil _).symm

theorem cbcDecryptLoop_eq {key : AesKey} {ct : List (BitVec 8)} (hm : ct.length % 16 = 0)
    {offset : Nat} (ho : offset % 16 = 0) (prev : AesState) (pt : List (BitVec 8)) :
    cbcDecryptLoop key ct offset prev pt = pt ++ stateBytes (Cbc.decrypt
      (aes256DecryptBlock key) xorBlock prev (stateBlocks (ct.drop offset))) := by
  fun_induction cbcDecryptLoop key ct offset prev pt with
  | case1 offset prev pt hlt block ih =>
    have hd : stateBlocks (ct.drop offset) = _ := stateBlocks_drop (by omega)
    rw [ih (by omega), hd, Cbc.decrypt, stateBytes_cons, List.append_assoc]
  | case2 offset prev pt hge =>
    rw [stateBlocks_nil (by rw [List.length_drop]; omega), Cbc.decrypt]
    exact (List.append_nil _).symm

/-! ## Chaining undone -/

/-- The ciphertext of full blocks of plaintext. -/
def cbcCipher (key : AesKey) (iv : AesState) (p : List (BitVec 8)) : List (BitVec 8) :=
  stateBytes (Cbc.encrypt (aes256EncryptBlock key) xorBlock iv (stateBlocks p))

/-- The plaintext of a ciphertext, with its padding. -/
def cbcPlain (key : AesKey) (iv : AesState) (c : List (BitVec 8)) : List (BitVec 8) :=
  stateBytes (Cbc.decrypt (aes256DecryptBlock key) xorBlock iv (stateBlocks c))

section Chaining

variable {key : AesKey} {iv : AesState} {p c pt : List (BitVec 8)} {l : Nat}

theorem xorBlock_xorBlock (b prev : AesState) : xorBlock (xorBlock b prev) prev = b := by
  apply Vector.ext
  intro k hk
  unfold xorBlock
  rw [Vector.getElem_ofFn, Fin.getElem_fin, Vector.getElem_ofFn, BitVec.xor_assoc,
    BitVec.xor_self, BitVec.xor_zero]
  rfl

theorem length_stateBlocks (h : p.length % 16 = 0) : 16 * (stateBlocks p).length = p.length := by
  rw [← length_stateBytes, stateBytes_stateBlocks h]

theorem length_cbcCipher (h : p.length % 16 = 0) : (cbcCipher key iv p).length = p.length := by
  unfold cbcCipher
  rw [length_stateBytes, Cbc.length_encrypt, length_stateBlocks h]

theorem length_cbcPlain (h : c.length % 16 = 0) : (cbcPlain key iv c).length = c.length := by
  unfold cbcPlain
  rw [length_stateBytes, Cbc.length_decrypt, length_stateBlocks h]

theorem cbcPlain_cbcCipher (h : p.length % 16 = 0) : cbcPlain key iv (cbcCipher key iv p) = p := by
  unfold cbcPlain cbcCipher
  rw [stateBlocks_stateBytes, Cbc.decrypt_encrypt (aes256DecryptBlock_encryptBlock key)
    xorBlock_xorBlock, stateBytes_stateBlocks h]

theorem cbcCipher_cbcPlain (h : c.length % 16 = 0) : cbcCipher key iv (cbcPlain key iv c) = c := by
  unfold cbcPlain cbcCipher
  rw [stateBlocks_stateBytes, Cbc.encrypt_decrypt (aes256EncryptBlock_decryptBlock key)
    xorBlock_xorBlock, stateBytes_stateBlocks h]

/-! ## Padding -/

/-- `l` is the padded length of `pt`. -/
def Pads (pt : List (BitVec 8)) (l : Nat) : Prop :=
  l % 16 = 0 ∧ pt.length < l ∧ l ≤ pt.length + 16

theorem Pads.length (h : Pads pt l) : (padded pt l).length = l :=
  length_padded (Nat.le_of_lt h.2.1)

theorem Pads.eq_paddedLength (h : Pads pt l) (hl : l < 18446744073709551616) :
    paddedLength pt.length = l := by
  obtain ⟨h1, h2, h3⟩ := h
  unfold paddedLength
  omega

theorem Pads.of_paddedLength (hl : pt.length < 18446744073709551600) :
    Pads pt (paddedLength pt.length) := by
  unfold Pads paddedLength
  omega

/-- The last byte of a padded plaintext counts the bytes of the padding. -/
theorem Pads.last (h : Pads pt l) : ((padded pt l).getD (l - 1) 0).toNat = l - pt.length := by
  obtain ⟨h1, h2, h3⟩ := h
  unfold padded
  rw [List.getD_append_right _ _ _ _ (by omega), List.getD_replicate _ (by omega),
    BitVec.toNat_ofNat]
  omega

theorem Pads.check (h : Pads pt l) : checkPadding (padded pt l) l
    ((padded pt l).getD (l - 1) 0) ((padded pt l).getD (l - 1) 0).toNat = true := by
  have hlast := h.last
  obtain ⟨h1, h2, h3⟩ := h
  have hget : ∀ i < l - pt.length,
      (padded pt l).getD (l - 1 - i) 0 = BitVec.ofNat 8 (l - pt.length) := by
    intro i hi
    unfold padded
    rw [List.getD_append_right _ _ _ _ (by omega), List.getD_replicate _ (by omega)]
  unfold checkPadding
  rw [hlast, List.all_eq_true]
  intro i hi
  rw [hget i (List.mem_range.mp hi), beq_iff_eq]
  exact (hget 0 (by omega)).symm

/-- What passes the check is padded. -/
theorem padded_of_check (hl : p.length = l) (h0 : 0 < l) (hm : l % 16 = 0) {v : BitVec 8}
    (hv : v ≠ 0) (hv' : v.toNat ≤ 16) (hc : checkPadding p l v v.toNat = true) :
    Pads (p.take (l - v.toNat)) l ∧ p = padded (p.take (l - v.toNat)) l := by
  have hpos : 0 < v.toNat := by
    rcases Nat.eq_zero_or_pos v.toNat with h | h
    · exact absurd (BitVec.eq_of_toNat_eq h) hv
    · exact h
  have hlen : (p.take (l - v.toNat)).length = l - v.toNat := by
    rw [List.length_take]
    omega
  have hval : BitVec.ofNat 8 (l - (l - v.toNat)) = v := by
    rw [Nat.sub_sub_self (by omega), BitVec.ofNat_toNat, BitVec.setWidth_eq]
  refine ⟨⟨hm, by omega, by omega⟩, ?_⟩
  unfold padded
  rw [hlen, hval]
  apply List.ext_getElem
  · rw [List.length_append, hlen, List.length_replicate]
    omega
  · intro i h1 h2
    rcases Nat.lt_or_ge i (l - v.toNat) with hlt | hge
    · rw [List.getElem_append_left (by omega), List.getElem_take]
    · have hi := List.all_eq_true.mp hc (l - 1 - i) (List.mem_range.mpr (by omega))
      rw [beq_iff_eq, show l - 1 - (l - 1 - i) = i by omega, List.getD_eq_getElem _ _ h1] at hi
      rw [List.getElem_append_right (by omega), List.getElem_replicate, hi]

end Chaining

/-! ## Encryption and decryption -/

section Calls

variable {key : AesKey} {iv : AesState} {ct pt : List (BitVec 8)} {outMax : Nat}

theorem aes256CbcEncrypt_eq {l : Nat} (h : Pads pt l) (hl : l < 18446744073709551616)
    (ho : l ≤ outMax) : aes256CbcEncrypt key iv pt outMax =
      (toInt32 (l % 4294967296), cbcCipher key iv (padded pt l)) := by
  unfold aes256CbcEncrypt
  rw [h.eq_paddedLength hl, if_neg (Nat.not_lt.mpr ho),
    cbcEncryptLoop_eq (Nat.le_of_lt h.2.1) h.1 rfl, List.drop_zero, List.nil_append]
  rfl

/-- A ciphertext of a padded plaintext is accepted. -/
theorem aes256CbcDecrypt_eq (h : Pads pt ct.length)
    (hp : cbcPlain key iv ct = padded pt ct.length) (ho : ct.length ≤ outMax) :
    aes256CbcDecrypt key iv ct outMax =
      (toInt32 (pt.length % 4294967296), padded pt ct.length) := by
  have hlast := h.last
  obtain ⟨h1, h2, h3⟩ := id h
  have hne : ¬((padded pt ct.length).getD (ct.length - 1) 0 = 0 ∨
      16 < ((padded pt ct.length).getD (ct.length - 1) 0).toNat) := by
    rintro (h0 | h16)
    · rw [h0] at hlast
      change 0 = _ at hlast
      omega
    · omega
  have hloop : cbcDecryptLoop key ct 0 iv [] = padded pt ct.length := by
    rw [cbcDecryptLoop_eq h1 rfl, List.drop_zero, List.nil_append]
    exact hp
  unfold aes256CbcDecrypt
  rw [if_neg (by omega), if_neg (by omega), hloop]
  dsimp only
  rw [if_neg hne, if_pos h.check, hlast, Nat.sub_sub_self (by omega)]

/-- Only such a ciphertext is. -/
theorem aes256CbcDecrypt_success (h : 0 ≤ (aes256CbcDecrypt key iv ct outMax).1) :
    ∃ pt, Pads pt ct.length ∧ cbcPlain key iv ct = padded pt ct.length ∧ ct.length ≤ outMax := by
  unfold aes256CbcDecrypt at h
  split at h
  · exact absurd h (by decide)
  · next hlen =>
    have hm : ct.length % 16 = 0 := by omega
    split at h
    · exact absurd h (by decide)
    · next ho =>
      have hloop : cbcDecryptLoop key ct 0 iv [] = cbcPlain key iv ct := by
        rw [cbcDecryptLoop_eq hm rfl, List.drop_zero, List.nil_append]
        rfl
      rw [hloop] at h
      dsimp only at h
      split at h
      · exact absurd h (by simp)
      · next hv =>
        split at h
        · next hc =>
          obtain ⟨h1, h2⟩ := padded_of_check (length_cbcPlain hm) (by omega) hm
            (fun h0 => hv (Or.inl h0)) (by omega) hc
          exact ⟨_, h1, h2, Nat.le_of_not_lt ho⟩
        · exact absurd h (by simp)

end Calls

/-! ## Round trips -/

/-- Re-encrypting what a decryption yields gives the ciphertext back. -/
def Reencrypts (key : AesKey) (iv : AesState) (ct : List (BitVec 8)) : Prop :=
  ∀ outMax outMax', 0 ≤ (aes256CbcDecrypt key iv ct outMax).1 → ct.length ≤ outMax' →
    aes256CbcEncrypt key iv ((aes256CbcDecrypt key iv ct outMax).2.take
      (aes256CbcDecrypt key iv ct outMax).1.toNat) outMax' = ((ct.length : Int), ct)

/-- The lengths whose plaintext lengths an `int` does not tell: from 2 GiB on, when the length less
one block is not negative as an `int`. -/
def IntOverflows (l : Nat) : Prop :=
  l % 16 = 0 ∧ 2147483648 ≤ l ∧ (l - 16) % 4294967296 < 2147483648

instance (l : Nat) : Decidable (IntOverflows l) :=
  inferInstanceAs (Decidable (_ ∧ _ ∧ _))

section RoundTrip

variable {key : AesKey} {iv : AesState} {ct pt : List (BitVec 8)}

theorem take_padded {l : Nat} : (padded pt l).take pt.length = pt := by
  unfold padded
  rw [List.take_append_of_le_length (Nat.le_refl _), List.take_length]

theorem aes256Cbc_decrypt_encrypt {outMax outMax' : Nat} (h : pt.length ≤ 2147483631)
    (ho : paddedLength pt.length ≤ outMax) (ho' : paddedLength pt.length ≤ outMax') :
    ∃ ct, aes256CbcEncrypt key iv pt outMax = ((ct.length : Int), ct) ∧
      (aes256CbcDecrypt key iv ct outMax').1 = pt.length ∧
      (aes256CbcDecrypt key iv ct outMax').2.take pt.length = pt := by
  have hpads : Pads pt (paddedLength pt.length) := .of_paddedLength (by omega)
  have hlt : paddedLength pt.length < 2147483648 := by
    obtain ⟨h1, h2, h3⟩ := hpads
    omega
  generalize paddedLength pt.length = l at *
  have hm : (padded pt l).length % 16 = 0 := by rw [hpads.length, hpads.1]
  have hlen : (cbcCipher key iv (padded pt l)).length = l := by
    rw [length_cbcCipher hm, hpads.length]
  have hdec := @aes256CbcDecrypt_eq key iv (cbcCipher key iv (padded pt l)) pt outMax'
    (by rw [hlen]; exact hpads) (by rw [hlen, cbcPlain_cbcCipher hm]) (by rw [hlen]; exact ho')
  refine ⟨cbcCipher key iv (padded pt l), ?_, ?_, ?_⟩
  · rw [aes256CbcEncrypt_eq hpads (by omega) ho, hlen, Nat.mod_eq_of_lt (by omega),
      toInt32_of_lt hlt]
  · rw [hdec, Nat.mod_eq_of_lt (by omega)]
    exact toInt32_of_lt (by omega)
  · rw [hdec]
    exact take_padded

theorem reencrypts_of_lt (hl : ct.length < 2147483648) : Reencrypts key iv ct := by
  intro outMax outMax' hr ho'
  obtain ⟨pt, hpads, hp, ho⟩ := aes256CbcDecrypt_success hr
  have hlt := hpads.2.1
  rw [aes256CbcDecrypt_eq hpads hp ho, Nat.mod_eq_of_lt (by omega), toInt32_of_lt (by omega),
    Int.toNat_natCast, take_padded, aes256CbcEncrypt_eq hpads (by omega) ho', ← hp,
    cbcCipher_cbcPlain hpads.1, Nat.mod_eq_of_lt (by omega), toInt32_of_lt hl]

/-- An `int` is small. -/
theorem aes256CbcEncrypt_fst_lt (outMax : Nat) :
    (aes256CbcEncrypt key iv pt outMax).1 < 2147483648 := by
  unfold aes256CbcEncrypt
  dsimp only
  split
  · exact show (-1 : Int) < _ by decide
  · exact toInt32_lt (Nat.mod_lt _ (by decide))

/-- The ciphertext of `l - 16` bytes is accepted, with their number as an `int`. -/
theorem decrypt_cbcCipher {l : Nat} (h1 : l % 16 = 0) (h2 : 16 ≤ l) (hn : pt.length = l - 16) :
    (cbcCipher key iv (padded pt l)).length = l ∧
    aes256CbcDecrypt key iv (cbcCipher key iv (padded pt l)) l =
      (toInt32 ((l - 16) % 4294967296), padded pt l) := by
  have hpads : Pads pt l := ⟨h1, by omega, by omega⟩
  have hm : (padded pt l).length % 16 = 0 := by rw [hpads.length, h1]
  have hlen : (cbcCipher key iv (padded pt l)).length = l := by
    rw [length_cbcCipher hm, hpads.length]
  have hdec := @aes256CbcDecrypt_eq key iv (cbcCipher key iv (padded pt l)) pt l
    (by rw [hlen]; exact hpads) (by rw [hlen, cbcPlain_cbcCipher hm]) (Nat.le_of_eq hlen)
  rw [hlen, hn] at hdec
  exact ⟨hlen, hdec⟩

theorem not_reencrypts {l : Nat} (h : IntOverflows l) (hn : pt.length = l - 16) :
    ¬Reencrypts key iv (cbcCipher key iv (padded pt l)) := by
  intro hre
  obtain ⟨h1, h2, h3⟩ := h
  obtain ⟨hlen, hdec⟩ := @decrypt_cbcCipher key iv pt l h1 (by omega) hn
  have hnonneg : 0 ≤ (aes256CbcDecrypt key iv (cbcCipher key iv (padded pt l)) l).1 := by
    rw [hdec, toInt32_nonneg_iff (Nat.mod_lt _ (by decide))]
    exact h3
  have heq := congrArg Prod.fst (hre l l hnonneg (Nat.le_of_eq hlen))
  have hlt := @aes256CbcEncrypt_fst_lt key iv
    ((aes256CbcDecrypt key iv (cbcCipher key iv (padded pt l)) l).2.take
      (aes256CbcDecrypt key iv (cbcCipher key iv (padded pt l)) l).1.toNat) l
  rw [heq, hlen] at hlt
  omega

theorem reencrypts_iff (key : AesKey) (iv : AesState) (l : Nat) :
    (∀ ct, ct.length = l → Reencrypts key iv ct) ↔ ¬IntOverflows l := by
  constructor
  · intro h ho
    have hn : (List.replicate (l - 16) (0 : BitVec 8)).length = l - 16 := List.length_replicate
    have h2 : 16 ≤ l := Nat.le_trans (by decide) ho.2.1
    exact not_reencrypts ho hn (h _ (decrypt_cbcCipher ho.1 h2 hn).1)
  · rintro hn ct rfl
    rcases Nat.lt_or_ge ct.length 2147483648 with hlt | hge
    · exact reencrypts_of_lt hlt
    · -- the length returned is negative
      intro outMax outMax' hr ho'
      obtain ⟨pt, hpads, hp, ho⟩ := aes256CbcDecrypt_success hr
      rw [aes256CbcDecrypt_eq hpads hp ho, toInt32_nonneg_iff (Nat.mod_lt _ (by decide))] at hr
      obtain ⟨h1, h2, h3⟩ := hpads
      exact absurd ⟨h1, hge, by omega⟩ hn

end RoundTrip

/-- The block cipher and its inverse undo each other; decryption gives back what was encrypted; and
re-encryption gives back every ciphertext of a length exactly when the length does not overflow. -/
theorem aes256_cbc_round_trip (key : AesKey) (iv : AesState) :
    (∀ b, aes256DecryptBlock key (aes256EncryptBlock key b) = b) ∧
    (∀ b, aes256EncryptBlock key (aes256DecryptBlock key b) = b) ∧
    (∀ pt outMax outMax', pt.length ≤ 2147483631 → paddedLength pt.length ≤ outMax →
      paddedLength pt.length ≤ outMax' →
      ∃ ct, aes256CbcEncrypt key iv pt outMax = ((ct.length : Int), ct) ∧
        (aes256CbcDecrypt key iv ct outMax').1 = pt.length ∧
        (aes256CbcDecrypt key iv ct outMax').2.take pt.length = pt) ∧
    ∀ l, (∀ ct, ct.length = l → Reencrypts key iv ct) ↔ ¬IntOverflows l := by
  refine ⟨aes256DecryptBlock_encryptBlock key, aes256EncryptBlock_decryptBlock key, ?_,
    reencrypts_iff key iv⟩
  intro pt outMax outMax' h ho ho'
  exact aes256Cbc_decrypt_encrypt h ho ho'

/-- The key of the bytes 0 to 31. -/
def countingKey : AesKey := Vector.ofFn fun i => BitVec.ofNat 8 i

def countingIv : AesState := Vector.ofFn fun i => BitVec.ofNat 8 (16 * i)

/-- The bytes 0 to 19, which take two blocks. -/
def countingText : List (BitVec 8) := (List.range 20).map (BitVec.ofNat 8)

/-- Two blocks, there and back, and back and there. -/
theorem aes256_cbc_round_trip_blocks :
    ∃ ct, ct.length = 32 ∧
      aes256CbcEncrypt countingKey countingIv countingText 32 = (32, ct) ∧
      (aes256CbcDecrypt countingKey countingIv ct 32).1 = 20 ∧
      (aes256CbcDecrypt countingKey countingIv ct 32).2.take 20 = countingText ∧
      aes256CbcEncrypt countingKey countingIv
        ((aes256CbcDecrypt countingKey countingIv ct 32).2.take
          (aes256CbcDecrypt countingKey countingIv ct 32).1.toNat) 32 = (32, ct) := by
  obtain ⟨-, -, hround, hre⟩ := aes256_cbc_round_trip countingKey countingIv
  obtain ⟨ct, h1, h2, h3⟩ := hround countingText 32 32 (by decide) (by decide) (by decide)
  have hlen : ct.length = 32 := by
    rw [aes256CbcEncrypt_eq (l := 32) ⟨by decide, by decide, by decide⟩ (by decide) (by decide)]
      at h1
    exact Int.ofNat.inj (congrArg Prod.fst h1).symm
  rw [hlen] at h1
  refine ⟨ct, hlen, h1, h2, h3, ?_⟩
  have h := (hre 32).mpr (by decide) ct hlen 32 32 (by rw [h2]; exact Int.natCast_nonneg _)
    (Nat.le_of_eq hlen)
  rwa [hlen] at h

/-- The ciphertext of 4 GiB of zeros decrypts to no byte at all. -/
theorem aes256_cbc_round_trip_fails :
    (aes256CbcDecrypt (Vector.replicate 32 0) (Vector.replicate 16 0)
      (cbcCipher (Vector.replicate 32 0) (Vector.replicate 16 0)
        (padded (List.replicate 4294967296 0) 4294967312)) 4294967312).1 = 0 ∧
    ¬Reencrypts (Vector.replicate 32 0) (Vector.replicate 16 0)
      (cbcCipher (Vector.replicate 32 0) (Vector.replicate 16 0)
        (padded (List.replicate 4294967296 0) 4294967312)) := by
  have hn : (List.replicate 4294967296 (0 : BitVec 8)).length = 4294967312 - 16 :=
    List.length_replicate
  generalize List.replicate 4294967296 (0 : BitVec 8) = pt at hn ⊢
  refine ⟨?_, not_reencrypts ⟨by decide, by decide, by decide⟩ hn⟩
  rw [(decrypt_cbcCipher (by decide) (by decide) hn).2]
  change toInt32 ((4294967312 - 16) % 4294967296) = 0
  decide

end GenOS
