import Mathlib.Data.Finite.Prod
import Mathlib.Tactic.FinCases
import Mathlib.Tactic.IntervalCases
import GenOS.Crypto.Aes

/-!
# The AES block cipher and its inverse

Each step of a round has an inverse: the substitution by its tables, the rows by moving back, the
columns by the algebra of `xtime`, and a round key by adding it again. A round of the decryption
undoes the substitution and the rows of the round after it and the key and the columns of its own.
-/

namespace GenOS

/-! ## Bytes -/

theorem invSbox_sbox : ∀ a : BitVec 8, invSbox (sbox a) = a := by decide +kernel

theorem xtime_eq : ∀ a : BitVec 8, xtime a = a <<< 1 ^^^ (if a.msb then 0x1b else 0) := by
  decide

/-- `xtime` is linear. -/
theorem xtime_xor (a b : BitVec 8) : xtime (a ^^^ b) = xtime a ^^^ xtime b := by
  have hred : (if (a ^^^ b).msb then 0x1b else 0 : BitVec 8) =
      (if a.msb then 0x1b else 0) ^^^ (if b.msb then 0x1b else 0) := by
    rw [BitVec.msb_xor]
    cases a.msb <;> cases b.msb <;> rfl
  rw [xtime_eq, xtime_eq, xtime_eq, BitVec.shiftLeft_xor_distrib, hred]
  ac_rfl

/-- Multiplication by the bytes of the inverse matrix, by `xtime`. -/
theorem gfMul_eq : ∀ a : BitVec 8,
    gfMul a 0x0e = xtime (xtime (xtime a)) ^^^ xtime (xtime a) ^^^ xtime a ∧
    gfMul a 0x0b = xtime (xtime (xtime a)) ^^^ xtime a ^^^ a ∧
    gfMul a 0x0d = xtime (xtime (xtime a)) ^^^ xtime (xtime a) ^^^ a ∧
    gfMul a 0x09 = xtime (xtime (xtime a)) ^^^ a := by
  decide

theorem gfMul_xor (a b : BitVec 8) :
    gfMul (a ^^^ b) 0x0e = gfMul a 0x0e ^^^ gfMul b 0x0e ∧
    gfMul (a ^^^ b) 0x0b = gfMul a 0x0b ^^^ gfMul b 0x0b ∧
    gfMul (a ^^^ b) 0x0d = gfMul a 0x0d ^^^ gfMul b 0x0d ∧
    gfMul (a ^^^ b) 0x09 = gfMul a 0x09 ^^^ gfMul b 0x09 := by
  obtain ⟨h1, h2, h3, h4⟩ := gfMul_eq (a ^^^ b)
  obtain ⟨ha1, ha2, ha3, ha4⟩ := gfMul_eq a
  obtain ⟨hb1, hb2, hb3, hb4⟩ := gfMul_eq b
  rw [h1, h2, h3, h4, ha1, ha2, ha3, ha4, hb1, hb2, hb3, hb4]
  simp only [xtime_xor]
  refine ⟨?_, ?_, ?_, ?_⟩ <;> ac_rfl

/-! ## Columns -/

def xorColumn (v w : Column) : Column := fun i => v i ^^^ w i

/-- A column with one byte. -/
def unitColumn (i : Fin 4) (a : BitVec 8) : Column := fun j => if j = i then a else 0

theorem column_eq_units (v : Column) :
    v = xorColumn (xorColumn (unitColumn 0 (v 0)) (unitColumn 1 (v 1)))
      (xorColumn (unitColumn 2 (v 2)) (unitColumn 3 (v 3))) := by
  funext i
  fin_cases i <;> simp [xorColumn, unitColumn]

theorem mixColumn_xor (v w : Column) :
    onColumn mixColumn (xorColumn v w) =
      xorColumn (onColumn mixColumn v) (onColumn mixColumn w) := by
  unfold onColumn mixColumn xorColumn
  simp only [xtime_xor]
  funext i
  fin_cases i
  all_goals
    change _ ^^^ _ = (_ ^^^ _) ^^^ (_ ^^^ _)
    ac_rfl

theorem invMixColumn_xor (v w : Column) :
    onColumn invMixColumn (xorColumn v w) =
      xorColumn (onColumn invMixColumn v) (onColumn invMixColumn w) := by
  unfold onColumn invMixColumn xorColumn
  simp only [(gfMul_xor _ _).1, (gfMul_xor _ _).2.1, (gfMul_xor _ _).2.2.1, (gfMul_xor _ _).2.2.2]
  funext i
  fin_cases i
  all_goals
    change _ ^^^ _ = (_ ^^^ _) ^^^ (_ ^^^ _)
    ac_rfl

theorem xtime_zero : xtime 0#8 = 0#8 := by decide

theorem byte_xor_left_comm (a b c : BitVec 8) : a ^^^ (b ^^^ c) = b ^^^ (a ^^^ c) := by
  rw [← BitVec.xor_assoc, BitVec.xor_comm a b, BitVec.xor_assoc]

/-- In a column with one byte the powers of `xtime` cancel. -/
theorem invMixColumn_unit (i : Fin 4) (a : BitVec 8) :
    onColumn invMixColumn (onColumn mixColumn (unitColumn i a)) = unitColumn i a := by
  simp only [onColumn, invMixColumn, (gfMul_eq _).1, (gfMul_eq _).2.1, (gfMul_eq _).2.2.1,
    (gfMul_eq _).2.2.2]
  simp only [mixColumn, Matrix.cons_val, xtime_xor]
  generalize h1 : xtime a = a1
  generalize h2 : xtime a1 = a2
  generalize h3 : xtime a2 = a3
  generalize h4 : xtime a3 = a4
  fin_cases i <;> funext j <;> fin_cases j <;>
    simp [unitColumn, xtime_zero, h1, h2, h3, h4, BitVec.xor_assoc, BitVec.xor_comm,
      byte_xor_left_comm]

/-- The matrices of the two steps are inverse: both are linear, and they are on columns with one
byte. -/
theorem invMixColumn_mixColumn (v : Column) :
    onColumn invMixColumn (onColumn mixColumn v) = v := by
  rw [column_eq_units v]
  simp only [mixColumn_xor, invMixColumn_xor, invMixColumn_unit]

/-! ## The steps of a round -/

/-- The byte `j` of the column `c`. -/
theorem getElem_mapColumns (f : (a0 a1 a2 a3 : BitVec 8) → Column) (s : AesState) {c j : Nat}
    (hc : c < 4) (hj : j < 4) : (mapColumns f s)[c * 4 + j] =
      f s[c * 4] s[c * 4 + 1] s[c * 4 + 2] s[c * 4 + 3] (Fin.ofNat 4 j) := by
  have hcol : (c * 4 + j) / 4 * 4 = c * 4 := by omega
  have hbyte : Fin.ofNat 4 (c * 4 + j) = Fin.ofNat 4 j := by
    apply Fin.ext
    change (c * 4 + j) % 4 = j % 4
    omega
  unfold mapColumns
  rw [Vector.getElem_ofFn]
  simp only [hcol, hbyte]

theorem invMixColumns_mixColumns (s : AesState) : invMixColumns (mixColumns s) = s := by
  apply Vector.ext
  intro k hk
  obtain ⟨c, j, hc, hj, rfl⟩ : ∃ c j, c < 4 ∧ j < 4 ∧ k = c * 4 + j :=
    ⟨k / 4, k % 4, by omega, by omega, by omega⟩
  have h := invMixColumn_mixColumn ![s[c * 4], s[c * 4 + 1], s[c * 4 + 2], s[c * 4 + 3]]
  have h0 : (mapColumns mixColumn s)[c * 4] = _ := getElem_mapColumns mixColumn s hc
    (j := 0) (by decide)
  unfold invMixColumns mixColumns
  rw [getElem_mapColumns _ _ hc hj, h0, getElem_mapColumns mixColumn s hc (by decide),
    getElem_mapColumns mixColumn s hc (by decide), getElem_mapColumns mixColumn s hc (by decide)]
  refine (congrFun h (Fin.ofNat 4 j)).trans ?_
  interval_cases j <;> rfl

theorem getElem_shiftRows (s : AesState) {k : Nat} (hk : k < 16) :
    (shiftRows s)[k] = s[(k + 4 * (k % 4)) % 16] := by
  unfold shiftRows
  interval_cases k <;> simp

theorem getElem_invShiftRows (s : AesState) {k : Nat} (hk : k < 16) :
    (invShiftRows s)[k] = s[(k + 12 * (k % 4)) % 16] := by
  unfold invShiftRows
  interval_cases k <;> simp

theorem invShiftRows_shiftRows (s : AesState) : invShiftRows (shiftRows s) = s := by
  apply Vector.ext
  intro k hk
  have h : ((k + 12 * (k % 4)) % 16 + 4 * ((k + 12 * (k % 4)) % 16 % 4)) % 16 = k := by omega
  rw [getElem_invShiftRows _ hk, getElem_shiftRows _ (Nat.mod_lt _ (by decide))]
  simp only [h]

theorem invSubBytes_subBytes (s : AesState) : invSubBytes (subBytes s) = s := by
  apply Vector.ext
  intro k hk
  unfold invSubBytes subBytes
  rw [Vector.getElem_ofFn, Fin.getElem_fin, Vector.getElem_ofFn, invSbox_sbox]
  rfl

theorem addRoundKey_addRoundKey (rk : List (BitVec 8)) (r : Nat) (s : AesState) :
    addRoundKey rk r (addRoundKey rk r s) = s := by
  apply Vector.ext
  intro k hk
  unfold addRoundKey
  rw [Vector.getElem_ofFn, Fin.getElem_fin, Vector.getElem_ofFn, BitVec.xor_assoc,
    BitVec.xor_self, BitVec.xor_zero]
  rfl

/-! ## Blocks -/

/-- A round of the decryption undoes its own round but for the last substitution and rows. -/
theorem decryptRound_encryptRound (rk : List (BitVec 8)) (s : AesState) (r : Nat) :
    decryptRound rk (shiftRows (subBytes (encryptRound rk s r))) r = shiftRows (subBytes s) := by
  unfold decryptRound encryptRound
  rw [invShiftRows_shiftRows, invSubBytes_subBytes, addRoundKey_addRoundKey,
    invMixColumns_mixColumns]

theorem foldl_decryptRound (rk : List (BitVec 8)) (rs : List Nat) (s : AesState) :
    rs.reverse.foldl (decryptRound rk) (shiftRows (subBytes (rs.foldl (encryptRound rk) s))) =
      shiftRows (subBytes s) := by
  induction rs using List.reverseRecOn with
  | nil => rfl
  | append_singleton rs r ih =>
    rw [List.reverse_append, List.reverse_singleton, List.singleton_append, List.foldl_cons,
      List.foldl_append, List.foldl_cons, List.foldl_nil, decryptRound_encryptRound, ih]

theorem aes256DecryptBlock_encryptBlock (key : AesKey) (b : AesState) :
    aes256DecryptBlock key (aes256EncryptBlock key b) = b := by
  unfold aes256DecryptBlock aes256EncryptBlock
  dsimp only
  rw [addRoundKey_addRoundKey, foldl_decryptRound, invShiftRows_shiftRows, invSubBytes_subBytes,
    addRoundKey_addRoundKey]

instance finiteByte : Finite (BitVec 8) := .of_injective BitVec.toFin fun _ _ h =>
    BitVec.toFin_inj.mp h

instance : Finite AesState :=
  .of_injective (fun s (i : Fin 16) => s[i]) fun s t h => by
    apply Vector.ext
    intro k hk
    exact congrFun h ⟨k, hk⟩

/-- There are finitely many blocks, so the inverse on one side is one on the other. -/
theorem aes256EncryptBlock_decryptBlock (key : AesKey) (b : AesState) :
    aes256EncryptBlock key (aes256DecryptBlock key b) = b := by
  have hl : Function.LeftInverse (aes256DecryptBlock key) (aes256EncryptBlock key) :=
    aes256DecryptBlock_encryptBlock key
  have hs : Function.Surjective (aes256EncryptBlock key) :=
    Finite.surjective_of_injective hl.injective
  exact hl.rightInverse_of_surjective hs b

end GenOS
