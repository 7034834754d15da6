import GenOS.Security.Keystore

/-!
# The keystore is a finite map

`KeystoreRep` ties the entries to a map: every active entry holds the value of its name, and there
is one for each name of the map. Each call keeps it and replies as the map does.
-/

namespace GenOS

/-- The active entries by name. -/
def keyedEntries : Slots KeystoreEntry CString := ⟨(·.active), (·.name)⟩

theorem entryTest_eq (name : CString) :
    (fun e : KeystoreEntry => e.active && strEq e.name name) =
      fun e => keyedEntries.live e && decide (keyedEntries.key e = name) := by
  funext e
  show _ = (e.active && decide (e.name = name))
  rw [Bool.eq_iff_iff, Bool.and_eq_true, Bool.and_eq_true, strEq_iff, decide_eq_true_eq]

/-! ## One entry -/

/-- The entry holds `value` under `key`. -/
def KeystoreEntry.Holds (e : KeystoreEntry) (key : AesKey) (value : List (BitVec 8)) : Prop :=
  value.length ≤ 240 ∧
    aes256CbcEncrypt key e.iv value 256 = (e.encLen, e.encrypted.take e.encLen.toNat)

theorem paddedLength_le {n : Nat} (h : n ≤ 240) : paddedLength n ≤ 256 := by
  unfold paddedLength
  omega

/-- The length of the ciphertext. -/
theorem KeystoreEntry.Holds.encLen {e : KeystoreEntry} {key : AesKey} {value : List (BitVec 8)}
    (h : e.Holds key value) : e.encLen = paddedLength value.length := by
  have hle := paddedLength_le h.1
  have h2 := congrArg Prod.fst h.2
  unfold aes256CbcEncrypt at h2
  simp only [if_neg (Nat.not_lt.mpr hle)] at h2
  rw [← h2, Nat.mod_eq_of_lt (by omega), toInt32_of_lt (by omega)]

theorem KeystoreEntry.Holds.decrypt {e : KeystoreEntry} {key : AesKey} {value : List (BitVec 8)}
    (h : e.Holds key value) {outMax : Nat} (ho : paddedLength value.length ≤ outMax) :
    (aes256CbcDecrypt key e.iv (e.encrypted.take e.encLen.toNat) outMax).1 = value.length ∧
      (aes256CbcDecrypt key e.iv (e.encrypted.take e.encLen.toNat) outMax).2.take value.length =
        value := by
  have hlen := h.1
  obtain ⟨ct, h1, h2, h3⟩ := @aes256Cbc_decrypt_encrypt key e.iv value 256 outMax (by omega)
    (paddedLength_le hlen) ho
  obtain rfl : e.encrypted.take e.encLen.toNat = ct := congrArg Prod.snd (h.2.symm.trans h1)
  exact ⟨h2, h3⟩

/-- A buffer that does not take the padding is refused. -/
theorem KeystoreEntry.Holds.short {e : KeystoreEntry} {key : AesKey} {value : List (BitVec 8)}
    (h : e.Holds key value) {outMax : Nat} (ho : outMax < paddedLength value.length) :
    aes256CbcDecrypt key e.iv (e.encrypted.take e.encLen.toNat) outMax = (-1, []) := by
  have hlen := h.1
  obtain ⟨ct, h1, -⟩ := @aes256Cbc_decrypt_encrypt key e.iv value 256
    (paddedLength value.length) (by omega) (paddedLength_le hlen) (Nat.le_refl _)
  have hct : e.encrypted.take e.encLen.toNat = ct := congrArg Prod.snd (h.2.symm.trans h1)
  have hfst : e.encLen = ct.length := congrArg Prod.fst (h.2.symm.trans h1)
  have henc := h.encLen
  have hl : ct.length = paddedLength value.length := by omega
  rw [hct]
  unfold aes256CbcDecrypt
  rw [hl]
  split <;> rfl

theorem setEntry_holds (key : AesKey) (e : KeystoreEntry) (name : CString)
    {value : List (BitVec 8)} (iv : AesState) (h : value.length ≤ 240) :
    (setEntry key e name value iv).active = true ∧
      (setEntry key e name value iv).Holds key value := by
  obtain ⟨ct, h1, -⟩ := @aes256Cbc_decrypt_encrypt key iv value 256
    (paddedLength value.length) (by omega) (paddedLength_le h) (Nat.le_refl _)
  have henc : setEntry key e name value iv = ⟨copyString 31 name, ct ++ e.encrypted.drop ct.length,
      ct.length, iv, if (ct.length : Int) < 0 then e.active else true⟩ := by
    unfold setEntry
    rw [h1]
  rw [henc]
  refine ⟨?_, h, ?_⟩
  · show (if (ct.length : Int) < 0 then e.active else true) = true
    exact if_neg (by omega)
  show aes256CbcEncrypt key iv value 256 = (_, (ct ++ _).take (ct.length : Int).toNat)
  rw [h1, Int.toNat_natCast, List.take_left]

/-! ## The representation -/

/-- The entries are those of the map. -/
structure KeystoreRep (k : Keystore) (m : Finmap fun _ : CString => List (BitVec 8)) : Prop where
  ready : k.initialized = true
  size : k.entries.length = 16
  distinct : keyedEntries.Distinct k.entries
  stored : ∀ {i name e}, keyedEntries.At k.entries i name e →
    ∃ value, m.lookup name = some value ∧ e.Holds k.masterKey value
  found : ∀ {name}, name ∈ m → ∃ i e, keyedEntries.At k.entries i name e
  used : m.keys.card = k.entries.countP KeystoreEntry.active

/-- Nothing happens before the initialisation. -/
def Represents (k : Keystore) : KeyMap → Prop
  | none => k = keystoreZero
  | some m => KeystoreRep k m

section Calls

variable {k : Keystore} {m : Finmap fun _ : CString => List (BitVec 8)} {name : CString}

/-- The name is in the map exactly if an entry has it. -/
theorem KeystoreRep.mem_iff (h : KeystoreRep k m) :
    name ∈ m ↔ ∃ i e, keyedEntries.At k.entries i name e := by
  refine ⟨h.found, fun ⟨i, e, he⟩ => ?_⟩
  obtain ⟨value, hv, -⟩ := h.stored he
  exact Finmap.mem_of_lookup_eq_some hv

theorem represents_init {passphrase : CString} (hs : k.entries.length = 16) :
    KeystoreRep (keystoreInit k passphrase) ∅ := by
  have hnone : ∀ {i name e}, ¬ keyedEntries.At (keystoreInit k passphrase).entries i name e := by
    intro i name e h
    obtain ⟨e', -, rfl⟩ := List.mem_map.mp (List.mem_of_getElem? h.slot)
    cases h.live
  refine ⟨rfl, ?_, ?_, fun h => absurd h hnone, fun h => absurd h Finmap.notMem_empty, ?_⟩
  · exact (List.length_map _).trans hs
  · exact fun i j name e e' h => absurd h hnone
  · rw [Finmap.keys_empty, Finset.card_empty, eq_comm]
    refine List.countP_eq_zero.mpr fun e he => ?_
    obtain ⟨e', -, rfl⟩ := List.mem_map.mp he
    exact Bool.false_ne_true

/-- A name that is not in the map. -/
theorem keystoreGet_absent (h : KeystoreRep k m) (hm : name ∉ m) (outMax : Nat) :
    keystoreGet k name outMax = (-1, 0, []) := by
  unfold keystoreGet
  rw [h.ready, entryTest_eq, Slots.find?_none fun i e he => hm (h.mem_iff.mpr ⟨i, e, he⟩)]
  rfl

/-- A name of the map, and a buffer that takes the padding. -/
theorem keystoreGet_present (h : KeystoreRep k m) {value : List (BitVec 8)}
    (hv : m.lookup name = some value) {outMax : Nat} (ho : paddedLength value.length ≤ outMax) :
    ∃ out : List (BitVec 8), keystoreGet k name outMax = ((0 : Int), (value.length : Int), out) ∧
      out.take value.length = value := by
  obtain ⟨i, e, he⟩ := h.found (Finmap.mem_of_lookup_eq_some hv)
  obtain ⟨value', hv', hold⟩ := h.stored he
  obtain rfl := Option.some.inj (hv.symm.trans hv')
  have henc := hold.encLen
  have hle := paddedLength_le hold.1
  have hmod : (e.encLen % 18446744073709551616).toNat = e.encLen.toNat := by omega
  obtain ⟨h1, h2⟩ := hold.decrypt ho
  generalize hd : aes256CbcDecrypt k.masterKey e.iv (e.encrypted.take e.encLen.toNat) outMax = d
    at h1 h2
  refine ⟨d.2, ?_, h2⟩
  unfold keystoreGet
  rw [h.ready, entryTest_eq, h.distinct.find? he]
  simp only [hmod, hd, h1, Bool.not_true, Bool.false_eq_true, if_false]
  exact if_neg (Int.not_lt.mpr (Int.natCast_nonneg _))

theorem keystoreGet_short (h : KeystoreRep k m) {value : List (BitVec 8)}
    (hv : m.lookup name = some value) {outMax : Nat} (ho : outMax < paddedLength value.length) :
    keystoreGet k name outMax = (-1, 0, []) := by
  obtain ⟨i, e, he⟩ := h.found (Finmap.mem_of_lookup_eq_some hv)
  obtain ⟨value', hv', hold⟩ := h.stored he
  obtain rfl := Option.some.inj (hv.symm.trans hv')
  have henc := hold.encLen
  have hle := paddedLength_le hold.1
  have hmod : (e.encLen % 18446744073709551616).toNat = e.encLen.toNat := by omega
  unfold keystoreGet
  rw [h.ready, entryTest_eq, h.distinct.find? he]
  simp only [hmod, hold.short ho]
  rfl

/-- Where `keystore_set` stores: the entry of the name, or a free one. -/
theorem keystoreSet_cases (h : KeystoreRep k m) (name : CString) {value : List (BitVec 8)}
    (hl : value.length ≤ 240) (iv : AesState) :
    (keystoreSet k name value iv = (-1, k) ∧ name ∉ m ∧ ∀ e ∈ k.entries, e.active = true) ∨
    ∃ i e, k.entries[i]? = some e ∧
      (keyedEntries.At k.entries i name e ∨ (e.active = false ∧ name ∉ m)) ∧
      keystoreSet k name value iv =
        (0, { k with entries := k.entries.set i (setEntry k.masterKey e name value iv) }) := by
  -- a store into slot `i`
  have hstore : ∀ {i e}, k.entries[i]? = some e →
      (if ((k.entries.modify i fun e => setEntry k.masterKey e name value iv)[i]?.map
          KeystoreEntry.encLen).getD 0 < 0 then (-1 : Int) else 0,
        { k with entries := k.entries.modify i fun e => setEntry k.masterKey e name value iv }) =
      (0, { k with entries := k.entries.set i (setEntry k.masterKey e name value iv) }) := by
    intro i e he
    obtain ⟨-, hold⟩ := setEntry_holds k.masterKey e name iv hl
    have henc := hold.encLen
    have hmodify : (k.entries.modify i fun e => setEntry k.masterKey e name value iv) =
        k.entries.set i (setEntry k.masterKey e name value iv) := by
      rw [List.modify_eq_set_getElem?, he]
      rfl
    rw [hmodify, List.getElem?_set_self (List.getElem?_eq_some_iff.mp he).1, Option.map_some,
      Option.getD_some, if_neg (by omega)]
  unfold keystoreSet
  rw [if_neg (by simp [h.ready]), if_neg (by omega), entryTest_eq]
  cases hf : k.entries.findIdx? fun e =>
      keyedEntries.live e && decide (keyedEntries.key e = name) with
  | some i =>
    obtain ⟨e, he⟩ := Slots.find_some hf
    exact .inr ⟨i, e, he.slot, .inl he, hstore he.slot⟩
  | none =>
    have hm : name ∉ m := fun hm => by
      obtain ⟨i, e, he⟩ := h.found hm
      exact Slots.find_none hf i e he
    cases hs : k.entries.findIdx? fun e => !e.active with
    | none => exact .inl ⟨rfl, hm, keyedEntries.free_eq_none_iff.mp hs⟩
    | some i =>
      obtain ⟨e, he, hl⟩ := keyedEntries.free_some hs
      exact .inr ⟨i, e, he, .inr ⟨hl, hm⟩, hstore he⟩

theorem keys_insert (m : Finmap fun _ : CString => List (BitVec 8)) (name : CString)
    (value : List (BitVec 8)) : (m.insert name value).keys = insert name m.keys := by
  ext x
  rw [Finmap.mem_keys, Finmap.mem_insert, Finset.mem_insert, Finmap.mem_keys]

/-- A store into the entry of the name, or into a free one. -/
theorem KeystoreRep.set (h : KeystoreRep k m) {i : Nat} {e e' : KeystoreEntry}
    {value : List (BitVec 8)} (he : k.entries[i]? = some e)
    (hslot : keyedEntries.At k.entries i name e ∨ (e.active = false ∧ name ∉ m))
    (hname : e'.name = name) (hact : e'.active = true) (hold : e'.Holds k.masterKey value) :
    KeystoreRep { k with entries := k.entries.set i e' } (m.insert name value) := by
  have hi := (List.getElem?_eq_some_iff.mp he).1
  -- no other entry has the name
  have hother : ∀ {j f}, keyedEntries.At k.entries j name f → j = i := fun hf => by
    rcases hslot with hat | ⟨-, hm⟩
    · exact h.distinct hf hat
    · exact absurd (h.mem_iff.mpr ⟨_, _, hf⟩) hm
  refine ⟨h.ready, (List.length_set ..).trans h.size, ?_, ?_, ?_, ?_⟩
  · refine h.distinct.set fun _ j f hf => hother (f := f) ?_
    rwa [show keyedEntries.key e' = name from hname] at hf
  · intro j name' f hf
    rcases Slots.at_set.mp hf with ⟨rfl, -, rfl, -, hk⟩ | ⟨hj, hf⟩
    · obtain rfl : name = name' := hname.symm.trans hk
      exact ⟨value, Finmap.lookup_insert m, hold⟩
    · have hne : name' ≠ name := fun hn => hj (hother (hn ▸ hf))
      rw [Finmap.lookup_insert_of_ne m hne]
      exact h.stored hf
  · intro name' hm'
    by_cases hn : name' = name
    · exact ⟨i, e', Slots.at_set.mpr (.inl ⟨rfl, hi, rfl, hact, hname.trans hn.symm⟩)⟩
    · obtain ⟨j, f, hf⟩ := h.found ((Finmap.mem_insert.mp hm').resolve_left hn)
      refine ⟨j, f, Slots.at_set.mpr (.inr ⟨?_, hf⟩)⟩
      rintro rfl
      obtain rfl := Option.some.inj (hf.slot.symm.trans he)
      rcases hslot with hat | ⟨hfree, -⟩
      · exact hn (hf.key.symm.trans hat.key)
      · exact absurd hf.live (by simp [keyedEntries, hfree])
  · have hcount := Slots.countP_set KeystoreEntry.active e' he
    have hused := h.used
    rw [hact, Bool.toNat_true] at hcount
    show (m.insert name value).keys.card = (k.entries.set i e').countP KeystoreEntry.active
    rw [keys_insert]
    rcases hslot with hat | ⟨hfree, hm⟩
    · have hmem : name ∈ m.keys := Finmap.mem_keys.mpr (h.mem_iff.mpr ⟨i, e, hat⟩)
      have hlive : e.active = true := hat.live
      rw [hlive, Bool.toNat_true] at hcount
      rw [Finset.insert_eq_of_mem hmem]
      omega
    · rw [hfree, Bool.toNat_false] at hcount
      rw [Finset.card_insert_of_notMem fun hmem => hm (Finmap.mem_keys.mp hmem)]
      omega

/-- The entry of the name is freed. -/
theorem KeystoreRep.erase (h : KeystoreRep k m) {i : Nat} {e e' : KeystoreEntry}
    (hat : keyedEntries.At k.entries i name e) (hact : e'.active = false) :
    KeystoreRep { k with entries := k.entries.set i e' } (m.erase name) := by
  have hkeep : ∀ {j name' f}, keyedEntries.At (k.entries.set i e') j name' f →
      j ≠ i ∧ keyedEntries.At k.entries j name' f := fun hf => by
    rcases Slots.at_set.mp hf with ⟨-, -, -, hl, -⟩ | hf
    · exact absurd hl (by simp [keyedEntries, hact])
    · exact hf
  refine ⟨h.ready, (List.length_set ..).trans h.size, ?_, ?_, ?_, ?_⟩
  · exact fun j j' name' f f' hf hf' => h.distinct (hkeep hf).2 (hkeep hf').2
  · intro j name' f hf
    obtain ⟨hj, hf⟩ := hkeep hf
    have hne : name' ≠ name := fun hn => hj (h.distinct (hn ▸ hf) hat)
    rw [Finmap.lookup_erase_ne hne]
    exact h.stored hf
  · intro name' hm'
    obtain ⟨hne, hm⟩ := Finmap.mem_erase.mp hm'
    obtain ⟨j, f, hf⟩ := h.found hm
    refine ⟨j, f, Slots.at_set.mpr (.inr ⟨?_, hf⟩)⟩
    rintro rfl
    obtain rfl := Option.some.inj (hf.slot.symm.trans hat.slot)
    exact hne (hf.key.symm.trans hat.key)
  · have hcount := Slots.countP_set KeystoreEntry.active e' hat.slot
    have hused := h.used
    have hlive : e.active = true := hat.live
    have hmem : name ∈ m.keys := Finmap.mem_keys.mpr (h.mem_iff.mpr ⟨i, e, hat⟩)
    rw [hact, hlive, Bool.toNat_true, Bool.toNat_false] at hcount
    show (m.erase name).keys.card = (k.entries.set i e').countP KeystoreEntry.active
    have hpos := Finset.card_pos.mpr ⟨name, hmem⟩
    rw [Finmap.keys_erase, Finset.card_erase_of_mem hmem]
    omega

theorem keystoreDelete_cases (h : KeystoreRep k m) (name : CString) :
    (keystoreDelete k name = (-1, k) ∧ name ∉ m) ∨
    ∃ i e e', keyedEntries.At k.entries i name e ∧ e'.active = false ∧
      keystoreDelete k name = (0, { k with entries := k.entries.set i e' }) := by
  unfold keystoreDelete
  rw [if_neg (by simp [h.ready]), entryTest_eq]
  cases hf : k.entries.findIdx? fun e =>
      keyedEntries.live e && decide (keyedEntries.key e = name) with
  | none =>
    refine .inl ⟨rfl, fun hm => ?_⟩
    obtain ⟨i, e, he⟩ := h.found hm
    exact Slots.find_none hf i e he
  | some i =>
    obtain ⟨e, he⟩ := Slots.find_some hf
    refine .inr ⟨i, e, ⟨e.name, List.replicate 256 0, e.encLen, Vector.replicate 16 0, false⟩,
      he, rfl, ?_⟩
    dsimp only
    rw [List.modify_eq_set_getElem?, he.slot]
    rfl

/-! ## Every call -/

theorem KeystoreRep.call (h : KeystoreRep k m) {op : KeystoreOp} (hop : op.Within) :
    (keystoreCall k op).1 = (KeyMap.call (some m) op).1 ∧
      Represents (keystoreCall k op).2 (KeyMap.call (some m) op).2 := by
  cases op with
  | init passphrase => exact ⟨rfl, represents_init h.size⟩
  | set name value iv =>
    obtain ⟨hshort, hlen⟩ := hop
    have hcall : keystoreCall k (.set name value iv) =
        (⟨(keystoreSet k name value iv).1, 0, []⟩, (keystoreSet k name value iv).2) := rfl
    have hmap : KeyMap.call (some m) (.set name value iv) =
        if name ∈ m ∨ m.keys.card < 16 then (⟨0, 0, []⟩, some (m.insert name value))
        else (⟨-1, 0, []⟩, some m) := rfl
    rw [hcall, hmap]
    rcases keystoreSet_cases h name hlen iv with ⟨he, hm, hall⟩ | ⟨i, e, he, hslot, hs⟩
    · have hfull : m.keys.card = 16 := by
        rw [h.used, ← h.size]
        exact List.countP_eq_length.mpr hall
      rw [he, if_neg (by simp [hm, hfull])]
      exact ⟨rfl, h⟩
    · have hroom : name ∈ m ∨ m.keys.card < 16 := by
        rcases hslot with hat | ⟨hfree, -⟩
        · exact .inl (h.mem_iff.mpr ⟨i, e, hat⟩)
        · refine .inr ?_
          rw [h.used, ← h.size]
          refine lt_of_le_of_ne List.countP_le_length fun hc => ?_
          rw [List.countP_eq_length.mp hc e (List.mem_of_getElem? he)] at hfree
          cases hfree
      obtain ⟨hact, hold⟩ := setEntry_holds k.masterKey e name iv hlen
      rw [hs, if_pos hroom]
      exact ⟨rfl, h.set he hslot (copyString_of_le hshort) hact hold⟩
  | get name outMax =>
    have hcall : keystoreCall k (.get name outMax) =
        (if (keystoreGet k name outMax).1 = 0 then
          ⟨0, (keystoreGet k name outMax).2.1,
            (keystoreGet k name outMax).2.2.take (keystoreGet k name outMax).2.1.toNat⟩
        else ⟨(keystoreGet k name outMax).1, 0, []⟩, k) := rfl
    rw [hcall]
    cases hv : m.lookup name with
    | none =>
      have hmap : KeyMap.call (some m) (.get name outMax) = (⟨-1, 0, []⟩, some m) := by
        unfold KeyMap.call
        dsimp only
        rw [hv]
      rw [hmap, keystoreGet_absent h (Finmap.lookup_eq_none.mp hv)]
      exact ⟨rfl, h⟩
    | some value =>
      have hmap : KeyMap.call (some m) (.get name outMax) =
          if paddedLength value.length ≤ outMax then (⟨0, value.length, value⟩, some m)
          else (⟨-1, 0, []⟩, some m) := by
        unfold KeyMap.call
        dsimp only
        rw [hv]
      rw [hmap]
      by_cases ho : paddedLength value.length ≤ outMax
      · obtain ⟨out, hg, ht⟩ := keystoreGet_present h hv ho
        rw [hg]
        dsimp only
        rw [if_pos rfl, if_pos ho, Int.toNat_natCast, ht]
        exact ⟨rfl, h⟩
      · rw [keystoreGet_short h hv (Nat.lt_of_not_le ho)]
        dsimp only
        rw [if_neg ho]
        exact ⟨rfl, h⟩
  | delete name =>
    have hcall : keystoreCall k (.delete name) =
        (⟨(keystoreDelete k name).1, 0, []⟩, (keystoreDelete k name).2) := rfl
    have hmap : KeyMap.call (some m) (.delete name) =
        if name ∈ m then (⟨0, 0, []⟩, some (m.erase name)) else (⟨-1, 0, []⟩, some m) := rfl
    rw [hcall, hmap]
    rcases keystoreDelete_cases h name with ⟨he, hm⟩ | ⟨i, e, e', hat, hact, he⟩
    · rw [he, if_neg hm]
      exact ⟨rfl, h⟩
    · rw [he, if_pos (h.mem_iff.mpr ⟨i, e, hat⟩)]
      exact ⟨rfl, h.erase hat hact⟩

end Calls

theorem represents_call {k : Keystore} {m : KeyMap} (h : Represents k m) {op : KeystoreOp}
    (hop : op.Within) : (keystoreCall k op).1 = (m.call op).1 ∧
      Represents (keystoreCall k op).2 (m.call op).2 := by
  cases m with
  | some m => exact KeystoreRep.call h hop
  | none =>
    obtain rfl : k = keystoreZero := h
    cases op with
    | init passphrase => exact ⟨rfl, represents_init rfl⟩
    | set name value iv => exact ⟨rfl, rfl⟩
    | get name outMax => exact ⟨rfl, rfl⟩
    | delete name => exact ⟨rfl, rfl⟩

theorem represents_zero : Represents keystoreZero none := rfl

theorem represents_run {k : Keystore} {m : KeyMap} (h : Represents k m) {ops : List KeystoreOp}
    (hops : ∀ op ∈ ops, op.Within) : Represents (keystoreRun k ops) (m.run ops) := by
  induction ops generalizing k m with
  | nil => exact h
  | cons op ops ih =>
    exact ih (represents_call h (hops op List.mem_cons_self)).2
      fun op' hop' => hops op' (List.mem_cons_of_mem _ hop')

theorem Represents.distinct {k : Keystore} {m : KeyMap} (h : Represents k m) :
    keyedEntries.Distinct k.entries := by
  cases m with
  | some m => exact KeystoreRep.distinct h
  | none =>
    obtain rfl : k = keystoreZero := h
    intro i j name e e' h
    obtain ⟨-, rfl⟩ := List.mem_replicate.mp (List.mem_of_getElem? h.slot)
    cases h.live

/-! ## The replies of a map -/

/-- The values by name, none before the initialisation. -/
def KeyMap.contents (m : KeyMap) : Finmap fun _ : CString => List (BitVec 8) := m.getD ∅

/-- What a map with 16 slots and the values `m` replies to a call: a buffer needs room for the value
and no more. -/
def MapReply (m : Finmap fun _ : CString => List (BitVec 8)) (r : KeystoreReply) :
    KeystoreOp → Prop
  | .init _ => r = ⟨0, 0, []⟩
  | .set name _ _ => r = if name ∈ m ∨ m.keys.card < 16 then ⟨0, 0, []⟩ else ⟨-1, 0, []⟩
  | .get name outMax =>
    (m.lookup name = none → r = ⟨-1, 0, []⟩) ∧
      ∀ value, m.lookup name = some value → value.length ≤ outMax → r = ⟨0, value.length, value⟩
  | .delete name => r = if name ∈ m then ⟨0, 0, []⟩ else ⟨-1, 0, []⟩

/-- The call does not meet a limit that the map does not have: a value is stored after the
initialisation, and a buffer with room for a value has room for its padding. -/
def KeyMap.Served (m : KeyMap) : KeystoreOp → Prop
  | .init _ | .delete _ => True
  | .set .. => m ≠ none
  | .get name outMax => ∀ value, m.contents.lookup name = some value →
    value.length ≤ outMax → paddedLength value.length ≤ outMax

theorem KeyMap.get_reply (m : KeyMap) (name : CString) (outMax : Nat) :
    MapReply m.contents (m.call (.get name outMax)).1 (.get name outMax) ↔
      m.Served (.get name outMax) := by
  cases m with
  | none =>
    have hnone : (KeyMap.contents none).lookup name = none := Finmap.lookup_empty name
    simp only [MapReply, KeyMap.Served, hnone, reduceCtorEq, false_implies, implies_true, and_true,
      true_implies, iff_true]
    rfl
  | some f =>
    have hsome : KeyMap.contents (some f) = f := rfl
    simp only [MapReply, KeyMap.Served, hsome, KeyMap.call]
    cases f.lookup name with
    | none => simp
    | some value =>
      simp only [reduceCtorEq, false_implies, true_and, Option.some.injEq, forall_eq']
      refine forall_congr' fun _ => ?_
      split
      · next hpad => exact iff_of_true rfl hpad
      · next hpad => exact iff_of_false (by simp) hpad

/-- The calls that meet no such limit reply as the map does, and no others. -/
theorem KeyMap.mapReply_iff (m : KeyMap) (op : KeystoreOp) :
    MapReply m.contents (m.call op).1 op ↔ m.Served op := by
  cases op with
  | init passphrase => exact iff_of_true (by cases m <;> rfl) trivial
  | get name outMax => exact m.get_reply name outMax
  | set name value iv =>
    cases m with
    | none =>
      have hroom : name ∈ KeyMap.contents none ∨ (KeyMap.contents none).keys.card < 16 :=
        .inr (by decide)
      refine iff_of_false (fun h => ?_) (fun h => h rfl)
      rw [MapReply, if_pos hroom] at h
      cases h
    | some f =>
      refine iff_of_true ?_ (Option.some_ne_none f)
      simp only [MapReply, KeyMap.call, KeyMap.contents, Option.getD_some]
      exact apply_ite Prod.fst _ _ _
  | delete name =>
    refine iff_of_true ?_ trivial
    cases m with
    | none => exact (if_neg Finmap.notMem_empty).symm
    | some f =>
      simp only [MapReply, KeyMap.call, KeyMap.contents, Option.getD_some]
      exact apply_ite Prod.fst _ _ _

/-- **The keystore is a finite map**: after any calls within the limits the active entries have
distinct names, as many as the map has, every further call replies as the map with the source's
limits does, and as the one without them exactly if it is `Served`. -/
theorem keystore_is_map (ops : List KeystoreOp) (h : ∀ op ∈ ops, op.Within) :
    let k := keystoreRun keystoreZero ops
    let m := KeyMap.run none ops
    keyedEntries.Distinct k.entries ∧
      (∀ f, m = some f → f.keys.card = k.entries.countP KeystoreEntry.active) ∧
      ∀ op, op.Within → (keystoreCall k op).1 = (m.call op).1 ∧
        (MapReply m.contents (keystoreCall k op).1 op ↔ m.Served op) := by
  have hrep : Represents (keystoreRun keystoreZero ops) (KeyMap.run none ops) :=
    represents_run represents_zero h
  refine ⟨hrep.distinct, fun f hf => ?_, fun op hop => ?_⟩
  · rw [hf] at hrep
    exact KeystoreRep.used hrep
  · have hreply := (represents_call hrep hop).1
    exact ⟨hreply, hreply ▸ KeyMap.mapReply_iff _ op⟩

/-- A value is stored and read into a buffer of 16 bytes. -/
theorem keystore_is_map_one :
    (keystoreCall (keystoreRun keystoreZero
      [.init [], .set [0x61] [0x62] (Vector.replicate 16 0)]) (.get [0x61] 16)).1 =
      ⟨0, 1, [0x62]⟩ := by
  have h := (keystore_is_map [.init [], .set [0x61] [0x62] (Vector.replicate 16 0)] (by
    intro op hop
    rcases List.mem_cons.mp hop with rfl | hop
    · trivial
    · obtain rfl := List.mem_singleton.mp hop
      exact ⟨by decide, by decide⟩)).2.2 (.get [0x61] 16) (by decide : 1 ≤ 31)
  rw [h.1]
  rfl

/-- Nothing is stored before the initialisation, and a value of nine bytes is not read into a buffer
of nine bytes. -/
theorem keystore_refuses :
    (keystoreCall keystoreZero (.set [0x61] [] (Vector.replicate 16 0))).1 = ⟨-1, 0, []⟩ ∧
      keystoreZero.entries.countP KeystoreEntry.active = 0 ∧
      (keystoreCall (keystoreRun keystoreZero
        [.init [], .set [0x61] (List.replicate 9 0x62) (Vector.replicate 16 0)])
        (.get [0x61] 9)).1 = ⟨-1, 0, []⟩ := by
  refine ⟨rfl, rfl, ?_⟩
  have hops : ∀ op ∈ [KeystoreOp.init [],
      .set [0x61] (List.replicate 9 0x62) (Vector.replicate 16 0)], op.Within := by
    intro op hop
    rcases List.mem_cons.mp hop with rfl | hop
    · trivial
    · obtain rfl := List.mem_singleton.mp hop
      exact ⟨by decide, by decide⟩
  have hget : (KeystoreOp.get [0x61] 9).Within := (by decide : 1 ≤ 31)
  rw [(represents_call (represents_run represents_zero hops) hget).1]
  rfl

end GenOS
