import Mathlib.Data.Nat.Find
import GenOS.Fs.TarWalk

/-!
# Well-formed archives

What an archive in memory holds, as a list of entries, and what its lookup is to find. The walks of
`fs/tar.c` agree with it as long as every name leaves room for a terminator in its field: the
lookup compares C strings, and the enumeration copies 99 characters.
-/

namespace GenOS.Tar

/-- A file of an archive, with the limits of the fields of its header. -/
structure TarEntry where
  /-- The bytes of the name, without padding. -/
  name : List UInt8
  size : Nat
  name_ne_nil : name ≠ []
  name_zero : 0 ∉ name
  name_le : name.length ≤ 100
  size_lt : size < 8 ^ 11

/-- The header and the data, in blocks. -/
def TarEntry.span (e : TarEntry) : Nat := 512 + (e.size + 511) / 512 * 512

/-- The octal digit that `k` digits follow. -/
def octalDigit (n k : Nat) : UInt8 := UInt8.ofNat (48 + n / 8 ^ k % 8)

/-- The header of an entry. The fields that are not read may hold anything, but a mode is there. -/
structure HeaderAt (m : TarMem) (p : Nat) (e : TarEntry) : Prop where
  filename : ∀ i < 100, m (p + i) = e.name.getD i 0
  mode : m (p + 100) ≠ 0
  size : ∀ i < 11, m (p + 124 + i) = octalDigit e.size (10 - i)

/-- The archive at an address. -/
def Archive (m : TarMem) : (p : Nat) → List TarEntry → Prop
  | p, [] => m p = 0
  | p, e :: es => HeaderAt m p e ∧ p + e.span < 18446744073709551616 ∧ Archive m (p + e.span) es

/-- The addresses of the headers. -/
def headers : (p : Nat) → List TarEntry → List Nat
  | _, [] => []
  | p, e :: es => p :: headers (p + e.span) es

/-- Where the data of the first entry with a name is, and its size. -/
def lookup : (p : Nat) → List TarEntry → (name : List UInt8) → Option (Nat × Nat)
  | _, [], _ => none
  | p, e :: es, name => if e.name = name then some (p + 512, e.size) else lookup
      (p + e.span) es name

variable {m : TarMem} {archive p q fuel : Nat} {e : TarEntry} {es : List TarEntry}
  {name s t : List UInt8}

theorem advance_of_lt {n : Nat} (h : p + n < 18446744073709551616) : advance p n = p + n :=
  Nat.mod_eq_of_lt h

theorem advance_advance (p a b : Nat) : advance (advance p a) b = advance p (a + b) := by
  unfold advance
  omega

/-! ## The size -/

theorem toNat_octalDigit (n k : Nat) : (octalDigit n k).toNat = 48 + n / 8 ^ k % 8 := by
  have hlt : n / 8 ^ k % 8 < 8 := Nat.mod_lt _ (by decide)
  exact Nat.mod_eq_of_lt (by omega)

theorem charInt_octalDigit (n k : Nat) : charInt (octalDigit n k) = 48 + (n / 8 ^ k % 8 : Nat) := by
  rw [charInt, toNat_octalDigit, if_pos (by omega)]
  push_cast
  rfl

theorem octalDigit_ne (n k : Nat) : octalDigit n k ≠ 0 ∧ octalDigit n k ≠ 32 := by
  have h := toNat_octalDigit n k
  constructor
  · intro hc
    rw [hc, UInt8.toNat_zero] at h
    omega
  · intro hc
    rw [hc, show (32 : UInt8).toNat = 32 from rfl] at h
    omega

/-- What is read so far is the number without its last digits. -/
theorem octalLoop_digits (str n : Nat) (hn : n < 8 ^ 11)
    (hd : ∀ i < 11, m (advance str i) = octalDigit n (10 - i)) {left i : Nat} (hi : i + left = 11) :
    octalLoop m str left i (n / 8 ^ left) = n := by
  induction left generalizing i with
  | zero => rw [octalLoop, pow_zero, Nat.div_one]
  | succ left ih =>
    have hdig : m (advance str i) = octalDigit n left := by
      rw [hd i (by omega), show 10 - i = left by omega]
    have hdiv : n / 8 ^ left = n / 8 ^ (left + 1) * 8 + n / 8 ^ left % 8 := by
      rw [pow_succ, ← Nat.div_div_eq_div_mul]
      omega
    have hle : n / 8 ^ left ≤ n := Nat.div_le_self _ _
    rw [octalLoop, hdig, if_pos (octalDigit_ne n left), charInt_octalDigit,
      show ((n / 8 ^ (left + 1) * 8 : Nat) : Int) + (48 + (n / 8 ^ left % 8 : Nat) - 48)
        = (n / 8 ^ left : Nat) by omega,
      Int.emod_eq_of_lt (by omega) (by omega), Int.toNat_natCast]
    exact ih (by omega)

theorem HeaderAt.fileSize (h : HeaderAt m p e) (hp : p + 512 < 18446744073709551616) :
    fileSize m p = e.size := by
  have hd : ∀ i < 11, m (advance (advance p 124) i) = octalDigit e.size (10 - i) := by
    intro i hi
    rw [advance_advance, advance_of_lt (by omega), ← Nat.add_assoc]
    exact h.size i hi
  have h0 := octalLoop_digits (m := m) (advance p 124) e.size e.size_lt hd (Nat.zero_add 11)
  rwa [Nat.div_eq_of_lt e.size_lt] at h0

theorem TarEntry.span_pos (e : TarEntry) : 512 ≤ e.span := Nat.le_add_right _ _

theorem HeaderAt.nextHeader (h : HeaderAt m p e) (hp : p + e.span < 18446744073709551616) :
    nextHeader m p = p + e.span := by
  have hs := e.size_lt
  have := e.span_pos
  rw [Tar.nextHeader, h.fileSize (by omega), Nat.mod_eq_of_lt (by omega)]
  exact advance_of_lt hp

/-! ## The name -/

/-- The C string at an address. -/
def StringAt (m : TarMem) : (p : Nat) → List UInt8 → Prop
  | p, [] => m p = 0
  | p, c :: s => m p = c ∧ StringAt m (advance p 1) s

theorem strcmp_eq_zero (h : 0 ∉ s) : strcmp m p s = 0 ↔ StringAt m p s := by
  induction s generalizing p with
  | nil =>
    rw [strcmp, StringAt, Nat.cast_eq_zero, ← UInt8.toNat_zero]
    exact UInt8.toNat_inj
  | cons c s ih =>
    have hc : c ≠ 0 := fun hc => h (hc ▸ List.mem_cons_self)
    rw [strcmp, StringAt]
    by_cases hm : m p = c
    · rw [if_pos ⟨hm ▸ hc, hm⟩, and_iff_right hm]
      exact ih (fun h0 => h (List.mem_cons_of_mem c h0))
    · rw [if_neg (fun hp => hm hp.2), sub_eq_zero, Nat.cast_inj, UInt8.toNat_inj]
      exact iff_of_false hm (fun hp => hm hp.1)

theorem StringAt.unique (hs : StringAt m p s) (ht : StringAt m p t) (hs0 : 0 ∉ s) (ht0 : 0 ∉ t) :
    s = t := by
  induction s generalizing p t with
  | nil =>
    cases t with
    | nil => rfl
    | cons d t => exact absurd (List.mem_cons.mpr (.inl (hs.symm.trans ht.1))) ht0
  | cons c s ih =>
    cases t with
    | nil => exact absurd (List.mem_cons.mpr (.inl (ht.symm.trans hs.1))) hs0
    | cons d t =>
      rw [← hs.1, ← ht.1, ih hs.2 ht.2 (fun h0 => hs0 (List.mem_cons_of_mem c h0))
        (fun h0 => ht0 (List.mem_cons_of_mem d h0))]

theorem StringAt.copyName {i left : Nat} (h : StringAt m (advance p i) s) (h0 : 0 ∉ s)
    (hl : s.length ≤ left) : copyName m p left i = s := by
  induction s generalizing i left with
  | nil =>
    cases left with
    | zero => rfl
    | succ left => exact if_neg (not_not_intro h)
  | cons c s ih =>
    obtain ⟨left, rfl⟩ := Nat.exists_eq_succ_of_ne_zero (Nat.ne_of_gt (Nat.zero_lt_of_lt hl))
    have hc : c ≠ 0 := fun hc => h0 (hc ▸ List.mem_cons_self)
    have htail := h.2
    rw [advance_advance] at htail
    rw [Tar.copyName, h.1, if_pos hc,
      ih htail (fun hm => h0 (List.mem_cons_of_mem c hm)) (Nat.le_of_succ_le_succ hl)]

/-- A padded field holds a C string if the padding is not empty. -/
theorem stringAt_of_padded {n : Nat} (h : ∀ i < n, m (p + i) = s.getD i 0) (hs : s.length < n)
    (hp : p + n ≤ 18446744073709551616) : StringAt m p s := by
  induction s generalizing p n with
  | nil => exact h 0 hs
  | cons c s ih =>
    rw [List.length_cons] at hs
    refine ⟨h 0 (by omega), ?_⟩
    rw [advance_of_lt (by omega)]
    refine ih (n := n - 1) (fun i hi => ?_) (by omega) (by omega)
    rw [Nat.add_assoc, Nat.add_comm 1 i]
    exact h (i + 1) (by omega)

/-- There is a C string before every zero. -/
theorem exists_stringAt {k : Nat} (h : m (p + k) = 0) (hk : p + k < 18446744073709551616) :
    ∃ s, 0 ∉ s ∧ StringAt m p s ∧ m (p + s.length) = 0 := by
  induction k generalizing p with
  | zero => exact ⟨[], List.not_mem_nil, h, h⟩
  | succ k ih =>
    by_cases hp : m p = 0
    · exact ⟨[], List.not_mem_nil, hp, hp⟩
    · have hadd : p + 1 + k = p + (k + 1) := by omega
      obtain ⟨s, hs0, hs, hend⟩ := ih (p := p + 1) (hadd ▸ h) (hadd ▸ hk)
      refine ⟨m p :: s, ?_, ⟨rfl, ?_⟩, ?_⟩
      · exact fun h0 => (List.mem_cons.mp h0).elim (fun he => hp he.symm) hs0
      · rwa [advance_of_lt (by omega)]
      · rwa [List.length_cons, show p + (s.length + 1) = p + 1 + s.length by omega]

theorem HeaderAt.stringAt (h : HeaderAt m p e) (hp : p + 512 < 18446744073709551616)
    (hn : e.name.length ≤ 99) : StringAt m p e.name :=
  stringAt_of_padded h.filename (by omega) (by omega)

theorem HeaderAt.ne_zero (h : HeaderAt m p e) {i : Nat} (hi : i < e.name.length) :
    m (p + i) ≠ 0 := by
  have hle := e.name_le
  rw [h.filename i (by omega), List.getD_eq_getElem?_getD, List.getElem?_eq_getElem hi,
    Option.getD_some]
  exact fun h0 => e.name_zero (h0 ▸ List.getElem_mem hi)

theorem HeaderAt.head_ne_zero (h : HeaderAt m p e) : m p ≠ 0 :=
  h.ne_zero (List.length_pos_iff.mpr e.name_ne_nil)

/-- A name that fills its field runs on into the mode. -/
theorem HeaderAt.length_lt_of_full (h : HeaderAt m p e) (hn : 99 < e.name.length)
    (hs : m (p + s.length) = 0) : 100 < s.length := by
  by_contra hlt
  rcases Nat.lt_or_ge s.length 100 with hlt' | hge
  · exact h.ne_zero (by omega) hs
  · obtain hl : s.length = 100 := by omega
    exact h.mode (hl ▸ hs)

/-! ## The walk -/

theorem Archive.trail (h : Archive m p es) : Trail m p (headers p es) := by
  induction es generalizing p with
  | nil => exact .stop h
  | cons e es ih =>
    obtain ⟨hh, hp, ht⟩ := h
    refine .next hh.head_ne_zero ?_
    rw [hh.nextHeader hp]
    exact ih ht

theorem length_headers (p : Nat) (es : List TarEntry) : (headers p es).length = es.length := by
  induction es generalizing p with
  | nil => rfl
  | cons e es ih => rw [headers, List.length_cons, List.length_cons, ih]

theorem HeaderAt.entryAt (h : HeaderAt m p e) (hp : p + 512 < 18446744073709551616)
    (hn : e.name.length ≤ 99) : entryAt m p = (e.name, e.size) := by
  have hs : StringAt m (advance p 0) e.name := by
    rw [advance_of_lt (by omega)]
    exact h.stringAt hp hn
  rw [Tar.entryAt, hs.copyName e.name_zero hn, h.fileSize hp]

theorem Archive.map_entryAt (h : Archive m p es) (hn : ∀ e ∈ es, e.name.length ≤ 99) :
    (headers p es).map (entryAt m) = es.map fun e => (e.name, e.size) := by
  induction es generalizing p with
  | nil => rfl
  | cons e es ih =>
    obtain ⟨hh, hp, ht⟩ := h
    have := e.span_pos
    rw [headers, List.map_cons, List.map_cons, hh.entryAt (by omega) (hn e List.mem_cons_self),
      ih ht (fun e' he => hn e' (List.mem_cons_of_mem e he))]

theorem Archive.find_eq_lookup (h : Archive m p es) (hn : ∀ e ∈ es, e.name.length ≤ 99)
    (h0 : 0 ∉ name) :
    ((headers p es).find? fun q => decide (strcmp m q name = 0)).map
      (fun q => (advance q 512, fileSize m q)) = lookup p es name := by
  induction es generalizing p with
  | nil => rfl
  | cons e es ih =>
    obtain ⟨hh, hp, ht⟩ := h
    have hspan := e.span_pos
    have hs := hh.stringAt (by omega) (hn e List.mem_cons_self)
    have hiff : strcmp m p name = 0 ↔ e.name = name :=
      ⟨fun hc => hs.unique ((strcmp_eq_zero h0).mp hc) e.name_zero h0,
        fun hc => (strcmp_eq_zero h0).mpr (hc ▸ hs)⟩
    rw [headers, lookup]
    by_cases he : e.name = name
    · rw [List.find?_cons_of_pos (by simpa using hiff.mpr he), if_pos he, Option.map_some,
        hh.fileSize (by omega), advance_of_lt (by omega)]
    · rw [List.find?_cons_of_neg (by simpa using fun hc => he (hiff.mp hc)), if_neg he]
      exact ih ht (fun e' he' => hn e' (List.mem_cons_of_mem e he'))

theorem exists_lookup (p : Nat) (he : e ∈ es) : ∃ r, lookup p es e.name = some r := by
  induction es generalizing p with
  | nil => exact absurd he List.not_mem_nil
  | cons e' es ih =>
    rw [lookup]
    split
    · exact ⟨_, rfl⟩
    · next hne =>
      rcases List.mem_cons.mp he with rfl | he'
      · exact absurd rfl hne
      · exact ih _ he'

theorem lookup_eq_none (p : Nat) (h : ∀ e ∈ es, e.name ≠ name) : lookup p es name = none := by
  induction es generalizing p with
  | nil => rfl
  | cons e es ih =>
    rw [lookup, if_neg (h e List.mem_cons_self)]
    exact ih _ (fun e' he => h e' (List.mem_cons_of_mem e he))

theorem Archive.stop (h : Archive m p es) (hp : p < 18446744073709551616) :
    ∃ k, m (p + k) = 0 ∧ p + k < 18446744073709551616 := by
  induction es generalizing p with
  | nil => exact ⟨0, h, hp⟩
  | cons e es ih =>
    obtain ⟨k, hk, hlt⟩ := ih h.2.2 h.2.1
    rw [Nat.add_assoc] at hk hlt
    exact ⟨e.span + k, hk, hlt⟩

theorem Archive.exists_header (h : Archive m p es) (he : e ∈ es) :
    ∃ q ∈ headers p es, HeaderAt m q e ∧ ∃ k, m (q + k) = 0 ∧ q + k < 18446744073709551616 := by
  induction es generalizing p with
  | nil => exact absurd he List.not_mem_nil
  | cons e' es ih =>
    have hstop := h.stop (Nat.lt_of_le_of_lt (Nat.le_add_right _ _) h.2.1)
    obtain ⟨hh, hp, ht⟩ := h
    rcases List.mem_cons.mp he with rfl | he'
    · exact ⟨p, List.mem_cons_self, hh, hstop⟩
    · obtain ⟨q, hq, hr⟩ := ih ht he'
      exact ⟨q, List.mem_cons_of_mem p hq, hr⟩

/-! ## Lookup and enumeration -/

theorem Archive.tarGetEntry (h : Archive m archive es) (ha : archive ≠ 0) (hf : es.length < fuel)
    (hn : ∀ e ∈ es, e.name.length ≤ 99) {i : Nat} (hi : i < 2147483648) :
    tarGetEntry m archive fuel i = some (es[i]?.map fun e => (e.name, e.size)) := by
  have hlen := length_headers archive es
  have hf' : (headers archive es).length < fuel := by omega
  have hloop := h.trail.getEntryLoop hf' (i := i) (by omega) 0
  rw [Nat.zero_add, counter_of_lt hi, counter_of_lt (by decide), ← List.getElem?_map,
    h.map_entryAt hn, List.getElem?_map] at hloop
  rw [Tar.tarGetEntry, if_neg ha]
  exact hloop

theorem Archive.tarReadFile (h : Archive m archive es) (ha : archive ≠ 0) (hf : es.length < fuel)
    (hn : ∀ e ∈ es, e.name.length ≤ 99) (h0 : 0 ∉ name) :
    tarReadFile m archive fuel name = some (lookup archive es name) := by
  have hlen := length_headers archive es
  rw [Tar.tarReadFile, if_neg ha, h.trail.readFileLoop (by omega), h.find_eq_lookup hn h0]

/-- `tar_get_entry` gives the entries, and `tar_read_file` finds what it gives and nothing else. -/
structure Agrees (m : TarMem) (archive fuel : Nat) (es : List TarEntry) : Prop where
  entry : ∀ (i : Nat) (hi : i < es.length), i < 2147483648 →
    tarGetEntry m archive fuel i = some (some (es[i].name, es[i].size))
  no_entry : ∀ i : Nat, es.length ≤ i → i < 2147483648 → tarGetEntry m archive fuel i = some none
  found : ∀ i : Nat, i < 2147483648 → ∀ name size,
    tarGetEntry m archive fuel i = some (some (name, size)) →
      ∃ r, lookup archive es name = some r ∧ tarReadFile m archive fuel name = some (some r)
  absent : ∀ name, 0 ∉ name → (∀ e ∈ es, e.name ≠ name) →
    tarReadFile m archive fuel name = some none

theorem Archive.agrees (h : Archive m archive es) (ha : archive ≠ 0) (hf : es.length < fuel)
    (hn : ∀ e ∈ es, e.name.length ≤ 99) : Agrees m archive fuel es where
  entry i hi hlt := by
    rw [h.tarGetEntry ha hf hn hlt, List.getElem?_eq_getElem hi, Option.map_some]
  no_entry i hi hlt := by
    rw [h.tarGetEntry ha hf hn hlt, List.getElem?_eq_none hi, Option.map_none]
  found i hlt name size hi := by
    rw [h.tarGetEntry ha hf hn hlt, Option.some.injEq] at hi
    obtain ⟨e, he, hes⟩ := Option.map_eq_some_iff.mp hi
    obtain ⟨rfl, rfl⟩ := Prod.mk.inj hes
    obtain ⟨r, hr⟩ := exists_lookup archive (List.mem_of_getElem? he)
    exact ⟨r, hr, by rw [h.tarReadFile ha hf hn e.name_zero, hr]⟩
  absent name h0 hne := by
    rw [h.tarReadFile ha hf hn h0, lookup_eq_none archive hne]

/-- The lookup finds the name of a full field with the mode behind it, which no file has. -/
theorem Agrees.length_le (hagr : Agrees m archive fuel es) (h : Archive m archive es)
    (ha : archive ≠ 0) (hf : es.length < fuel) (he : e ∈ es) : e.name.length ≤ 99 := by
  by_contra hlong
  obtain ⟨q, hq, hh, k, hk, hlt⟩ := h.exists_header he
  obtain ⟨s, hs0, hs, hend⟩ := exists_stringAt hk hlt
  have hlen := hh.length_lt_of_full (by omega) hend
  have hnone := hagr.absent s hs0 (fun e' _ hc => by
    have := e'.name_le
    rw [hc] at this
    omega)
  rw [Tar.tarReadFile, if_neg ha, h.trail.readFileLoop (by rw [length_headers]; exact hf),
    Option.some.injEq, Option.map_eq_none_iff, List.find?_eq_none] at hnone
  exact hnone q hq (decide_eq_true ((strcmp_eq_zero hs0).mpr hs))

/-- The lookup agrees with the enumeration exactly when no name fills its field. -/
theorem tar_lookup_exact (h : Archive m archive es) (ha : archive ≠ 0) (hf : es.length < fuel) :
    Agrees m archive fuel es ↔ ∀ e ∈ es, e.name.length ≤ 99 :=
  ⟨fun hagr _ he => hagr.length_le h ha hf he, h.agrees ha hf⟩

/-- A header as `tar` writes it, up to the version. -/
def tarHeader (name size chksum : List UInt8) : List UInt8 :=
  name ++ List.replicate (100 - name.length) 0
    ++ [48, 48, 48, 48, 54, 52, 52, 0, 48, 48, 48, 48, 48, 48, 48, 0, 48, 48, 48, 48, 48, 48, 48, 0]
    ++ size ++ [0] ++ List.replicate 11 48 ++ [0] ++ chksum ++ [48]
    ++ List.replicate 100 0 ++ [117, 115, 116, 97, 114, 0, 48, 48]

/-- An archive at 4096 that holds one empty file. -/
def emptyFile (name chksum : List UInt8) : TarMem := fun p =>
  (tarHeader name (List.replicate 11 48) chksum).getD (p - 4096) 0

/-- The file `a`. -/
def shortName : TarEntry :=
  ⟨[97], 0, by decide, by decide, by decide, by decide⟩

/-- The file whose name is 100 times `a`. -/
def fullName : TarEntry :=
  ⟨List.replicate 100 97, 0, by decide, by decide, by decide, by decide⟩

/-- The archive of `shortName`. -/
def shortFile : TarMem := emptyFile shortName.name [48, 48, 54, 48, 55, 54, 0, 32]

/-- The archive of `fullName`. -/
def fullFile : TarMem := emptyFile fullName.name [48, 51, 48, 55, 48, 49, 0, 32]

theorem archive_shortFile : Archive shortFile 4096 [shortName] :=
  ⟨⟨by decide, by decide, by decide⟩, by decide,
    show shortFile (4096 + shortName.span) = 0 from rfl⟩

theorem archive_fullFile : Archive fullFile 4096 [fullName] :=
  ⟨⟨by decide +kernel, by decide +kernel, by decide +kernel⟩, by decide +kernel,
    show fullFile (4096 + fullName.span) = 0 by decide +kernel⟩

/-- The files `a`, of three bytes, and `b`, of two. -/
def shortNames : List TarEntry := [
  ⟨[97], 3, by decide, by decide, by decide, by decide⟩,
  ⟨[98], 2, by decide, by decide, by decide, by decide⟩]

/-- The archive of `shortNames`, in blocks. -/
def shortFiles : TarMem := fun p =>
  let header (name digit : UInt8) : List UInt8 :=
    tarHeader [name] (List.replicate 10 48 ++ [digit]) [48, 48, 54, 49, 48, 49, 0, 32]
  let block := [header 97 51, [71, 101, 110], header 98 50, [79, 83]].getD ((p - 4096) / 512) []
  block.getD ((p - 4096) % 512) 0

theorem archive_shortFiles : Archive shortFiles 4096 shortNames :=
  ⟨⟨by decide, by decide, by decide⟩, by decide, ⟨by decide, by decide, by decide⟩, by decide,
    show shortFiles (4096 + 1024 + 1024) = 0 from rfl⟩

theorem tar_lookup_exact_short : Agrees shortFiles 4096 3 shortNames :=
  (tar_lookup_exact archive_shortFiles (by decide) (by decide)).mpr (by decide)

/-- The listed name has 99 characters, and neither it nor the name in the archive is found. -/
theorem tar_lookup_full :
    Archive fullFile 4096 [fullName] ∧
      tarGetEntry fullFile 4096 2 0 = some (some (List.replicate 99 97, 0)) ∧
      tarReadFile fullFile 4096 2 (List.replicate 99 97) = some none ∧
      tarReadFile fullFile 4096 2 fullName.name = some none ∧
      ¬ Agrees fullFile 4096 2 [fullName] := by
  have hget : tarGetEntry fullFile 4096 2 0 = some (some (List.replicate 99 97, 0)) := by
    decide +kernel
  refine ⟨archive_fullFile, hget, by decide +kernel, by decide +kernel, fun h => ?_⟩
  have hentry := h.entry 0 (by decide) (by decide)
  rw [Nat.cast_zero, hget] at hentry
  exact absurd hentry (by decide)

end GenOS.Tar
