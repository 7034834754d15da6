import Mathlib.Data.Nat.Notation
import Mathlib.Order.Basic

/-!
# The archive

`fs/tar.c`. The memory is a byte for each 64-bit address; `ptr` is an address and wraps. A C string
that is passed is the list of its bytes without the terminator, and `NULL` for the archive is 0. The
walks take fuel, and `none` says that it ran out. `char` is signed.
-/

namespace GenOS

/-- The memory that the archive is in. -/
abbrev TarMem : Type := Nat → UInt8

namespace Tar

/-- `ptr + n`. -/
def advance (ptr n : Nat) : Nat := (ptr + n) % 18446744073709551616

/-- The value of a `char`. -/
def charInt (c : UInt8) : Int := if c.toNat < 128 then c.toNat else (c.toNat : Int) - 256

/-- The loop of `octal_to_int`. -/
def octalLoop (m : TarMem) (str : Nat) : (left i result : Nat) → Nat
  | 0, _, result => result
  | left + 1, i, result =>
    let c := m (advance str i)
    if c ≠ 0 ∧ c ≠ 32 then
      octalLoop m str left (i + 1)
        (((result * 8 : Nat) + (charInt c - 48)) % 18446744073709551616).toNat
    else result

/-- `octal_to_int`. -/
def octalToInt (m : TarMem) (str size : Nat) : Nat := octalLoop m str size 0 0

/-- `strcmp(s1, s2)` of `kernel/utils.c`, where `s1` is in memory. -/
def strcmp (m : TarMem) : (s1 : Nat) → List UInt8 → Int
  | s1, [] => (m s1).toNat
  | s1, c :: s2 =>
    if m s1 ≠ 0 ∧ m s1 = c then strcmp m (advance s1 1) s2 else (m s1).toNat - c.toNat

/-- `octal_to_int(header->size, 11)`. -/
def fileSize (m : TarMem) (ptr : Nat) : Nat := octalToInt m (advance ptr 124) 11

/-- `ptr += 512 + ((file_size + 511) / 512) * 512`. -/
def nextHeader (m : TarMem) (ptr : Nat) : Nat :=
  advance ptr (512 + (fileSize m ptr + 511) % 18446744073709551616 / 512 * 512)

/-- The loop of `tar_read_file`. -/
def readFileLoop (m : TarMem) (filename : List UInt8) : (fuel ptr : Nat) →
    Option (Option (Nat × Nat))
  | 0, _ => none
  | fuel + 1, ptr =>
    if m ptr = 0 then some none
    else if strcmp m ptr filename = 0 then some (some (advance ptr 512, fileSize m ptr))
    else readFileLoop m filename fuel (nextHeader m ptr)

/-- `tar_read_file`: the address of the data, and the size. -/
def tarReadFile (m : TarMem) (archive fuel : Nat) (filename : List UInt8) :
    Option (Option (Nat × Nat)) :=
  if archive = 0 then some none else readFileLoop m filename fuel archive

/-- The loop of `tar_list_files`. -/
def listFilesLoop (m : TarMem) : (fuel ptr : Nat) → Option (List (Nat × Nat))
  | 0, _ => none
  | fuel + 1, ptr =>
    if m ptr = 0 then some []
    else (listFilesLoop m fuel (nextHeader m ptr)).map ((ptr, fileSize m ptr) :: ·)

/-- `tar_list_files`: the arguments of the calls of `callback`. -/
def tarListFiles (m : TarMem) (archive fuel : Nat) : Option (List (Nat × Nat)) :=
  if archive = 0 then some [] else listFilesLoop m fuel archive

/-- The loop of `tar_get_entry` that copies the name. -/
def copyName (m : TarMem) (ptr : Nat) : (left i : Nat) → List UInt8
  | 0, _ => []
  | left + 1, i =>
    if m (advance ptr i) ≠ 0 then m (advance ptr i) :: copyName m ptr left (i + 1) else []

/-- The loop of `tar_get_entry`. -/
def getEntryLoop (m : TarMem) (index : Int) :
    (fuel ptr : Nat) → (current : Int) → Option (Option (List UInt8 × Nat))
  | 0, _, _ => none
  | fuel + 1, ptr, current =>
    if m ptr = 0 then some none
    else if current = index then some (some (copyName m ptr 99 0, fileSize m ptr))
    else getEntryLoop m index fuel (nextHeader m ptr) ((current + 1).bmod 4294967296)

/-- `tar_get_entry`: the name and the size that it stores. -/
def tarGetEntry (m : TarMem) (archive fuel : Nat) (index : Int) :
    Option (Option (List UInt8 × Nat)) :=
  if archive = 0 then some none else getEntryLoop m index fuel archive 0

end Tar

end GenOS
