import Mathlib.Data.BitVec
import GenOS.Lib.Bytes
import GenOS.Lib.Checked

/-!
# Validation of an ELF image

`fs/elf_validate.c`, over checked arithmetic. The image is a list of bytes at an address; a struct
is decoded from its bytes, with its fields as numbers. A function that returns 0 returns `none`.
-/

namespace GenOS

open Checked

/-! ## The file format -/

/-- `ELF_PAGE_SIZE`. -/
abbrev elfPageSize : Nat := 4096

/-- `ELF_USER_END`. -/
abbrev elfUserEnd : Nat := 0x800000000000

/-- `ELF_SECTION_SIZE`. -/
abbrev elfSectionSize : Nat := 64

/-- `ELF_MAX_PROGRAM_HEADERS`. -/
abbrev elfMaxProgramHeaders : Nat := 128

/-- `~(ELF_PAGE_SIZE - 1)`. -/
abbrev elfPageMask : Nat := 0xfffffffffffff000

abbrev elfMagic : Nat := 0x464C457F
abbrev elfPtLoad : Nat := 1
abbrev elfPtGnuStack : Nat := 0x6474e551
abbrev elfPfX : Nat := 1
abbrev elfPfW : Nat := 2
abbrev elfPfR : Nat := 4

/-- `elf_header_t`. -/
structure ElfHeader where
  magic : Nat
  elf : Fin 12 → Nat
  type : Nat
  machine : Nat
  version : Nat
  entry : Nat
  phoff : Nat
  shoff : Nat
  flags : Nat
  ehsize : Nat
  phentsize : Nat
  phnum : Nat
  shentsize : Nat
  shnum : Nat
  shstrndx : Nat

/-- `elf_phdr_t`. -/
structure ElfPhdr where
  type : Nat
  flags : Nat
  offset : Nat
  vaddr : Nat
  paddr : Nat
  filesz : Nat
  memsz : Nat
  align : Nat
  deriving DecidableEq

/-- The bytes as a memory from 0 on. -/
def bytesMem (l : List (BitVec 8)) : Bytes.Mem := fun i => l.getD i 0

/-- The 64 bytes of a header. -/
def ElfHeader.decode (l : List (BitVec 8)) : ElfHeader where
  magic := Bytes.load (bytesMem l) 0 4
  elf := fun i => Bytes.load (bytesMem l) (4 + i) 1
  type := Bytes.load (bytesMem l) 16 2
  machine := Bytes.load (bytesMem l) 18 2
  version := Bytes.load (bytesMem l) 20 4
  entry := Bytes.load (bytesMem l) 24 8
  phoff := Bytes.load (bytesMem l) 32 8
  shoff := Bytes.load (bytesMem l) 40 8
  flags := Bytes.load (bytesMem l) 48 4
  ehsize := Bytes.load (bytesMem l) 52 2
  phentsize := Bytes.load (bytesMem l) 54 2
  phnum := Bytes.load (bytesMem l) 56 2
  shentsize := Bytes.load (bytesMem l) 58 2
  shnum := Bytes.load (bytesMem l) 60 2
  shstrndx := Bytes.load (bytesMem l) 62 2

/-- The 56 bytes of a program header. -/
def ElfPhdr.decode (l : List (BitVec 8)) : ElfPhdr where
  type := Bytes.load (bytesMem l) 0 4
  flags := Bytes.load (bytesMem l) 4 4
  offset := Bytes.load (bytesMem l) 8 8
  vaddr := Bytes.load (bytesMem l) 16 8
  paddr := Bytes.load (bytesMem l) 24 8
  filesz := Bytes.load (bytesMem l) 32 8
  memsz := Bytes.load (bytesMem l) 40 8
  align := Bytes.load (bytesMem l) 48 8

/-- `elf_image_info_t`. -/
structure ElfImageInfo where
  header : ElfHeader
  pageCount : Nat

/-! ## Checks -/

/-- `file_range`. -/
def fileRange (size offset length : Nat) : Except Fault Bool :=
  if offset ≤ size then do
    let room ← sub size offset
    return decide (length ≤ room)
  else return false

/-- `section_table_valid`. -/
def sectionTableValid (h : ElfHeader) (size : Nat) : Except Fault Bool :=
  if h.shoff = 0 then
    return decide (h.shnum = 0 ∧ h.shstrndx = 0 ∧
      (h.shentsize = 0 ∨ h.shentsize = elfSectionSize))
  else if 64 ≤ h.shoff ∧ h.shnum ≠ 0 ∧ h.shnum < 0xff00 ∧ h.shentsize = elfSectionSize ∧
      h.shstrndx < h.shnum then do
    let length ← mul 64 h.shnum elfSectionSize
    fileRange size h.shoff length
  else return false

/-- The first checks of `elf_validate` on the header. -/
def headerValid (h : ElfHeader) (size : Nat) : Except Fault Bool :=
  if h.magic ≠ elfMagic ∨ h.elf 0 ≠ 2 ∨ h.elf 1 ≠ 1 ∨ h.elf 2 ≠ 1 ∨
      (h.elf 3 ≠ 0 ∧ h.elf 3 ≠ 3) ∨ h.elf 4 ≠ 0 ∨
      h.type ≠ 2 ∨ h.machine ≠ 62 ∨ h.version ≠ 1 ∨ h.flags ≠ 0 ∨
      h.ehsize ≠ 64 ∨ h.phentsize ≠ 56 ∨
      h.phnum = 0 ∨ elfMaxProgramHeaders < h.phnum ∨ h.phoff < 64 then return false
  else do
    let length ← mul 64 h.phnum 56
    let inFile ← fileRange size h.phoff length
    if inFile then
      let sections ← sectionTableValid h size
      return sections && decide (elfPageSize ≤ h.entry) && decide (h.entry < elfUserEnd)
    else return false

/-! ## Segments -/

/-- The variables of the loop. -/
structure ElfScan where
  pages : Nat := 0
  previousEnd : Nat := 0
  entryFound : Bool := false

/-- The types of the `switch` but `PT_GNU_STACK`. -/
def elfTypes : List Nat := [elfPtLoad, 4, 6, 0x6474e550, 0x6474e553]

/-- The check of `p.align`: whether it fails. -/
def alignFails (p : ElfPhdr) : Except Fault Bool :=
  if 1 < p.align then do
    let mask ← sub p.align 1
    return decide (p.align &&& mask ≠ 0) || decide (p.vaddr &&& mask ≠ p.offset &&& mask)
  else return false

/-- `(p.vaddr + p.memsz + ELF_PAGE_SIZE - 1) & ~(ELF_PAGE_SIZE - 1)`. -/
def segmentEnd (p : ElfPhdr) : Except Fault Nat := do
  let last ← add 64 p.vaddr p.memsz
  let next ← add 64 last elfPageSize
  let up ← sub next 1
  return up &&& elfPageMask

/-- The entry point is in the bytes of the file. -/
def entryIn (entry : Nat) (p : ElfPhdr) : Except Fault Bool :=
  if p.flags &&& elfPfX ≠ 0 ∧ p.vaddr ≤ entry then do
    let off ← sub entry p.vaddr
    return decide (off < p.filesz)
  else return false

/-- The part of a turn that counts the pages of a segment. -/
def countPages (maxPages entry : Nat) (p : ElfPhdr) (s : ElfScan) :
    Except Fault (Option ElfScan) := do
  let first := p.vaddr &&& elfPageMask
  let stop ← segmentEnd p
  if first < s.previousEnd then return none
  else
    let bytes ← sub stop first
    let count := bytes / elfPageSize
    let room ← sub maxPages s.pages
    if room < count then return none
    else
      let narrowed ← narrow 32 count
      let pages ← add 32 s.pages narrowed
      let found ← entryIn entry p
      return some { pages := pages, previousEnd := stop, entryFound := s.entryFound || found }

/-- The part of a turn for a `PT_LOAD` that is not empty. -/
def loadSegment (maxPages entry : Nat) (p : ElfPhdr) (s : ElfScan) :
    Except Fault (Option ElfScan) :=
  if p.flags &&& elfPfR = 0 ∨ p.vaddr < elfPageSize ∨ elfUserEnd ≤ p.vaddr then return none
  else do
    let room ← sub elfUserEnd p.vaddr
    if room < p.memsz then return none
    else if p.vaddr &&& (elfPageSize - 1) ≠ p.offset &&& (elfPageSize - 1) then return none
    else
      let fails ← alignFails p
      if fails then return none else countPages maxPages entry p s

/-- A turn of the loop; `none` returns 0. -/
def elfSegment (size maxPages entry : Nat) (p : ElfPhdr) (s : ElfScan) :
    Except Fault (Option ElfScan) :=
  if p.type = 0 then return some s
  else if p.type = elfPtGnuStack ∧ p.flags &&& elfPfX ≠ 0 then return none
  else if p.type ≠ elfPtGnuStack ∧ p.type ∉ elfTypes then return none
  else do
    let inFile ← fileRange size p.offset p.filesz
    if !inFile then return none
    else if p.type ≠ elfPtLoad then return some s
    else if p.memsz < p.filesz ∨ p.flags &&& 0xfffffff8 ≠ 0 ∨
        p.flags &&& (elfPfW ||| elfPfX) = elfPfW ||| elfPfX then return none
    else if p.memsz = 0 then return some s
    else loadSegment maxPages entry p s

/-- The program header `i`. -/
def readPhdr (binary : Nat) (buf : List (BitVec 8)) (phoff i : Nat) : Except Fault ElfPhdr := do
  let table ← add 64 binary phoff
  let off ← mul 64 i 56
  let a ← add 64 table off
  let bytes ← copyOut binary buf a 56
  return ElfPhdr.decode bytes

/-- The loop from `i` on, for `n` more turns. -/
def elfLoop (binary : Nat) (buf : List (BitVec 8)) (maxPages : Nat) (h : ElfHeader) :
    (n i : Nat) → ElfScan → Except Fault (Option ElfScan)
  | 0, _, s => return some s
  | n + 1, i, s => do
    let p ← readPhdr binary buf h.phoff i
    match ← elfSegment buf.length maxPages h.entry p s with
    | none => return none
    | some s => elfLoop binary buf maxPages h n (i + 1) s

/-- `elf_validate`: what it returns, and `*info` after it. A null pointer `info` is `none`. -/
def elfValidate (binary : BitVec 64) (buf : List (BitVec 8)) (maxPages : BitVec 32)
    (info : Option ElfImageInfo) : Except Fault (Bool × Option ElfImageInfo) := do
  if binary = 0 ∨ buf.length < 64 then return (false, info)
  else
    let room ← sub 18446744073709551615 binary.toNat
    if room < buf.length then return (false, info)
    else
      let bytes ← copyOut binary.toNat buf binary.toNat 64
      let h := ElfHeader.decode bytes
      let valid ← headerValid h buf.length
      if !valid then return (false, info)
      else
        match ← elfLoop binary.toNat buf maxPages.toNat h h.phnum 0 {} with
        | none => return (false, info)
        | some s =>
          if s.entryFound then
            return (true, info.map fun _ => { header := h, pageCount := s.pages })
          else return (false, info)

end GenOS
