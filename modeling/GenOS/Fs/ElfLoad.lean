import GenOS.Fs.ElfValidate
import GenOS.Lib.WordBytes
import GenOS.Mm.UserMemory

/-!
# Loading an ELF image

`fs/elf.c`, over the checked arithmetic of the validation: `elf_load` repeats none of its checks.
The arrays `phys_pages` and `virtual_pages` with the counter `*page_count` are a list of records,
and a function that returns 0 returns `false`. The direct-map offset is left out, as in `Phys`.
-/

namespace GenOS

open Checked

/-- Write bytes into a frame, from byte `start` on. -/
def Phys.fillFrame (s : Phys) (frame start : Nat) (bytes : List (BitVec 8)) : Phys :=
  { s with mem := Cells.set s.mem frame (WordBytes.write (s.mem frame) start bytes) }

/-- `page_flags`. -/
def elfPageFlags (segment : ElfPhdr) : Word :=
  let flags := ptePresent ||| pteUser
  let flags := if segment.flags &&& elfPfW ≠ 0 then flags ||| pteWrite else flags
  if segment.flags &&& elfPfX = 0 then flags ||| pteNx else flags

/-- The file-backed bytes of the page at `pageVa`, and where in the page they start. -/
def elfFileBytes (binary : Nat) (buf : List (BitVec 8)) (segment : ElfPhdr) (pageVa : Nat) :
    Except Fault (Nat × List (BitVec 8)) := do
  let copyStart := if pageVa < segment.vaddr then segment.vaddr else pageVa
  let pageEnd ← add 64 pageVa elfPageSize
  let fileEnd ← add 64 segment.vaddr segment.filesz
  let copyEnd := if fileEnd < pageEnd then fileEnd else pageEnd
  let start ← sub copyStart pageVa
  if copyStart < copyEnd then do
    let file ← add 64 binary segment.offset
    let skip ← sub copyStart segment.vaddr
    let src ← add 64 file skip
    let length ← sub copyEnd copyStart
    let bytes ← copyOut binary buf src length
    return (start, bytes)
  else return (start, [])

/-- A turn of the loop over the pages of a segment. -/
def elfLoadPage (binary : Nat) (buf : List (BitVec 8)) (pml4 : Nat) (segment : ElfPhdr)
    (pageVa : Nat) (s : Phys) (records : List PageRecord) :
    Except Fault (Bool × Phys × List PageRecord) :=
  let (phys, s) := s.allocFrame
  if phys = 0 then return (false, s, records)
  else do
    let records := records ++ [⟨phys, pageVa⟩]
    let (start, bytes) ← elfFileBytes binary buf segment pageVa
    let s := (s.zeroFrame phys).fillFrame phys start bytes
    let (ok, s) := s.vmmMapPageIn pml4 pageVa (BitVec.ofNat 64 phys) (elfPageFlags segment)
    return (ok, s, records)

/-- The loop over the pages of a segment, from `pageVa` on, for `n` more turns. Each turn has
checked that the address of the next page does not wrap. -/
def elfLoadPages (binary : Nat) (buf : List (BitVec 8)) (pml4 : Nat) (segment : ElfPhdr) :
    (n pageVa : Nat) → Phys → List PageRecord → Except Fault (Bool × Phys × List PageRecord)
  | 0, _, s, records => return (true, s, records)
  | n + 1, pageVa, s, records => do
    let (ok, s, records) ← elfLoadPage binary buf pml4 segment pageVa s records
    if ok then elfLoadPages binary buf pml4 segment n (pageVa + elfPageSize) s records
    else return (false, s, records)

/-- A turn of the loop over the program headers, for a `PT_LOAD`. -/
def elfLoadSegment (binary : Nat) (buf : List (BitVec 8)) (pml4 : Nat) (segment : ElfPhdr)
    (s : Phys) (records : List PageRecord) : Except Fault (Bool × Phys × List PageRecord) := do
  let firstPage := segment.vaddr &&& elfPageMask
  let stop ← add 64 segment.vaddr segment.memsz
  if segment.memsz = 0 then return (true, s, records)
  else
    -- `page_va < end` holds as often as there are pages up to `end`
    let bytes ← sub stop firstPage
    elfLoadPages binary buf pml4 segment ((bytes + 4095) / elfPageSize) firstPage s records

/-- The loop over the program headers from `i` on, for `n` more turns. -/
def elfLoadLoop (binary : Nat) (buf : List (BitVec 8)) (pml4 phoff : Nat) :
    (n i : Nat) → Phys → List PageRecord → Except Fault (Bool × Phys × List PageRecord)
  | 0, _, s, records => return (true, s, records)
  | n + 1, i, s, records => do
    let segment ← readPhdr binary buf phoff i
    if segment.type = elfPtLoad then do
      let (ok, s, records) ← elfLoadSegment binary buf pml4 segment s records
      if ok then elfLoadLoop binary buf pml4 phoff n (i + 1) s records
      else return (false, s, records)
    else elfLoadLoop binary buf pml4 phoff n (i + 1) s records

/-- `elf_load`: the entry point or 0, and what is left in memory and in the arrays. -/
def elfLoad (binary : BitVec 64) (buf : List (BitVec 8)) (pml4 : Nat) (records : List PageRecord)
    (capacity : BitVec 32) (s : Phys) : Except Fault (Nat × Phys × List PageRecord) :=
  if pml4 = 0 ∨ capacity.toNat < records.length then return (0, s, records)
  else do
    let blank : ElfImageInfo := { header := ElfHeader.decode [], pageCount := 0 }
    match ← elfValidate binary buf (capacity - .ofNat 32 records.length) (some blank) with
    | (true, some image) => do
      let (ok, s, records) ←
        elfLoadLoop binary.toNat buf pml4 image.header.phoff image.header.phnum 0 s records
      return (if ok then image.header.entry else 0, s, records)
    | _ => return (0, s, records)

end GenOS
