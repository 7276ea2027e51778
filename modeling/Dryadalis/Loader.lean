import Dryadalis.Lib.Exec
import Dryadalis.Kernel

/-!
# Loading a binary

`map_binary` walks the program headers of an ELF file and hands every `PT_LOAD`
segment to `map_load`, which maps the file over it, clears or maps the part that the
file does not have, sets the initial break, and sets the protections last.

The source computes the address of a segment in `curr_map`, which stays zero for the
first segment: that one fixes the load base instead.  Two lengths are in use.
`fileMapLength curr` is the length of the file mapping of a segment at `curr`, and the
variable `sz` is the same expression with `curr_map` still zero.

The loop is one over the headers of a file, as they were when it was read.  What it does
not compute is a field of `Binary`: the bytes of the file, the base that a
position-independent binary is given, and what the calls of `map_binary` for interpreters do
to the address space.  The loop of the source, which reads its headers from the memory that
it maps segments into and calls `map_binary` again, is `mapHeaders`;
`mapBinary_of_mapHeaders` says that it does the same for a file that fits.
-/

namespace Dryadalis

open ByteMem

/-! ## Program headers -/

/-- The types of program headers that `map_binary` tells apart. -/
inductive PType where
  | LOAD | INTERP
  | other (n : Nat)
  deriving DecidableEq, Repr

/-- `Elf64_Phdr`.  `pfW` and `pfX` are the bits `PF_W` and `PF_X` of the flags. -/
structure Phdr where
  pType : PType
  pfW : Bool
  pfX : Bool
  pOffset : Word
  pVaddr : Word
  pFilesz : Word
  pMemsz : Word

/-- What `map_binary` finds in an ELF file.  `file` is zero past the end of the file,
`baseAddress` is the answer of `base_address`, and `loadInterp` is what `load_interp`
does to the address space. -/
structure Binary where
  pie : Bool
  file : Nat → Byte
  sPh : List Phdr
  baseAddress : Word
  loadInterp : Space → Option Space

/-- The fields of `mdata_binary_t` that the loader sets. -/
structure Loader where
  space : Space
  base : Word
  vbrk : Word

/-! ## The kernel's side -/

/-- `mmap` of a file with `MAP_FIXED | MAP_PRIVATE`. -/
def Kernel.mmapFile (k : Kernel) (m : Space) (file : Nat → Byte) (addr len offset : Word)
    (p : Prot) : Option Space :=
  if pageOfft addr = 0 ∧ len ≠ 0 ∧ k.mmap addr len then
    some { byte := patch m.byte addr 0 (mappedLen len) (fun i => file (offset.toNat + i))
           prot := patch m.prot addr 0 (mappedLen len) (fun _ => some p) }
  else none

/-- `mprotect` of a range.  Every page of it has to be mapped. -/
def Kernel.mprotectRange (k : Kernel) (m : Space) (addr len : Word) (p : Prot) : Option Space :=
  if (List.range (mappedLen len / 4096)).all (fun i =>
      (m.prot (addr + BitVec.ofNat 64 (4096 * i))).isSome &&
        k.mprotect (addr + BitVec.ofNat 64 (4096 * i))) then
    some { m with prot := patch m.prot addr 0 (mappedLen len) (fun _ => some p) }
  else none

/-! ## `map_load` -/

/-- `PAGE_ROUND` -/
def pageRound (x : Word) : Word := pageAlign x + 0xfff

/-- The length of the file mapping of a segment at `curr`. -/
def fileMapLength (curr filesz : Word) : Word :=
  pageRound (pageRound (curr + filesz) - pageAlign curr) + 1

section MapLoad

variable (k : Kernel) (b : Binary) (ph : Phdr)

/-- The file mapping.  The first component is `curr_map`. -/
def mapSegment (l : Loader) : Option (Word × Loader) :=
  if l.base = 0 then do
    let addr := if b.pie then b.baseAddress else ph.pVaddr
    let m ← k.mmapFile l.space b.file addr (fileMapLength 0 ph.pFilesz) (pageAlign ph.pOffset)
      ⟨true, true, ph.pfX⟩
    return (0, { l with space := m, base := addr })
  else do
    let curr := if b.pie then l.base + ph.pVaddr else ph.pVaddr
    let m ← k.mmapFile l.space b.file (pageAlign curr) (fileMapLength curr ph.pFilesz)
      (pageAlign ph.pOffset) ⟨true, true, ph.pfX⟩
    return (curr, { l with space := m })

/-- The part of the segment past the file, and the break. -/
def mapBss (curr : Word) (l : Loader) : Option Loader :=
  if ph.pFilesz < ph.pMemsz ∧ curr ≠ 0 then
    let mapFilesz := curr + ph.pFilesz
    let mapEnd := pageRound mapFilesz + 1
    let bssEnd := pageRound (curr + ph.pMemsz) + 1
    let cleared : Space := { l.space with
      byte := patch l.space.byte mapFilesz 0 (mapEnd - mapFilesz).toNat (fun _ => 0) }
    if mapEnd < bssEnd then do
      let m ← k.mmapFixed cleared mapEnd (pageRound (bssEnd - mapEnd) + 1)
        ⟨true, ph.pfW, ph.pfX⟩
      return { l with space := m, vbrk := mapEnd + pageRound (bssEnd - mapEnd) + 1 }
    else if ph.pfW then
      some { l with space := cleared, vbrk := mapEnd }
    else
      some { l with space := cleared }
  else if ph.pfW then
    -- `sz` was computed before `curr_map` was set.
    some { l with
      vbrk := (if curr ≠ 0 then pageAlign curr else l.base) + fileMapLength 0 ph.pFilesz + 1 }
  else
    some l

/-- `map_load`.  `none` is the return value -1. -/
def mapLoad (l : Loader) : Option Loader := do
  let (curr, l) ← mapSegment k b ph l
  let l ← mapBss k ph curr l
  let m ← k.mprotectRange l.space (if curr ≠ 0 then pageAlign curr else l.base)
    (pageRound ph.pMemsz) ⟨true, ph.pfW, ph.pfX⟩
  return { l with space := m }

end MapLoad

/-! ## `map_binary` -/

/-- One turn of the loop of `map_binary`. -/
def mapPhdr (k : Kernel) (b : Binary) (l : Loader) (ph : Phdr) : Option Loader :=
  match ph.pType with
  | .INTERP => (b.loadInterp l.space).map fun m => { l with space := m }
  | .LOAD => mapLoad k b ph l
  | .other _ => some l

/-- The loop of `map_binary`, over an address space. -/
def mapBinary (k : Kernel) (b : Binary) (m : Space) : Option Loader :=
  b.sPh.foldlM (mapPhdr k b) { space := m, base := 0, vbrk := 0 }

end Dryadalis
