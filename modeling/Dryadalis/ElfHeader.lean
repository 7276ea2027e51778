import Dryadalis.SegmentMaps

/-!
# Reading an ELF file

`init_analysis` reads a file into a buffer of its own length, checks the four magic bytes
and computes the addresses of the program headers from three fields of the ELF header.
Nothing is compared with the length of the file, so the header and the program headers may
lie past the end of the buffer, in whatever the heap has there.  The same is true of the
names of interpreters, which the loop of `map_binary` over `s_ph` reads.

An `ElfFile` is the file, the memory that it is read into, and the outcome of every call
that can make `init_analysis` give up.
-/

namespace Dryadalis

open ByteMem

/-! ## The structures of an ELF file -/

/-- The little-endian half-word in the two bytes at `a`. -/
def load16 (m : Word → Byte) (a : Word) : BitVec 16 := m (a + 1) ++ m a

/-- The little-endian 32-bit word in the four bytes at `a`. -/
def load32 (m : Word → Byte) (a : Word) : BitVec 32 := load16 m (a + 2) ++ load16 m a

/-- `sizeof(Elf64_Ehdr)` -/
def ehdrSize : Nat := 64

/-- `sizeof(Elf64_Phdr)` -/
def phdrSize : Nat := 56

section Fields

variable (m : Word → Byte) (eh : Word)

def eType : BitVec 16 := load16 m (eh + 16)

def ePhoff : Word := load64 m (eh + 32)

def ePhentsize : BitVec 16 := load16 m (eh + 54)

def ePhnum : BitVec 16 := load16 m (eh + 56)

end Fields

/-- `ET_DYN` -/
def ET_DYN : BitVec 16 := 3

/-- The program header at an address. -/
def readPhdr (m : Word → Byte) (p : Word) : Phdr where
  pType :=
    if load32 m p = 1 then .LOAD
    else if load32 m p = 3 then .INTERP
    else .other (load32 m p).toNat
  pfW := (load32 m (p + 4)).getLsbD 1
  pfX := (load32 m (p + 4)).getLsbD 0
  pOffset := load64 m (p + 8)
  pVaddr := load64 m (p + 16)
  pFilesz := load64 m (p + 32)
  pMemsz := load64 m (p + 40)

/-! ## `init_analysis` -/

/-- `is_elf` -/
def isElf (m : Word → Byte) (ehPtr : Word) : Bool :=
  m ehPtr = 0x7f && m (ehPtr + 1) = 0x45 && m (ehPtr + 2) = 0x4c && m (ehPtr + 3) = 0x46

/-- `is_pie` -/
def isPie (m : Word → Byte) (ehPtr : Word) : Bool := eType m ehPtr = ET_DYN

/-- `alloc_ph` -/
def allocPh (nrPhdr : Nat) : List Word := List.replicate nrPhdr 0

/-- Where `parse_phdr` expects a program header. -/
def phdrAddress (m : Word → Byte) (ptr : Word) (i : Nat) : Word :=
  ptr + (ePhoff m ptr + (ePhentsize m ptr).setWidth 64 * BitVec.ofNat 64 i)

/-- `parse_phdr` -/
def parsePhdr (m : Word → Byte) (ptr : Word) (bufferMdataPh : List Word) : List Word :=
  (List.range (ePhnum m ptr).toNat).foldl (fun buf i => buf.set i (phdrAddress m ptr i))
    bufferMdataPh

/-- A file, the memory that `init_analysis` reads it into, and the outcome of the calls it
makes.  `heap` is the memory before, and `fbinary` the buffer that `malloc` returns if it
does not fail. -/
structure ElfFile where
  opened : Bool
  fstat : Bool
  malloc : Bool
  csOpen : Bool
  csMalloc : Bool
  file : List Byte
  heap : Word → Byte
  fbinary : Word
  fits : fbinary.toNat + file.length ≤ TASK_SIZE

/-- The memory after the file was read. -/
def ElfFile.memory (e : ElfFile) : Word → Byte :=
  patch e.heap e.fbinary 0 e.file.length fun i => e.file.getD i 0

/-- The fields of `mdata_binary_t` that `init_analysis` takes from the file. -/
structure Mdata where
  lenFile : Nat
  fbinary : Word
  eh : Word
  sPh : List Word
  pie : Bool
  deriving DecidableEq

/-- `init_analysis`.  `none` is the return value -1. -/
def initAnalysis (e : ElfFile) : Except Halt (Option Mdata) :=
  if e.opened = false then .ok none
  else if e.fstat = false then .ok none
  -- `e_phnum` is read through a null pointer then.
  else if e.malloc = false then .error .crash
  else
    let m := e.memory
    -- The header is used here for the first time, before it was checked.
    let sPh := allocPh (ePhnum m e.fbinary).toNat
    if e.csOpen = false then .error .fatal
    else if e.csMalloc = false then .ok none
    else if isElf m e.fbinary = false then .ok none
    else
      -- `init_struct` is called without section headers, and `parse_phdr` returns 0.
      .ok (some
        { lenFile := e.file.length
          fbinary := e.fbinary
          eh := e.fbinary
          sPh := parsePhdr m e.fbinary sPh
          pie := isPie m e.fbinary })

/-! ## Inside the file -/

/-- The `n` bytes at `p` are bytes of the file. -/
def Mdata.InFile (d : Mdata) (p : Word) (n : Nat) : Prop :=
  d.fbinary.toNat ≤ p.toNat ∧ p.toNat + n ≤ d.fbinary.toNat + d.lenFile

/-- The ELF header and every program header are in the file. -/
structure HeadersInside (m : Word → Byte) (d : Mdata) : Prop where
  header : d.InFile d.eh ehdrSize
  phdrs : ∀ i, i < (ePhnum m d.eh).toNat → ∃ p, d.sPh[i]? = some p ∧ d.InFile p phdrSize

/-- The memories have the same `n` bytes at `p`. -/
def SameBytes (m m' : Word → Byte) (p : Word) (n : Nat) : Prop :=
  ∀ i, i < n → window m p i = window m' p i

/-- Where a header says that the name of the interpreter is. -/
def Mdata.interpStr (d : Mdata) (ph : Phdr) : Word :=
  d.fbinary + if d.pie then ph.pVaddr else ph.pOffset

/-- The bytes that a turn of the loop over `s_ph` reads for the header at `p`: those of the
number of headers, of the header, and of the name of an interpreter.  The name is printed
first, so it is read up to the zero byte at its end. -/
inductive LoopReads (m : Word → Byte) (d : Mdata) (p : Word) : Word → Prop where
  | count {i : Nat} (hi : i < 2) : LoopReads m d p (d.eh + 56 + BitVec.ofNat 64 i)
  | header {i : Nat} (hi : i < phdrSize) : LoopReads m d p (p + BitVec.ofNat 64 i)
  | name {i : Nat} (htype : (readPhdr m p).pType = .INTERP)
      (hi : ∀ j, j < i → m (d.interpStr (readPhdr m p) + BitVec.ofNat 64 j) ≠ 0) :
      LoopReads m d p (d.interpStr (readPhdr m p) + BitVec.ofNat 64 i)

/-- The ELF header and every program header are in the file, and a loop over `s_ph` reads
nothing else than the file.  The loop may find another memory, but with the file in it. -/
structure Inside (m : Word → Byte) (d : Mdata) : Prop extends HeadersInside m d where
  loops : ∀ m', SameBytes m m' d.fbinary d.lenFile → ∀ p ∈ d.sPh, ∀ x, LoopReads m' d p x →
    d.InFile x 1

/-- No call makes `init_analysis` give up, and the file starts with the magic bytes. -/
def ElfFile.Accepted (e : ElfFile) : Prop :=
  e.opened = true ∧ e.fstat = true ∧ e.malloc = true ∧ e.csOpen = true ∧ e.csMalloc = true ∧
    isElf e.memory e.fbinary = true

/-- The file is long enough for its header and for the last program header. -/
def ElfFile.LongEnough (e : ElfFile) : Prop :=
  ehdrSize ≤ e.file.length ∧
    ((ePhnum e.memory e.fbinary).toNat = 0 ∨
      (ePhoff e.memory e.fbinary).toNat +
        (ePhentsize e.memory e.fbinary).toNat * ((ePhnum e.memory e.fbinary).toNat - 1) +
        phdrSize ≤ e.file.length)

/-- Where a header says that the name of the interpreter is in the file. -/
def ElfFile.interpOfft (e : ElfFile) (ph : Phdr) : Word :=
  if isPie e.memory e.fbinary then ph.pVaddr else ph.pOffset

/-- Each header of an interpreter has a zero byte of the file at its name or after it. -/
def ElfFile.NamesInside (e : ElfFile) : Prop :=
  ∀ i, i < (ePhnum e.memory e.fbinary).toNat →
    (readPhdr e.memory (phdrAddress e.memory e.fbinary i)).pType = .INTERP →
      ∃ n, (e.interpOfft (readPhdr e.memory (phdrAddress e.memory e.fbinary i))).toNat ≤ n ∧
        e.file[n]? = some 0

section Headers

variable {e : ElfFile} {m : Word → Byte} {ptr : Word} {d : Mdata}

/-- The loop of `parse_phdr` fills the array that `alloc_ph` has made. -/
theorem parsePhdr_allocPh :
    parsePhdr m ptr (allocPh (ePhnum m ptr).toNat) =
      (List.range (ePhnum m ptr).toNat).map (phdrAddress m ptr) := by
  rw [parsePhdr, allocPh]
  generalize (ePhnum m ptr).toNat = n
  -- After `k` turns the first `k` entries are set.
  suffices hfill : ∀ k, k ≤ n →
      (List.range k).foldl (fun buf i => buf.set i (phdrAddress m ptr i)) (List.replicate n 0) =
        (List.range k).map (phdrAddress m ptr) ++ List.replicate (n - k) 0 by
    simpa using hfill n (le_refl n)
  intro k
  induction k with
  | zero => simp
  | succ k ih =>
    intro hk
    rw [List.range_succ, List.foldl_append, ih (by omega), List.foldl_cons, List.foldl_nil,
      List.map_append, List.set_append_right _ _ (by simp)]
    obtain ⟨r, hr⟩ : ∃ r, n - k = r + 1 := ⟨n - k - 1, by omega⟩
    have hrest : n - (k + 1) = r := by omega
    simp [hr, hrest, List.replicate_succ]

theorem sPh_getElem? {i : Nat} (hi : i < (ePhnum m ptr).toNat) :
    (parsePhdr m ptr (allocPh (ePhnum m ptr).toNat))[i]? = some (phdrAddress m ptr i) := by
  rw [parsePhdr_allocPh, List.getElem?_map, List.getElem?_range hi]
  rfl

theorem phdrAddress_toNat {i : Nat} (hi : i < 2 ^ 16)
    (h : ptr.toNat + ((ePhoff m ptr).toNat + (ePhentsize m ptr).toNat * i) < 2 ^ 64) :
    (phdrAddress m ptr i).toNat =
      ptr.toNat + ((ePhoff m ptr).toNat + (ePhentsize m ptr).toNat * i) := by
  have hsize := (ePhentsize m ptr).isLt
  have hprod : ((ePhentsize m ptr).setWidth 64 * BitVec.ofNat 64 i).toNat =
      (ePhentsize m ptr).toNat * i := by
    rw [BitVec.toNat_mul, BitVec.toNat_setWidth, BitVec.toNat_ofNat,
      Nat.mod_eq_of_lt (show i < 2 ^ 64 by omega),
      Nat.mod_eq_of_lt (show (ePhentsize m ptr).toNat < 2 ^ 64 by omega),
      Nat.mod_eq_of_lt (by omega)]
  rw [phdrAddress, BitVec.toNat_add, BitVec.toNat_add, hprod,
    Nat.mod_eq_of_lt (show (ePhoff m ptr).toNat + (ePhentsize m ptr).toNat * i < 2 ^ 64 by omega),
    Nat.mod_eq_of_lt h]

/-- What `init_analysis` returns for a file that it accepts. -/
def ElfFile.mdata (e : ElfFile) : Mdata where
  lenFile := e.file.length
  fbinary := e.fbinary
  eh := e.fbinary
  sPh := parsePhdr e.memory e.fbinary (allocPh (ePhnum e.memory e.fbinary).toNat)
  pie := isPie e.memory e.fbinary

theorem initAnalysis_eq_ok_iff : initAnalysis e = .ok (some d) ↔ e.Accepted ∧ d = e.mdata := by
  have heq : initAnalysis e =
      if e.opened = false then .ok none
      else if e.fstat = false then .ok none
      else if e.malloc = false then .error .crash
      else if e.csOpen = false then .error .fatal
      else if e.csMalloc = false then .ok none
      else if isElf e.memory e.fbinary = false then .ok none
      else .ok (some e.mdata) := rfl
  rw [heq, ElfFile.Accepted]
  generalize isElf e.memory e.fbinary = magic
  cases e.opened <;> cases e.fstat <;> cases e.malloc <;> cases e.csOpen <;>
    cases e.csMalloc <;> cases magic <;> simp [eq_comm]

/-- The first program header is in the file only if its offset is. -/
theorem ePhoff_le (hin : e.mdata.InFile (phdrAddress e.memory e.fbinary 0) phdrSize) :
    (ePhoff e.memory e.fbinary).toNat + phdrSize ≤ e.file.length := by
  have hfits := e.fits
  have htask := TASK_SIZE_lt
  have hoff := (ePhoff e.memory e.fbinary).isLt
  have haddr : (phdrAddress e.memory e.fbinary 0).toNat =
      (e.fbinary.toNat + (ePhoff e.memory e.fbinary).toNat) % 2 ^ 64 := by
    simp [phdrAddress]
  have hfirst : e.fbinary.toNat ≤ (phdrAddress e.memory e.fbinary 0).toNat := hin.1
  have hlast : (phdrAddress e.memory e.fbinary 0).toNat + phdrSize ≤
      e.fbinary.toNat + e.file.length := hin.2
  rw [phdrSize] at hlast ⊢
  omega

/-- All program headers are in the file exactly when the last one ends in it. -/
theorem phdrs_inFile_iff :
    (∀ i, i < (ePhnum e.memory e.fbinary).toNat →
        e.mdata.InFile (phdrAddress e.memory e.fbinary i) phdrSize) ↔
      (ePhnum e.memory e.fbinary).toNat = 0 ∨
        (ePhoff e.memory e.fbinary).toNat +
          (ePhentsize e.memory e.fbinary).toNat * ((ePhnum e.memory e.fbinary).toNat - 1) +
          phdrSize ≤ e.file.length := by
  have hfits := e.fits
  have htask := TASK_SIZE_lt
  have hnum := (ePhnum e.memory e.fbinary).isLt
  have hsize := (ePhentsize e.memory e.fbinary).isLt
  generalize hn : (ePhnum e.memory e.fbinary).toNat = n at hnum ⊢
  have hmul (i : Nat) (hi : i < 2 ^ 16) :
      (ePhentsize e.memory e.fbinary).toNat * i ≤ 2 ^ 16 * 2 ^ 16 :=
    Nat.mul_le_mul hsize.le hi.le
  constructor
  · intro hall
    rcases Nat.eq_zero_or_pos n with hzero | hpos
    · exact Or.inl hzero
    · have hoff := ePhoff_le (hall 0 hpos)
      have hlast := (hall (n - 1) (by omega)).2
      have hprod := hmul (n - 1) (by omega)
      rw [phdrSize] at hoff
      rw [phdrAddress_toNat (by omega) (by omega)] at hlast
      simp only [ElfFile.mdata] at hlast
      right
      omega
  · rintro (hzero | hlast) i hi
    · omega
    · have hprod : (ePhentsize e.memory e.fbinary).toNat * i ≤
          (ePhentsize e.memory e.fbinary).toNat * (n - 1) := Nat.mul_le_mul_left _ (by omega)
      rw [Mdata.InFile, phdrAddress_toNat (by omega) (by omega)]
      simp only [ElfFile.mdata]
      omega

/-- The headers are in a file that is long enough. -/
theorem headersInside_iff : HeadersInside e.memory e.mdata ↔ e.LongEnough := by
  have hfits := e.fits
  have hheader : e.mdata.InFile e.mdata.eh ehdrSize ↔ ehdrSize ≤ e.file.length := by
    simp only [Mdata.InFile, ElfFile.mdata]
    omega
  rw [ElfFile.LongEnough, ← phdrs_inFile_iff, ← hheader]
  constructor
  · rintro ⟨hhead, hphdrs⟩
    refine ⟨hhead, fun i hi => ?_⟩
    obtain ⟨p, hp, hin⟩ := hphdrs i hi
    obtain rfl := Option.some.inj ((sPh_getElem? hi).symm.trans hp)
    exact hin
  · rintro ⟨hhead, hphdrs⟩
    exact ⟨hhead, fun i hi => ⟨_, sPh_getElem? hi, hphdrs i hi⟩⟩

theorem mem_sPh {p : Word} : p ∈ e.mdata.sPh ↔
    ∃ i, i < (ePhnum e.memory e.fbinary).toNat ∧ phdrAddress e.memory e.fbinary i = p := by
  simp [ElfFile.mdata, parsePhdr_allocPh]

theorem header_inFile (h : e.LongEnough) : e.mdata.InFile e.fbinary ehdrSize := by
  have hsize := h.1
  simp only [Mdata.InFile, ElfFile.mdata]
  omega

end Headers

/-! ## The same bytes in another memory -/

section SameBytes

variable {m m' : Word → Byte} {p : Word} {n : Nat}

theorem SameBytes.add (h : SameBytes m m' p n) (c k : Nat) (hck : c + k ≤ n) :
    SameBytes m m' (p + BitVec.ofNat 64 c) k := by
  intro i hi
  rw [window_add, window_add]
  exact h (c + i) (by omega)

theorem SameBytes.load16 (h : SameBytes m m' p 2) : load16 m p = load16 m' p := by
  have hlow := h 0 (by decide)
  have hhigh : m (p + 1) = m' (p + 1) := h 1 (by decide)
  rw [window, window, show p + BitVec.ofNat 64 0 = p from BitVec.add_zero p] at hlow
  rw [Dryadalis.load16, Dryadalis.load16, hlow, hhigh]

theorem SameBytes.load32 (h : SameBytes m m' p 4) : load32 m p = load32 m' p := by
  have hlow := (h.add 0 2 (by decide)).load16
  have hhigh := (h.add 2 2 (by decide)).load16
  rw [show p + BitVec.ofNat 64 0 = p from BitVec.add_zero p] at hlow
  rw [Dryadalis.load32, Dryadalis.load32, hlow]
  exact congrArg (· ++ Dryadalis.load16 m' p) hhigh

theorem SameBytes.load64 (h : SameBytes m m' p 8) : load64 m p = load64 m' p :=
  load64_congr h

theorem SameBytes.readPhdr (h : SameBytes m m' p phdrSize) : readPhdr m p = readPhdr m' p := by
  have htype := (h.add 0 4 (by decide)).load32
  have hflags := (h.add 4 4 (by decide)).load32
  have hoffset := (h.add 8 8 (by decide)).load64
  have hvaddr := (h.add 16 8 (by decide)).load64
  have hfilesz := (h.add 32 8 (by decide)).load64
  have hmemsz := (h.add 40 8 (by decide)).load64
  rw [show p + BitVec.ofNat 64 0 = p from BitVec.add_zero p] at htype
  simp only [Dryadalis.readPhdr, htype, Phdr.mk.injEq]
  exact ⟨trivial, congrArg (·.getLsbD 1) hflags, congrArg (·.getLsbD 0) hflags, hoffset, hvaddr,
    hfilesz, hmemsz⟩

end SameBytes

section Held

variable {e : ElfFile} {m : Word → Byte} {p x : Word} {n i : Nat}

theorem SameBytes.of_inFile (hheld : SameBytes e.memory m e.fbinary e.file.length)
    (hin : e.mdata.InFile p n) : SameBytes e.memory m p n := by
  have hlo : e.fbinary.toNat ≤ p.toNat := hin.1
  have hhi : p.toNat + n ≤ e.fbinary.toNat + e.file.length := hin.2
  have hp : e.fbinary + BitVec.ofNat 64 (p.toNat - e.fbinary.toNat) = p := by
    have hlt := p.isLt
    apply BitVec.eq_of_toNat_eq
    rw [add_ofNat_toNat (by omega)]
    omega
  rw [← hp]
  exact hheld.add _ n (by omega)

theorem Mdata.InFile.part (h : e.mdata.InFile p n) (hi : i < n) :
    e.mdata.InFile (p + BitVec.ofNat 64 i) 1 := by
  have hfits := e.fits
  have htask := TASK_SIZE_lt
  have hlo : e.fbinary.toNat ≤ p.toNat := h.1
  have hhi : p.toNat + n ≤ e.fbinary.toNat + e.file.length := h.2
  simp only [Mdata.InFile, ElfFile.mdata]
  rw [add_ofNat_toNat (by omega)]
  omega

/-- The byte of the file at an offset. -/
theorem memory_file (hn : n < e.file.length) :
    e.memory (e.fbinary + BitVec.ofNat 64 n) = e.file.getD n 0 := by
  have hfits := e.fits
  have htask := TASK_SIZE_lt
  rw [ElfFile.memory, patch_of_inRange (inRange_add hn (by omega)), dist_add (by omega)]

/-- The address of the byte that is `i` bytes behind the start of a name. -/
theorem interpStr_add (ph : Phdr) (i : Nat) :
    e.mdata.interpStr ph + BitVec.ofNat 64 i =
      e.fbinary + BitVec.ofNat 64 ((e.interpOfft ph).toNat + i) := by
  rw [BitVec.ofNat_add, BitVec.ofNat_toNat, BitVec.setWidth_eq, ← BitVec.add_assoc]
  rfl

end Held

/-! ## The names of interpreters -/

section Names

variable {e : ElfFile} {m : Word → Byte} {p x : Word} {ph : Phdr}

/-- A name that is read up to a zero byte of the file is in the file. -/
theorem name_inFile (hheld : SameBytes e.memory m e.fbinary e.file.length) {n i : Nat}
    (hn : (e.interpOfft ph).toNat ≤ n) (hzero : e.file[n]? = some 0)
    (hi : ∀ j, j < i → m (e.mdata.interpStr ph + BitVec.ofNat 64 j) ≠ 0) :
    e.mdata.InFile (e.mdata.interpStr ph + BitVec.ofNat 64 i) 1 := by
  have hfits := e.fits
  have htask := TASK_SIZE_lt
  obtain ⟨hlen, -⟩ := List.getElem?_eq_some_iff.mp hzero
  have hle : i ≤ n - (e.interpOfft ph).toNat := by
    by_contra hlt
    apply hi (n - (e.interpOfft ph).toNat) (by omega)
    have hbyte : e.memory (e.fbinary + BitVec.ofNat 64 n) =
        m (e.fbinary + BitVec.ofNat 64 n) := hheld n hlen
    rw [interpStr_add, show (e.interpOfft ph).toNat + (n - (e.interpOfft ph).toNat) = n by omega,
      ← hbyte, memory_file hlen, List.getD_eq_getElem?_getD, hzero]
    rfl
  rw [interpStr_add, Mdata.InFile, add_ofNat_toNat (by omega)]
  simp only [ElfFile.mdata]
  omega

/-- A name that starts behind the file, or has no zero byte in it, is not read inside of it. -/
theorem exists_zero_of_inFile
    (hin : ∀ i, (∀ j, j < i → e.memory (e.mdata.interpStr ph + BitVec.ofNat 64 j) ≠ 0) →
      e.mdata.InFile (e.mdata.interpStr ph + BitVec.ofNat 64 i) 1) :
    ∃ n, (e.interpOfft ph).toNat ≤ n ∧ e.file[n]? = some 0 := by
  by_contra hnone
  have hfits := e.fits
  have htask := TASK_SIZE_lt
  have hofft := (e.interpOfft ph).isLt
  have hnonzero : ∀ j, j < e.file.length - (e.interpOfft ph).toNat →
      e.memory (e.mdata.interpStr ph + BitVec.ofNat 64 j) ≠ 0 := by
    intro j hj hzero
    apply hnone
    refine ⟨(e.interpOfft ph).toNat + j, by omega, ?_⟩
    rw [interpStr_add, memory_file (by omega), List.getD_eq_getElem?_getD,
      List.getElem?_eq_getElem (by omega)] at hzero
    rw [List.getElem?_eq_getElem (by omega)]
    exact congrArg some hzero
  -- The first byte that is read and is not one of the file.
  have hout := hin _ hnonzero
  rw [interpStr_add, Mdata.InFile, BitVec.toNat_add, BitVec.toNat_ofNat] at hout
  simp only [ElfFile.mdata] at hout
  omega

/-- In a file that is long enough, and with the names of its interpreters in it, a loop over
`s_ph` reads nothing else. -/
theorem loopReads_inFile (hlong : e.LongEnough) (hnames : e.NamesInside)
    (hheld : SameBytes e.memory m e.fbinary e.file.length) (hp : p ∈ e.mdata.sPh)
    (hx : LoopReads m e.mdata p x) : e.mdata.InFile x 1 := by
  obtain ⟨k, hk, rfl⟩ := mem_sPh.mp hp
  have hheader := phdrs_inFile_iff.mpr hlong.2 k hk
  have hphdr : readPhdr m (phdrAddress e.memory e.fbinary k) =
      readPhdr e.memory (phdrAddress e.memory e.fbinary k) :=
    ((hheld.of_inFile hheader).readPhdr).symm
  cases hx with
  | @count i hi =>
    have hcount := (header_inFile hlong).part (i := 56 + i) (by rw [ehdrSize]; omega)
    rw [BitVec.ofNat_add, ← BitVec.add_assoc] at hcount
    exact hcount
  | header hi => exact hheader.part hi
  | name htype hi =>
    rw [hphdr] at htype hi ⊢
    obtain ⟨n, hn, hzero⟩ := hnames k hk htype
    exact name_inFile hheld hn hzero hi

end Names

/-- The files for which `init_analysis` returns -1, or a descriptor over which no loop reads
outside of the file, are those that it does not accept, and those that are long enough and
have the names of their interpreters in them. -/
theorem initAnalysis_inside_iff (e : ElfFile) :
    (∀ d, initAnalysis e = .ok (some d) → Inside e.memory d) ↔
      ¬ e.Accepted ∨ e.LongEnough ∧ e.NamesInside := by
  have hinside : Inside e.memory e.mdata ↔ e.LongEnough ∧ e.NamesInside := by
    constructor
    · rintro ⟨hheaders, hloops⟩
      refine ⟨headersInside_iff.mp hheaders, fun k hk htype => exists_zero_of_inFile fun i hi => ?_⟩
      exact hloops e.memory (fun _ _ => rfl) _ (mem_sPh.mpr ⟨k, hk, rfl⟩) _ (.name htype hi)
    · rintro ⟨hlong, hnames⟩
      refine ⟨headersInside_iff.mpr hlong, fun m' hheld p hp x hx => ?_⟩
      exact loopReads_inFile hlong hnames hheld hp hx
  rw [← hinside]
  constructor
  · intro hall
    by_cases haccepted : e.Accepted
    · exact Or.inr (hall _ (initAnalysis_eq_ok_iff.mpr ⟨haccepted, rfl⟩))
    · exact Or.inl haccepted
  · rintro (hrefused | hin) d hd
    · exact absurd (initAnalysis_eq_ok_iff.mp hd).1 hrefused
    · rw [(initAnalysis_eq_ok_iff.mp hd).2]
      exact hin

/-- A file of 64 bytes, which are an ELF header with one program header after it. -/
def truncatedElf : ElfFile where
  opened := true
  fstat := true
  malloc := true
  csOpen := true
  csMalloc := true
  file := [0x7f, 0x45, 0x4c, 0x46] ++ List.replicate 28 0 ++ [0x40] ++ List.replicate 21 0 ++
    [56, 0, 1] ++ List.replicate 7 0
  heap _ := 0
  fbinary := 0x10000
  fits := by
    rw [TASK_SIZE]
    decide

/-- The program header of a file that ends with the ELF header is past the end of the file. -/
theorem initAnalysis_takes_truncated :
    ¬ ∀ d, initAnalysis truncatedElf = .ok (some d) → Inside truncatedElf.memory d := by
  intro hall
  have hmagic : isElf truncatedElf.memory truncatedElf.fbinary = true := by decide +kernel
  have haccepted : truncatedElf.Accepted := ⟨rfl, rfl, rfl, rfl, rfl, hmagic⟩
  obtain ⟨p, hp, hin⟩ :=
    (hall truncatedElf.mdata (initAnalysis_eq_ok_iff.mpr ⟨haccepted, rfl⟩)).phdrs 0 (by decide)
  have hfirst : truncatedElf.mdata.sPh[0]? = some 0x10040 := by decide +kernel
  obtain rfl := Option.some.inj (hfirst.symm.trans hp)
  exact absurd hin.2 (by decide)

/-! ## What the loader reads -/

/-- The program headers that a loop over `s_ph` reads. -/
def Mdata.headers (m : Word → Byte) (d : Mdata) : List Phdr := d.sPh.map (readPhdr m)

/-- The binary that `map_binary` loads. -/
def ElfFile.binary (e : ElfFile) (baseAddress : Word) (loadInterp : Space → Option Space) :
    Binary where
  pie := e.mdata.pie
  file i := e.file.getD i 0
  sPh := e.mdata.headers e.memory
  baseAddress := baseAddress
  loadInterp := loadInterp

/-- The same file, read into another heap. -/
def ElfFile.withHeap (e : ElfFile) (heap : Word → Byte) : ElfFile := { e with heap := heap }

section Loaded

variable {e : ElfFile} {p : Word} {n : Nat} (heap : Word → Byte)

/-- The bytes of the file do not depend on the heap. -/
theorem sameBytes_of_inFile (h : e.mdata.InFile p n) :
    SameBytes e.memory (e.withHeap heap).memory p n := by
  intro i hi
  have hfits := e.fits
  have htask := TASK_SIZE_lt
  have hlo : e.fbinary.toNat ≤ p.toNat := h.1
  have hhi : p.toNat + n ≤ e.fbinary.toNat + e.file.length := h.2
  have hx : (p + BitVec.ofNat 64 i).toNat = p.toNat + i := add_ofNat_toNat (by omega)
  have hin : InRange e.fbinary e.file.length (p + BitVec.ofNat 64 i) :=
    (inRange_iff (by omega)).mpr (by omega)
  have hother : (e.withHeap heap).memory (p + BitVec.ofNat 64 i) =
      e.file.getD (ByteMem.dist e.fbinary (p + BitVec.ofNat 64 i)) 0 := patch_of_inRange hin
  rw [window, window, hother, ElfFile.memory, patch_of_inRange hin]

theorem isPie_withHeap (h : e.LongEnough) :
    (e.withHeap heap).mdata.pie = e.mdata.pie := by
  have hsame := sameBytes_of_inFile heap (header_inFile h)
  have htype := (hsame.add 16 2 (by decide)).load16
  exact congrArg (fun t => decide (t = ET_DYN)) htype.symm

theorem headers_withHeap (h : e.LongEnough) :
    (e.withHeap heap).mdata.headers (e.withHeap heap).memory = e.mdata.headers e.memory := by
  have hsame := sameBytes_of_inFile heap (header_inFile h)
  have hphoff : ePhoff (e.withHeap heap).memory e.fbinary = ePhoff e.memory e.fbinary :=
    (hsame.add 32 8 (by decide)).load64.symm
  have hphentsize : ePhentsize (e.withHeap heap).memory e.fbinary =
      ePhentsize e.memory e.fbinary :=
    (hsame.add 54 2 (by decide)).load16.symm
  have hphnum : ePhnum (e.withHeap heap).memory e.fbinary = ePhnum e.memory e.fbinary :=
    (hsame.add 56 2 (by decide)).load16.symm
  have haddr (i : Nat) : phdrAddress (e.withHeap heap).memory e.fbinary i =
      phdrAddress e.memory e.fbinary i := by
    rw [phdrAddress, phdrAddress, hphoff, hphentsize]
  have hmap : (e.withHeap heap).mdata.sPh = e.mdata.sPh := by
    simp only [ElfFile.mdata, parsePhdr_allocPh]
    rw [show (e.withHeap heap).fbinary = e.fbinary from rfl, hphnum]
    exact List.map_congr_left fun i _ => haddr i
  rw [Mdata.headers, Mdata.headers, hmap]
  refine List.map_congr_left fun p hp => ?_
  obtain ⟨i, hi, rfl⟩ := mem_sPh.mp hp
  exact (sameBytes_of_inFile heap (phdrs_inFile_iff.mpr h.2 i hi)).readPhdr.symm

end Loaded

end Dryadalis
