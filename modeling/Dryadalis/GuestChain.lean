import Dryadalis.GuestImages
import Dryadalis.Lib.Contract

/-!
# Chains of interpreters

Nothing in `map_binary` keeps an interpreter from naming itself.  A file that is loaded has a
finite chain of interpreters, and starts in the first of them (`mapBinary_chain`).  A chain that
does not end is never loaded, but it does not keep the loader from returning either: no file
is closed while its interpreter is loaded, so that the process runs out of descriptors
(`mapBinary_returns`).
-/

namespace Dryadalis

open ByteMem Exec

/-! ## Two files -/

/-- The `n` bytes of a number, the low one first. -/
def littleEndian (n v : Nat) : List Byte :=
  (List.range n).map fun i => BitVec.ofNat 8 (v / 256 ^ i)

/-- The bytes of a program header. -/
def phdrBytes (pType flags offset vaddr filesz memsz : Nat) : List Byte :=
  littleEndian 4 pType ++ littleEndian 4 flags ++ littleEndian 8 offset ++ littleEndian 8 vaddr ++
    littleEndian 8 vaddr ++ littleEndian 8 filesz ++ littleEndian 8 memsz ++ littleEndian 8 0x1000

/-- The bytes of a position-independent binary: the header, the program headers, the rest. -/
def elfBytes (entry : Nat) (phs : List (List Byte)) (rest : List Byte) : List Byte :=
  [0x7f, 0x45, 0x4c, 0x46] ++ List.replicate 12 0 ++ littleEndian 2 3 ++ littleEndian 2 62 ++
    littleEndian 4 1 ++ littleEndian 8 entry ++ littleEndian 8 64 ++ List.replicate 14 0 ++
    littleEndian 2 56 ++ littleEndian 2 phs.length ++ List.replicate 6 0 ++ phs.flatten ++ rest

/-- `/g` -/
def guestPath : Path := [0x2f, 0x67]

/-- `/i` -/
def interpPath : Path := [0x2f, 0x69]

/-- A guest with a page of code and one of data, which names `/i` as its interpreter. -/
def guestFile : FoundFile where
  opened := true
  fstat := true
  malloc := true
  csOpen := true
  csMalloc := true
  file := elfBytes 0xb0
    [phdrBytes 3 4 232 232 3 3, phdrBytes 1 5 0 0 235 235, phdrBytes 1 6 0 0x1000 0 0x10]
    (interpPath ++ [0])
  heap _ := 0
  fbinary := 0x10000000
  fits := by
    rw [TASK_SIZE]
    decide +kernel
  fd := 3
  baseAddress := 0x400000

/-- An interpreter with a page of code, which jumps to itself, and one of data. -/
def interpFile : FoundFile where
  opened := true
  fstat := true
  malloc := true
  csOpen := true
  csMalloc := true
  file := elfBytes 0xb0 [phdrBytes 1 5 0 0 178 178, phdrBytes 1 6 0 0x1000 0 0x10] [0xeb, 0xfe]
  heap _ := 0
  fbinary := 0x20000000
  fits := by
    rw [TASK_SIZE]
    decide +kernel
  fd := 4
  baseAddress := 0x600000

/-- A machine with the two files. -/
def twoFiles : Host where
  kernel := Kernel.user
  finds _ q :=
    if q = guestPath then guestFile
    else if q = interpPath then interpFile
    else { guestFile with opened := false }
  stack := 0x7f0000000000
  random := 0x9000
  sArch := 0xa000
  random_ne := by decide
  sArch_ne := by decide

/-- A process with the name of the guest in memory. -/
def emptyProcess : Process where
  space := { unmapped with byte := patch unmapped.byte 0x10 0 2 fun i => guestPath.getD i 0 }
  stack := freshMapping []
  reads := []

theorem guestFile_maps {x : Word} (hmaps : guestFile.Maps x) :
    0x400000 ≤ x.toNat ∧ x.toNat < 0x403000 :=
  FoundFile.maps_within (by decide +kernel) hmaps

theorem interpFile_maps {x : Word} (hmaps : interpFile.Maps x) :
    0x600000 ≤ x.toNat ∧ x.toNat < 0x603000 :=
  FoundFile.maps_within (by decide +kernel) hmaps

theorem guestFile_buffer {x : Word} (hin : guestFile.InBuffer x) :
    0x10000000 ≤ x.toNat ∧ x.toNat < 0x10001000 := by
  have hlen : guestFile.file.length = 235 := by decide +kernel
  have hbounds := FoundFile.inBuffer_iff.mp hin
  rw [hlen, show guestFile.fbinary.toNat = 0x10000000 from rfl] at hbounds
  omega

theorem interpFile_buffer {x : Word} (hin : interpFile.InBuffer x) :
    0x20000000 ≤ x.toNat ∧ x.toNat < 0x20001000 := by
  have hlen : interpFile.file.length = 178 := by decide +kernel
  have hbounds := FoundFile.inBuffer_iff.mp hin
  rw [hlen, show interpFile.fbinary.toNat = 0x20000000 from rfl] at hbounds
  omega

theorem guestFile_fits : guestFile.Fits where
  long := ⟨by decide +kernel, .inr (by decide +kernel)⟩
  conforms := conforms_of_pages (by decide +kernel) (by decide +kernel) (by decide +kernel)
  filesz_le := by decide +kernel
  within := by decide +kernel
  names := by decide +kernel
  apart x hin hmaps := by
    have hbuffer := guestFile_buffer hin
    have hpages := guestFile_maps hmaps
    omega

theorem interpFile_fits : interpFile.Fits where
  long := ⟨by decide +kernel, .inr (by decide +kernel)⟩
  conforms := conforms_of_pages (by decide +kernel) (by decide +kernel) (by decide +kernel)
  filesz_le := by decide +kernel
  within := by decide +kernel
  names := by decide +kernel
  apart x hin hmaps := by
    have hbuffer := interpFile_buffer hin
    have hpages := interpFile_maps hmaps
    omega

/-- The two files fit, whatever heap they were read into. -/
theorem filesFit_two {o o' : FoundFile} (ho : guestFile.Same o) (ho' : interpFile.Same o') :
    FilesFit [o, o'] where
  fits := by
    intro f hf
    rcases List.mem_pair.mp hf with rfl | rfl
    · exact guestFile_fits.same ho
    · exact interpFile_fits.same ho'
  apart := by
    rw [List.pairwise_pair]
    intro x hx hx'
    rw [ho.writes guestFile_fits] at hx
    rw [ho'.writes interpFile_fits] at hx'
    rcases hx with hin | hmaps
    · have hlow := guestFile_buffer hin
      rcases hx' with hin' | hmaps'
      · have hhigh := interpFile_buffer hin'
        omega
      · have hhigh := interpFile_maps hmaps'
        omega
    · have hlow := guestFile_maps hmaps
      rcases hx' with hin' | hmaps'
      · have hhigh := interpFile_buffer hin'
        omega
      · have hhigh := interpFile_maps hmaps'
        omega

/-- Of a run, the files without the heap they were read into, and the binaries. -/
def summary (r : EStateM.Result LoadStop Process (List LoadedBinary)) :
    Option (List (List Byte × Word × Word) × List (Word × Word × Word)) :=
  match r with
  | .ok g s => some (s.reads.map fun o => (o.file, o.fbinary, o.baseAddress),
      g.map fun b => (b.base, b.vbrk, b.execEntry))
  | .error _ _ => none

/-- The two files were read, into whatever heap. -/
def ReadsTwo (s : Process) : Prop :=
  ∃ o o', s.reads = [o, o'] ∧ guestFile.Same o ∧ interpFile.Same o'

theorem ReadsTwo.fit {s : Process} (h : ReadsTwo s) : FilesFit s.reads := by
  obtain ⟨o, o', hreads, ho, ho'⟩ := h
  rw [hreads]
  exact filesFit_two ho ho'

/-- What a run has returned whose summary has the two files. -/
theorem readsTwo_of_summary {r : EStateM.Result LoadStop Process (List LoadedBinary)}
    {bs : List (Word × Word × Word)}
    (hsum : summary r = some ([(guestFile.file, guestFile.fbinary, guestFile.baseAddress),
      (interpFile.file, interpFile.fbinary, interpFile.baseAddress)], bs)) :
    ∃ g s', r = .ok g s' ∧ ReadsTwo s' ∧
      g.map (fun b => (b.base, b.vbrk, b.execEntry)) = bs := by
  cases r with
  | error stop s' => cases hsum
  | ok g s' =>
    obtain ⟨hreads, hbs⟩ := Prod.mk.inj (Option.some.inj hsum)
    refine ⟨g, s', rfl, ?_, hbs⟩
    match hlist : s'.reads with
    | [] => simp [hlist] at hreads
    | [o] => simp [hlist] at hreads
    | [o, o'] =>
      simp only [hlist, List.map_cons, List.map_nil, List.cons.injEq, Prod.mk.injEq, and_true]
        at hreads
      exact ⟨o, o', hlist, ⟨hreads.1.1.symm, hreads.1.2.1.symm, hreads.1.2.2.symm⟩,
        ⟨hreads.2.1.symm, hreads.2.2.1.symm, hreads.2.2.2.symm⟩⟩
    | o :: o' :: o'' :: os => simp [hlist] at hreads

/-- The guest is loaded, and starts in its interpreter. -/
theorem twoFiles_run : ∃ g s', twoFiles.mapBinary 3 guestPath none emptyProcess = .ok g s' ∧
    ReadsTwo s' ∧ g.map (fun b => (b.base, b.vbrk, b.execEntry)) =
      [(0x400000, 0x402000, 0x6000b0), (0x600000, 0x602000, 0x6000b0)] :=
  readsTwo_of_summary (by decide +kernel)

/-- The protections of the pages of the interpreter. -/
def interpProts (r : EStateM.Result LoadStop Process (List LoadedBinary)) :
    Option (Option Prot × Option Prot) :=
  match r with
  | .ok _ s => some (s.space.prot 0x600000, s.space.prot 0x601000)
  | .error _ _ => none

theorem twoFiles_prots {g : List LoadedBinary} {s' : Process}
    (run : twoFiles.mapBinary 3 guestPath none emptyProcess = .ok g s') :
    s'.space.prot 0x600000 = some ⟨true, false, true⟩ ∧
      s'.space.prot 0x601000 = some ⟨true, true, false⟩ := by
  have hprots : interpProts (twoFiles.mapBinary 3 guestPath none emptyProcess) =
      some (some ⟨true, false, true⟩, some ⟨true, true, false⟩) := by decide +kernel
  rw [run] at hprots
  exact Prod.mk.inj (Option.some.inj hprots)

/-! ## Everything is in place -/

section Returned

variable {h : Host} {s s' : Process} {fuel : Nat} {name : Path} {arguments : Option Arguments}
  {g : List LoadedBinary}

/-- The binaries that `map_binary` returns are those of the files that lead on from one another
by the names of interpreters, each at the base and with the break of its own segments, and each
to be started in the next one. -/
theorem mapBinary_chain (hk : h.kernel.UserSpace)
    (run : h.mapBinary fuel name arguments s = .ok g s') (hfit : FilesFit s'.reads) :
    ∃ os, os ⊆ s'.reads ∧ Chain h (some name) os g ∧ ∀ o ∈ os, o.InPlace s'.space := by
  obtain ⟨new, hgrows, hchain⟩ := mapBinary_called hk run
  obtain ⟨os, hsub, -, hchain⟩ := hchain hfit
  refine ⟨os, fun o ho => ?_, hchain, fun o ho => hgrows.inPlace hfit o (hsub ho)⟩
  rw [hgrows.reads]
  exact List.mem_append_right _ (hsub ho)

theorem mapBinary_chain_twoFiles :
    ∃ g s', twoFiles.mapBinary 3 guestPath none emptyProcess = .ok g s' ∧
      g.map (fun b => (b.base, b.vbrk, b.execEntry)) =
        [(0x400000, 0x402000, 0x6000b0), (0x600000, 0x602000, 0x6000b0)] ∧
      ∃ os, os ⊆ s'.reads ∧ Chain twoFiles (some guestPath) os g ∧
        ∀ o ∈ os, o.InPlace s'.space := by
  obtain ⟨g, s', run, hreads, hbounds⟩ := twoFiles_run
  have hk : twoFiles.kernel.UserSpace := Kernel.user_userSpace
  exact ⟨g, s', run, hbounds, mapBinary_chain hk run hreads.fit⟩

end Returned

/-! ## Chains that do not end -/

/-- Each file of the set names an interpreter of the set. -/
def Unending (h : Host) (names : Set Path) : Prop :=
  ∀ q ∈ names, ∀ s, ∃ q' ∈ names, (h.found s q).interpName = some q'

section Descriptors

variable {h : Host} {self : Path → Load (List LoadedBinary)} {o : FoundFile} {d : Mdata}
  {limit n : Nat} {names : Set Path}

theorem Chain.not_mem {q : Option Path} {os : List FoundFile} {g : List LoadedBinary}
    (hchain : Chain h q os g) (hnames : Unending h names) : ∀ name ∈ names, q ≠ some name := by
  induction hchain with
  | null => exact fun _ _ => nofun
  | @binary s q o os b g hfile hmdata hbase hvbrk hentry hnext ih =>
    intro name hname hq
    obtain rfl := Option.some.inj hq
    obtain ⟨q', hq', hinterp⟩ := hnames q hname s
    rw [← hfile] at hinterp
    exact ih q' hq' hinterp

/-- The reasons to stop other than the depth of the recursion. -/
def InDepth (stop : LoadStop) (_ : Process) : Prop := stop ≠ .halt .diverge

theorem inDepth_minusOne (s : Process) : InDepth .minusOne s := nofun

theorem inDepth_crash (s : Process) : InDepth (.halt .crash) s := nofun

/-- So many files were read that only `n` more can be opened. -/
def Left (limit n : Nat) (s : Process) : Prop := limit ≤ s.reads.length + n

theorem initAnalysis_error {e : ElfFile} {stop : Halt} (h : initAnalysis e = .error stop) :
    stop ≠ .diverge := by
  rintro rfl
  unfold initAnalysis at h
  simp only at h
  split_ifs at h <;> cases h

theorem meets_loadSegment (ph : Phdr) (f : Frame) :
    Meets (Left limit n) (loadSegment h o ph f) (fun _ => Left limit n) InDepth := by
  unfold loadSegment
  refine .get_bind fun s hs => ?_
  split
  · exact .throw fun t _ => inDepth_minusOne t
  · refine .bind (.modify fun t ht => ?_) fun _ => .pure fun _ ht => ht
    subst ht
    exact hs

theorem meets_mapHeader (hself : ∀ q, Meets (Left limit n) (self q) (fun _ => Left limit n) InDepth)
    (f : Frame) (i : Nat) :
    Meets (Left limit n) (mapHeader h self o d f i) (fun _ => Left limit n) InDepth := by
  unfold mapHeader
  refine .get_bind fun s hs => ?_
  have hpre : ∀ t, t = s → Left limit n t := fun t ht => ht ▸ hs
  split
  · exact .throw fun t _ => inDepth_crash t
  · rename_i p hp
    simp only
    split
    · refine .bind (.pre ?_ hpre) fun g => .pure fun _ ht => ht
      exact .get_bind fun t ht => (hself _).pre fun u hu => hu ▸ ht
    · exact (meets_loadSegment _ f).pre hpre
    · exact .pure hpre

theorem meets_mapHeaders
    (hself : ∀ q, Meets (Left limit n) (self q) (fun _ => Left limit n) InDepth)
    (turns i : Nat) (f : Frame) :
    Meets (Left limit n) (mapHeaders h self o d turns i f) (fun _ => Left limit n) InDepth := by
  induction turns generalizing i f with
  | zero => exact .pure fun _ hs => hs
  | succ turns ih =>
    rw [mapHeaders]
    refine .get_bind fun s hs => .ite (fun _ => ?_) fun _ => .pure fun t ht => ht ▸ hs
    exact (Meets.bind (meets_mapHeader hself f i) fun f => ih (i + 1) f).pre fun t ht => ht ▸ hs

theorem meets_callSetupStack (f : Frame) (a : Arguments) :
    Meets (Left limit n) (callSetupStack h o d f a) (fun _ => Left limit n) InDepth := by
  unfold callSetupStack
  refine .get_bind fun s hs => ?_
  simp only
  split
  · exact .modify fun t ht => by subst ht; exact hs
  · exact .throw fun t _ => inDepth_crash t

/-- While `n` more files can be opened, `n + 1` levels of the recursion are enough. -/
theorem meets_mapBinary (hlimit : ∀ m, limit ≤ m → ∀ q, (h.finds m q).opened = false)
    (n : Nat) (name : Path) (arguments : Option Arguments) :
    Meets (Left limit n) (h.mapBinary (n + 1) name arguments) (fun _ => Left limit n) InDepth := by
  induction n generalizing name arguments with
  | zero =>
    rw [Host.mapBinary]
    refine .get_bind fun s hs => ?_
    have hclosed : (h.found s name).opened = false := by
      have hfinds := hlimit s.reads.length hs name
      simp [Host.found, hfinds]
    have hnone : initAnalysis (h.found s name).toElfFile = .ok none := by
      rw [initAnalysis, if_pos hclosed]
    simp only [hnone]
    exact .throw fun t _ => inDepth_minusOne t
  | succ n ih =>
    rw [Host.mapBinary]
    refine .get_bind fun s hs => ?_
    simp only
    split
    · rename_i stop hstop
      refine .throw fun _ _ hdiverge => ?_
      exact initAnalysis_error hstop (LoadStop.halt.inj hdiverge)
    · exact .throw fun t _ => inDepth_minusOne t
    · rename_i d hd
      have hread : ∀ t, t = s → Left limit n (t.read (h.found s name)) := by
        rintro t rfl
        simp only [Left, Process.read, List.length_append, List.length_singleton] at hs ⊢
        omega
      have hweak : ∀ t, Left limit n t → Left limit (n + 1) t := fun t ht => Nat.le_succ_of_le ht
      have hself (q : Path) := ih q none
      refine .bind (.modify hread) fun _ => .bind (meets_mapHeaders hself _ _ _) fun f => ?_
      cases arguments with
      | none => exact .bind .get fun _ => .pure hweak
      | some a => exact .bind (meets_callSetupStack f a) fun _ => .bind .get fun _ => .pure hweak

/-- When only `n` more files can be opened, the loader returns whatever the files name, from
`n + 1` levels of the recursion on; but it returns no binary for a name whose chain of
interpreters does not end. -/
theorem mapBinary_returns {s : Process} {name : Path} {arguments : Option Arguments}
    (hk : h.kernel.UserSpace) (hlimit : ∀ m, limit ≤ m → ∀ q, (h.finds m q).opened = false)
    (hleft : limit ≤ s.reads.length + n) :
    (∀ s', h.mapBinary (n + 1) name arguments s ≠ .error (.halt .diverge) s') ∧
      ∀ names, Unending h names → name ∈ names →
        ∀ g s', h.mapBinary (n + 1) name arguments s = .ok g s' → ¬ FilesFit s'.reads := by
  constructor
  · intro s' run
    exact (meets_mapBinary hlimit n name arguments).of_error hleft run rfl
  · intro names hnames hname g s' run hfit
    obtain ⟨new, -, hchain⟩ := mapBinary_called hk run
    obtain ⟨os, -, -, hchain⟩ := hchain hfit
    exact hchain.not_mem hnames name hname rfl

/-- A machine with one file under every name, which can be opened twice. -/
def oneFile : Host :=
  { twoFiles with
    finds := fun n _ =>
      if n = 0 then guestFile
      else if n = 1 then
        { guestFile with
          fbinary := 0x20000000
          fits := by
            rw [TASK_SIZE]
            decide +kernel }
      else { guestFile with opened := false } }

/-- The guest is its own interpreter, and the loader gives up. -/
theorem mapBinary_returns_oneFile :
    (∃ s', oneFile.mapBinary 3 guestPath none emptyProcess = .error .minusOne s') ∧
      (∀ s', oneFile.mapBinary 3 guestPath none emptyProcess ≠ .error (.halt .diverge) s') ∧
      ∀ names, Unending oneFile names → guestPath ∈ names →
        ∀ g s', oneFile.mapBinary 3 guestPath none emptyProcess = .ok g s' →
          ¬ FilesFit s'.reads := by
  have hk : oneFile.kernel.UserSpace := Kernel.user_userSpace
  have hlimit : ∀ m, 2 ≤ m → ∀ q, (oneFile.finds m q).opened = false := by
    intro m hm q
    have hfinds : oneFile.finds m q = { guestFile with opened := false } := by
      simp only [oneFile]
      rw [if_neg (by omega), if_neg (by omega)]
    rw [hfinds]
  refine ⟨?_, mapBinary_returns hk hlimit (by decide)⟩
  have hstop : (match oneFile.mapBinary 3 guestPath none emptyProcess with
      | .ok _ _ => none
      | .error stop _ => some stop) = some .minusOne := by decide +kernel
  cases hrun : oneFile.mapBinary 3 guestPath none emptyProcess with
  | ok g s' =>
    rw [hrun] at hstop
    cases hstop
  | error stop s' =>
    rw [hrun] at hstop
    cases hstop
    exact ⟨s', rfl⟩

end Descriptors

end Dryadalis
