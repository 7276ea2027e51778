import Dryadalis.GuestLoader

/-!
# The images of a guest and its interpreters

Every file is read into a buffer, and its segments are mapped over whatever is there.  The
calls of `map_binary` that are in progress still need their buffers, and the binaries that are
loaded already their segments.

`FoundFile.Writes` is where one file goes, and `FilesFit` says that no two files go to the same
place.  A run that returns has then built the chain of interpreters that the files name
(`Chain`), with every file and every segment in place and nothing else in memory changed
(`Grows`).
-/

namespace Dryadalis

open ByteMem Exec

/-! ## One file -/

/-- The bytes of the buffer that the file is read into. -/
def FoundFile.InBuffer (o : FoundFile) (x : Word) : Prop := InRange o.fbinary o.file.length x

/-- The pages that the segments of the file may be mapped to.  A segment reaches up to two
pages past its end. -/
def FoundFile.Maps (o : FoundFile) (x : Word) : Prop :=
  ∃ ph ∈ o.image.loads, (pageAlign (o.image.address ph)).toNat ≤ x.toNat ∧
    x.toNat < ((o.image.address ph).toNat + ph.pMemsz.toNat) / 4096 * 4096 + 0x2000

/-- What loading the file may change. -/
def FoundFile.Writes (o : FoundFile) (x : Word) : Prop := o.InBuffer x ∨ o.Maps x

/-- Where the name is that a header gives to the interpreter. -/
def FoundFile.nameOfft (o : FoundFile) (ph : Phdr) : Word :=
  if o.mdata.pie then ph.pVaddr else ph.pOffset

/-- The name that a header gives to the interpreter. -/
def FoundFile.nameAt (o : FoundFile) (ph : Phdr) : Path :=
  cString o.memory PATH_MAX (o.fbinary + o.nameOfft ph)

/-- The last header that names an interpreter. -/
def interpOf (phs : List Phdr) : Option Phdr :=
  (phs.filter fun ph => ph.pType = .INTERP).getLast?

/-- The interpreter that the file names. -/
def FoundFile.interpName (o : FoundFile) : Option Path := (interpOf o.image.sPh).map o.nameAt

/-- The load base and the break after a segment. -/
def boundsAfter (b : Binary) (bounds : Word × Word) (ph : Phdr) : Word × Word :=
  if bounds.1 = 0 then
    (firstAddress b ph,
      if ph.pfW then firstAddress b ph + fileMapLength 0 ph.pFilesz + 1 else bounds.2)
  else (bounds.1, breakAfter (loadAddress b bounds.1 ph) ph bounds.2)

/-- The load base and the break after the segments among program headers. -/
def boundsOf (b : Binary) (phs : List Phdr) : Word × Word :=
  (loadsOf phs).foldl (boundsAfter b) (0, 0)

/-- The load base of the file. -/
def FoundFile.loadBase (o : FoundFile) : Word := (boundsOf o.image o.image.sPh).1

/-- The break that the file leaves. -/
def FoundFile.loadBreak (o : FoundFile) : Word := (boundsOf o.image o.image.sPh).2

/-- Where the file starts. -/
def FoundFile.entry (o : FoundFile) : Word := entryPoint o.memory o.mdata o.loadBase

/-- The headers and the names of interpreters are in the file, its segments are laid out as the
loader expects, and they are not mapped over the buffer. -/
structure FoundFile.Fits (o : FoundFile) : Prop where
  long : o.LongEnough
  conforms : Conforms o.image Phdr.extent
  filesz_le : ∀ ph ∈ o.image.loads, ph.pFilesz ≤ ph.pMemsz
  within : ∀ ph ∈ o.image.loads,
    (if o.image.pie then o.baseAddress.toNat else 0) + ph.pVaddr.toNat + ph.pMemsz.toNat < 2 ^ 64
  names : ∀ ph ∈ o.image.sPh, ph.pType = .INTERP →
    (o.nameOfft ph).toNat + (o.nameAt ph).length < o.file.length
  apart : ∀ x, o.InBuffer x → ¬ o.Maps x

/-- The first segment among program headers is at the load base. -/
def StartsAt (b : Binary) (phs : List Phdr) (base : Word) : Prop :=
  ∀ ph, (loadsOf phs).head? = some ph → base = b.address ph

/-- The file is in its buffer, its segments are in memory, and the first is at the load base. -/
structure FoundFile.InPlace (o : FoundFile) (m : Space) : Prop where
  held : SameBytes o.memory m.byte o.fbinary o.file.length
  image : ∀ ph ∈ o.image.loads, HasImage o.image ph m
  start : StartsAt o.image o.image.sPh o.loadBase

/-- Every file fits, and no two go to the same place. -/
structure FilesFit (os : List FoundFile) : Prop where
  fits : ∀ o ∈ os, o.Fits
  apart : os.Pairwise fun o o' => ∀ x, o.Writes x → ¬ o'.Writes x

/-- The files and the binaries that are loaded for a name: each is the interpreter that the
one before it names, and each starts where the next one does. -/
inductive Chain (h : Host) : Option Path → List FoundFile → List LoadedBinary → Prop where
  | null : Chain h none [] []
  | binary {s q o os b g} (file : o = h.found s q) (mdata : b.mdata = o.mdata)
      (base : b.base = o.loadBase) (vbrk : b.vbrk = o.loadBreak)
      (entry : b.execEntry = (os.head?.getD o).entry) (next : Chain h o.interpName os g) :
      Chain h (some q) (o :: os) (b :: g)

/-- The part of a run between two states has read the files `new`, put them into place, and
changed nothing else. -/
structure Grows (s s' : Process) (new : List FoundFile) : Prop where
  reads : s'.reads = s.reads ++ new
  rest : FilesFit s'.reads → ∀ x, (∀ o ∈ new, ¬ o.Writes x) → s'.space.byte x = s.space.byte x
  inPlace : FilesFit s'.reads → ∀ o ∈ new, o.InPlace s'.space

/-! ## Strings -/

/-- A string depends on its own bytes, and on the zero byte after it. -/
theorem cString_congr {m m' : Word → Byte} {n : Nat} {p : Word}
    (hsame : SameBytes m m' p ((cString m n p).length + 1)) : cString m' n p = cString m n p := by
  induction n generalizing p with
  | zero => rfl
  | succ n ih =>
    have hhead : m p = m' p := by
      have hfirst := hsame 0 (Nat.succ_pos _)
      rwa [window, window, show p + BitVec.ofNat 64 0 = p from BitVec.add_zero p] at hfirst
    rw [cString] at hsame
    rw [cString, cString, ← hhead]
    split
    · rfl
    · rename_i hne
      rw [if_neg hne, List.length_cons] at hsame
      have htail : SameBytes m m' (p + 1) ((cString m n (p + 1)).length + 1) := by
        have hadd := hsame.add 1 ((cString m n (p + 1)).length + 1) (by omega)
        exact hadd
      rw [ih htail]

theorem cString_ne_zero {m : Word → Byte} {n : Nat} {p : Word} {j : Nat}
    (hj : j < (cString m n p).length) : m (p + BitVec.ofNat 64 j) ≠ 0 := by
  induction n generalizing p j with
  | zero => cases hj
  | succ n ih =>
    rw [cString] at hj
    split at hj
    · cases hj
    · rename_i hne
      cases j with
      | zero =>
        rw [show p + BitVec.ofNat 64 0 = p from BitVec.add_zero p]
        exact hne
      | succ j =>
        have htail := ih (p := p + 1) (j := j) (Nat.lt_of_succ_lt_succ hj)
        rwa [BitVec.add_assoc, show (1 : Word) = BitVec.ofNat 64 1 from rfl, ← BitVec.ofNat_add,
          Nat.add_comm] at htail

/-! ## What a turn of the loop reads -/

section Turn

variable {h : Host} {self : Path → Load (List LoadedBinary)} {o : FoundFile} {d : Mdata}
  {m m' : Word → Byte} {p : Word} {f : Frame} {s : Process} {i : Nat}

/-- The header at `p`, and the name if it is that of an interpreter. -/
def Mdata.turn (d : Mdata) (m : Word → Byte) (p : Word) : Phdr × Path :=
  let ph := readPhdr m p
  (ph, if ph.pType = .INTERP then cString m PATH_MAX (d.interpStr ph) else [])

/-- What is done with a header and a name. -/
def mapTurn (h : Host) (self : Path → Load (List LoadedBinary)) (o : FoundFile) (f : Frame)
    (turn : Phdr × Path) : Load Frame :=
  match turn.1.pType with
  | .INTERP => do
    let interp ← self turn.2
    return { f with interp := interp }
  | .LOAD => loadSegment h o turn.1 f
  | .other _ => return f

/-- A turn reads a header and a name, and nothing else of the file. -/
theorem mapHeader_eq_turn (hp : d.sPh[i]? = some p) :
    mapHeader h self o d f i s = mapTurn h self o f (d.turn s.space.byte p) s := by
  rw [mapHeader, bind_of_ok (get_apply s), mapTurn]
  simp only [hp, Mdata.turn]
  cases htype : (readPhdr s.space.byte p).pType with
  | INTERP =>
    simp only [if_pos]
    rfl
  | LOAD => rfl
  | other n => rfl

/-- What it reads are the bytes of `LoopReads`. -/
theorem turn_congr (hsame : ∀ x, LoopReads m d p x → m x = m' x) : d.turn m p = d.turn m' p := by
  have hphdr : readPhdr m p = readPhdr m' p :=
    SameBytes.readPhdr fun i hi => hsame _ (.header hi)
  rw [Mdata.turn, Mdata.turn, ← hphdr]
  by_cases htype : (readPhdr m p).pType = .INTERP
  · have hname : cString m' PATH_MAX (d.interpStr (readPhdr m p)) =
        cString m PATH_MAX (d.interpStr (readPhdr m p)) := by
      refine cString_congr fun i hi => hsame _ (.name htype fun j hj => ?_)
      exact cString_ne_zero (Nat.lt_of_lt_of_le hj (Nat.le_of_lt_succ hi))
    simp only [if_pos htype, hname]
  · simp only [if_neg htype]

/-- A turn over a file that is long enough and has the names of its interpreters in it depends
on nothing but the file, as long as its buffer holds it. -/
theorem turn_of_held {e : ElfFile} (hlong : e.LongEnough) (hnames : e.NamesInside)
    (hheld : SameBytes e.memory m e.fbinary e.file.length) (hp : p ∈ e.mdata.sPh) :
    e.mdata.turn m p = e.mdata.turn e.memory p := by
  refine (turn_congr fun x hx => ?_).symm
  have hin := loopReads_inFile hlong hnames (fun _ _ => rfl) hp hx
  have hbyte := hheld.of_inFile hin 0 Nat.one_pos
  rwa [window, window, show x + BitVec.ofNat 64 0 = x from BitVec.add_zero x] at hbyte

end Turn

/-! ## What a file needs -/

/-- The file is held while nothing is written to its buffer. -/
theorem SameBytes.of_buffer {o : FoundFile} {m m' : Word → Byte}
    (hheld : SameBytes o.memory m o.fbinary o.file.length)
    (hkeep : ∀ x, o.InBuffer x → m' x = m x) :
    SameBytes o.memory m' o.fbinary o.file.length := by
  intro j hj
  have hlen : o.file.length ≤ 2 ^ 64 := by
    have hsize := o.fits
    have htask := TASK_SIZE_lt
    omega
  exact (hheld j hj).trans (hkeep _ (inRange_add hj hlen)).symm

section OneFile

variable {h : Host} {o : FoundFile} {m m' : Space} {ph : Phdr} {i : Nat} {x : Word}

theorem FoundFile.Fits.loadable (hfit : o.Fits) : Loadable o.image where
  filesz_le := hfit.filesz_le
  address_lt ph hph hpie := by
    have hwithin := hfit.within ph hph
    rw [if_pos hpie] at hwithin
    have hbase : o.image.baseAddress = o.baseAddress := rfl
    rw [hbase]
    omega
  interp done interp rest _ _ m m' hm ph _ i _ := by
    cases hm
    rfl

theorem FoundFile.Fits.end_lt (hfit : o.Fits) (hph : ph ∈ o.image.loads) :
    (o.image.address ph).toNat + ph.pMemsz.toNat < 2 ^ 64 := by
  rw [address_toNat (hfit.loadable.address_lt ph hph)]
  exact hfit.within ph hph

/-- The bytes of a segment are in the pages of the file. -/
theorem FoundFile.Fits.maps (hfit : o.Fits) (hph : ph ∈ o.image.loads)
    (hi : i < ph.pMemsz.toNat) : o.Maps (o.image.address ph + BitVec.ofNat 64 i) := by
  have hend := hfit.end_lt hph
  have halign := pageAlign_toNat (o.image.address ph)
  refine ⟨ph, hph, ?_, ?_⟩
  · rw [add_ofNat_toNat (by omega)]
    omega
  · rw [add_ofNat_toNat (by omega)]
    omega

/-- A file stays in place while nothing that it needs is written. -/
theorem FoundFile.InPlace.congr (hin : o.InPlace m) (hfit : o.Fits)
    (hkeep : ∀ x, o.Writes x → m'.byte x = m.byte x) : o.InPlace m' where
  held := hin.held.of_buffer fun x hx => hkeep x (.inl hx)
  image ph hph :=
    (hin.image ph hph).congr (hfit.filesz_le ph hph)
      fun _ hi => hkeep _ (.inr (hfit.maps hph hi))
  start := hin.start

theorem interpOf_append_interp {phs : List Phdr} (htype : ph.pType = .INTERP) :
    interpOf (phs ++ [ph]) = some ph := by
  simp [interpOf, htype]

theorem interpOf_append_other {phs : List Phdr} (htype : ph.pType ≠ .INTERP) :
    interpOf (phs ++ [ph]) = interpOf phs := by
  simp [interpOf, htype]

theorem boundsOf_append_load (b : Binary) {phs : List Phdr} (htype : ph.pType = .LOAD) :
    boundsOf b (phs ++ [ph]) = boundsAfter b (boundsOf b phs) ph := by
  rw [boundsOf, loadsOf_append_load htype, List.foldl_append]
  rfl

theorem boundsOf_append_skip (b : Binary) {phs : List Phdr} (htype : ph.pType ≠ .LOAD) :
    boundsOf b (phs ++ [ph]) = boundsOf b phs := by
  rw [boundsOf, loadsOf_append_skip htype]
  rfl

theorem mapLoad_bounds {k : Kernel} (hk : k.UserSpace) {b : Binary} {l l' : Loader}
    (hmap : mapLoad k b ph l = some l') :
    (l'.base, l'.vbrk) = boundsAfter b (l.base, l.vbrk) ph := by
  rw [boundsAfter]
  by_cases hbase : l.base = 0
  · rw [if_pos hbase, mapLoad_first_base hbase hmap, mapLoad_first_vbrk hbase hmap]
  · rw [if_neg hbase, mapLoad_later_base hk hbase hmap, mapLoad_later_vbrk hk hbase hmap]

/-- The first segment is mapped where it belongs. -/
theorem firstAddress_eq (hfit : o.Fits) (hhead : o.image.loads.head? = some ph) :
    firstAddress o.image ph = o.image.address ph := by
  rw [firstAddress, Binary.address, loadAddress]
  split
  · rename_i hpie
    rw [(hfit.conforms.first ph hhead).2.2.1 hpie]
    exact (BitVec.add_zero _).symm
  · rfl

theorem StartsAt.load {k : Kernel} (hk : k.UserSpace) (hfit : o.Fits) {done rest : List Phdr}
    {l l' : Loader} (hsplit : done ++ ph :: rest = o.image.sPh) (hload : ph.pType = .LOAD)
    (hbase : BaseSet o.image done l) (hstart : StartsAt o.image done l.base)
    (hmap : mapLoad k o.image ph l = some l') : StartsAt o.image (done ++ [ph]) l'.base := by
  intro q hq
  rw [loadsOf_append_load hload] at hq
  by_cases hnone : loadsOf done = []
  · rw [hnone] at hq
    cases hq
    have hhead : o.image.loads.head? = some ph := by
      rw [loads_of_split hsplit hload, hnone]
      rfl
    rw [mapLoad_first_base (hbase.unset hnone) hmap, firstAddress_eq hfit hhead]
  · rw [List.head?_append_of_ne_nil _ hnone] at hq
    rw [mapLoad_later_base hk (hbase.set hnone).1 hmap, hstart q hq]

/-- Loading a segment changes nothing but its pages. -/
theorem mapLoad_rest {k : Kernel} (hk : k.UserSpace) (hfit : o.Fits) {done rest : List Phdr}
    {l l' : Loader} (hsplit : done ++ ph :: rest = o.image.sPh) (hload : ph.pType = .LOAD)
    (hbase : BaseSet o.image done l) (hmap : mapLoad k o.image ph l = some l')
    (hx : ¬ o.Maps x) : l'.space.byte x = l.space.byte x := by
  have hloads := loads_of_split hsplit hload
  have hph : ph ∈ o.image.loads := by simp [hloads]
  have hle := BitVec.le_def.mp (hfit.filesz_le ph hph)
  have hend := hfit.end_lt hph
  have hpage := fileEnd_toNat
    (show (o.image.address ph).toNat + ph.pFilesz.toNat < 2 ^ 64 by omega)
  have hout : ¬ ((pageAlign (o.image.address ph)).toNat ≤ x.toNat ∧
      x.toNat < ((o.image.address ph).toNat + ph.pMemsz.toNat) / 4096 * 4096 + 0x2000) :=
    fun hin => hx ⟨ph, hph, hin⟩
  have halign := pageAlign_toNat (o.image.address ph)
  by_cases hnone : loadsOf done = []
  · have hhead : o.image.loads.head? = some ph := by
      rw [hloads, hnone]
      rfl
    have hfirst := mapLoad_loadedFirst hk (hbase.unset hnone) hmap
    rw [firstAddress_eq hfit hhead] at hfirst
    rw [hfirst.byte, if_neg (by omega)]
  · have hloaded := mapLoad_loaded hk (hbase.set hnone).1 hmap
    rw [hbase.loadAddress hnone] at hloaded
    have hbss := bssEnd_toNat hloaded.memsz_le
    rw [hloaded.byte, if_neg, if_neg, if_neg]
    · omega
    · omega
    · rintro ⟨-, hlo, hhi⟩
      have hfile := hloaded.file.le
      omega

end OneFile

/-! ## Files that fit together -/

theorem FilesFit.of_append {os os' : List FoundFile} (hfit : FilesFit (os ++ os')) :
    FilesFit os where
  fits o ho := hfit.fits o (List.mem_append_left _ ho)
  apart := (List.pairwise_append.mp hfit.apart).1

theorem FilesFit.apart_of_append {os os' : List FoundFile} {o o' : FoundFile} {x : Word}
    (hfit : FilesFit (os ++ os')) (ho : o ∈ os) (ho' : o' ∈ os') (hx : o.Writes x) :
    ¬ o'.Writes x :=
  (List.pairwise_append.mp hfit.apart).2.2 o ho o' ho' x hx

/-! ## What is read of a file that is held -/

section Held

variable {o : FoundFile} {m : Word → Byte} {p : Word} {n i : Nat} {ph : Phdr}

theorem ePhnum_of_held (hlong : o.LongEnough)
    (hheld : SameBytes o.memory m o.fbinary o.file.length) :
    ePhnum m o.fbinary = ePhnum o.memory o.fbinary := by
  have hheader := hheld.of_inFile (header_inFile hlong)
  exact (hheader.add 56 2 (by decide)).load16.symm

theorem entryPoint_of_held (hlong : o.LongEnough)
    (hheld : SameBytes o.memory m o.fbinary o.file.length) (base : Word) :
    entryPoint m o.mdata base = entryPoint o.memory o.mdata base := by
  have hheader := hheld.of_inFile (header_inFile hlong)
  have hentry : eEntry m o.mdata.eh = eEntry o.memory o.mdata.eh :=
    (hheader.add 24 8 (by decide)).load64.symm
  rw [entryPoint, entryPoint, hentry]

theorem sPh_length : o.image.sPh.length = (ePhnum o.memory o.fbinary).toNat := by
  have hlist : o.image.sPh = o.mdata.sPh.map (readPhdr o.memory) := rfl
  have hptrs : o.mdata.sPh = (List.range (ePhnum o.memory o.fbinary).toNat).map
      (phdrAddress o.memory o.fbinary) := parsePhdr_allocPh
  rw [hlist, hptrs]
  simp

/-- The header of a turn is the one of the file. -/
theorem header_split (hlong : o.LongEnough)
    (hheld : SameBytes o.memory m o.fbinary o.file.length) (hp : o.mdata.sPh[i]? = some p) :
    o.image.sPh.take i ++ readPhdr m p :: o.image.sPh.drop (i + 1) = o.image.sPh ∧
      o.image.sPh.take (i + 1) = o.image.sPh.take i ++ [readPhdr m p] := by
  have hget : o.image.sPh[i]? = some (readPhdr o.memory p) := by
    show (o.mdata.sPh.map (readPhdr o.memory))[i]? = _
    rw [List.getElem?_map, hp]
    rfl
  obtain ⟨hi, hget⟩ := List.getElem?_eq_some_iff.mp hget
  have hnum := hi
  rw [sPh_length] at hnum
  have haddr : p = phdrAddress o.memory o.fbinary i := by
    have hfirst : o.mdata.sPh[i]? = some (phdrAddress o.memory o.fbinary i) := sPh_getElem? hnum
    exact Option.some.inj (hp.symm.trans hfirst)
  have hin := phdrs_inFile_iff.mpr hlong.2 i hnum
  rw [← haddr] at hin
  have hread : readPhdr m p = readPhdr o.memory p := (hheld.of_inFile hin).readPhdr.symm
  rw [hread, ← hget]
  exact ⟨by simp, by simp⟩

/-- The name that is read in a turn is the one in the file. -/
theorem nameAt_of_held (hfit : o.Fits) (hheld : SameBytes o.memory m o.fbinary o.file.length)
    (hmem : ph ∈ o.image.sPh) (htype : ph.pType = .INTERP) :
    cString m PATH_MAX (o.fbinary + o.nameOfft ph) = o.nameAt ph := by
  have hname := hfit.names ph hmem htype
  apply cString_congr
  have hadd := hheld.add (o.nameOfft ph).toNat ((o.nameAt ph).length + 1) (by omega)
  rwa [BitVec.ofNat_toNat, BitVec.setWidth_eq] at hadd

end Held

/-! ## The loop -/

/-- What the loop for the file `o` has done after `i` turns, when it has read the files `new`. -/
structure LoadedTo (h : Host) (o : FoundFile) (s₀ : Process) (new : List FoundFile) (i : Nat)
    (f : Frame) (s : Process) : Prop where
  held : SameBytes o.memory s.space.byte o.fbinary o.file.length
  imaged : Imaged o.image (o.image.sPh.take i) ⟨s.space, f.base, f.vbrk⟩
  bounds : (f.base, f.vbrk) = boundsOf o.image (o.image.sPh.take i)
  start : StartsAt o.image (o.image.sPh.take i) f.base
  rest : ∀ x, ¬ o.Writes x → (∀ o' ∈ new, ¬ o'.Writes x) → s.space.byte x = s₀.space.byte x
  inPlace : ∀ o' ∈ new, o'.InPlace s.space
  chain : ∃ os, os ⊆ new ∧ Chain h ((interpOf (o.image.sPh.take i)).map o.nameAt) os f.interp

/-- What a call of `map_binary` for a name has done. -/
def Called (h : Host) (name : Path) (s s' : Process) (g : List LoadedBinary) : Prop :=
  ∃ new, Grows s s' new ∧
    (FilesFit s'.reads → ∃ os, os ⊆ new ∧ os.head? = some (h.found s name) ∧
      Chain h (some name) os g)

section Loop

variable {h : Host} {self : Path → Load (List LoadedBinary)} {o : FoundFile} {s₀ s s' : Process}
  {f f' : Frame} {new new' : List FoundFile} {ph : Phdr} {p : Word} {i : Nat}
  {g : List LoadedBinary} {l : Loader}

/-- A turn that loads the interpreter. -/
theorem LoadedTo.interp (ht : LoadedTo h o s₀ new i f s) (hgrows : Grows s s' new')
    (ho : o ∈ s.reads) (hnew : new ⊆ s.reads) (hfit : FilesFit s'.reads)
    (hp : o.mdata.sPh[i]? = some p) (htype : (readPhdr s.space.byte p).pType = .INTERP)
    (hchain : ∃ os, os ⊆ new' ∧
      Chain h (some (o.nameAt (readPhdr s.space.byte p))) os g) :
    LoadedTo h o s₀ (new ++ new') (i + 1) { f with interp := g } s' := by
  have hfit' := hfit
  rw [hgrows.reads] at hfit'
  have hfits := hfit'.fits o (List.mem_append_left _ ho)
  obtain ⟨hsplit, htake⟩ := header_split hfits.long ht.held hp
  have hother : ∀ o' ∈ s.reads, ∀ x, o'.Writes x → s'.space.byte x = s.space.byte x :=
    fun o' ho' x hx => hgrows.rest hfit x fun o'' ho'' => hfit'.apart_of_append ho' ho'' hx
  have hskip : (readPhdr s.space.byte p).pType ≠ .LOAD := by
    rw [htype]
    nofun
  constructor
  · exact ht.held.of_buffer fun x hx => hother o ho x (.inl hx)
  · rw [htake]
    refine ht.imaged.skip hskip rfl fun q hq => ?_
    have hmem : q ∈ o.image.loads := by
      rw [Binary.loads, ← hsplit, mem_loadsOf]
      exact ⟨List.mem_append_left _ (mem_loadsOf.mp hq).1, (mem_loadsOf.mp hq).2⟩
    exact (ht.imaged.image q hq).congr (hfits.filesz_le q hmem)
      fun j hj => hother o ho _ (.inr (hfits.maps hmem hj))
  · rw [htake, boundsOf_append_skip _ hskip]
    exact ht.bounds
  · rw [htake, StartsAt, loadsOf_append_skip hskip]
    exact ht.start
  · intro x hx hrest
    rw [hgrows.rest hfit x fun o' ho' => hrest o' (List.mem_append_right _ ho')]
    exact ht.rest x hx fun o' ho' => hrest o' (List.mem_append_left _ ho')
  · intro o' ho'
    rcases List.mem_append.mp ho' with ho' | ho'
    · exact (ht.inPlace o' ho').congr (hfit'.fits o' (List.mem_append_left _ (hnew ho')))
        (hother o' (hnew ho'))
    · exact hgrows.inPlace hfit o' ho'
  · obtain ⟨os, hsub, hchain⟩ := hchain
    refine ⟨os, fun o' ho' => List.mem_append_right _ (hsub ho'), ?_⟩
    rw [htake, interpOf_append_interp htype]
    exact hchain

/-- A turn that loads a segment. -/
theorem LoadedTo.load (hk : h.kernel.UserSpace) (ht : LoadedTo h o s₀ new i f s)
    (hfit : FilesFit s.reads) (ho : o ∈ s.reads)
    (happart : ∀ o' ∈ new, o'.Fits ∧ ∀ x, o'.Writes x → ¬ o.Writes x)
    (hp : o.mdata.sPh[i]? = some p) (htype : (readPhdr s.space.byte p).pType = .LOAD)
    (hmap : mapLoad h.kernel o.image (readPhdr s.space.byte p) ⟨s.space, f.base, f.vbrk⟩ = some l) :
    LoadedTo h o s₀ new (i + 1) { f with base := l.base, vbrk := l.vbrk }
      { s with space := l.space } := by
  have hfits := hfit.fits o ho
  obtain ⟨hsplit, htake⟩ := header_split hfits.long ht.held hp
  have hrest : ∀ x, ¬ o.Maps x → l.space.byte x = s.space.byte x := fun x hx =>
    mapLoad_rest hk hfits hsplit htype ht.imaged.toBaseSet hmap hx
  have hother : ∀ o' ∈ new, ∀ x, o'.Writes x → l.space.byte x = s.space.byte x :=
    fun o' ho' x hx => hrest x fun hmaps => (happart o' ho').2 x hx (.inr hmaps)
  constructor
  · exact ht.held.of_buffer fun x hx => hrest x (hfits.apart x hx)
  · rw [htake]
    refine ht.imaged.step hk hfits.conforms hfits.loadable hsplit ?_
    rw [mapPhdr, htype]
    exact hmap
  · rw [htake, boundsOf_append_load _ htype, ← ht.bounds]
    exact mapLoad_bounds hk hmap
  · rw [htake]
    exact ht.start.load hk hfits hsplit htype ht.imaged.toBaseSet hmap
  · intro x hx hnew
    exact (hrest x fun hmaps => hx (.inr hmaps)).trans (ht.rest x hx hnew)
  · exact fun o' ho' => (ht.inPlace o' ho').congr (happart o' ho').1 (hother o' ho')
  · rw [htake, interpOf_append_other (by simp [htype])]
    exact ht.chain

/-- A turn for a header that does not matter. -/
theorem LoadedTo.skip (ht : LoadedTo h o s₀ new i f s) (hlong : o.LongEnough)
    (hp : o.mdata.sPh[i]? = some p) (hinterp : (readPhdr s.space.byte p).pType ≠ .INTERP)
    (hload : (readPhdr s.space.byte p).pType ≠ .LOAD) : LoadedTo h o s₀ new (i + 1) f s := by
  obtain ⟨-, htake⟩ := header_split hlong ht.held hp
  refine ⟨ht.held, ?_, ?_, ?_, ht.rest, ht.inPlace, ?_⟩
  · rw [htake]
    exact ht.imaged.skip hload rfl ht.imaged.image
  · rw [htake, boundsOf_append_skip _ hload]
    exact ht.bounds
  · rw [htake, StartsAt, loadsOf_append_skip hload]
    exact ht.start
  · rw [htake, interpOf_append_other hinterp]
    exact ht.chain

/-- The loop has read the files `new`, and has done its turns for them if they fit. -/
def Looped (h : Host) (o : FoundFile) (s₀ : Process) (i : Nat) (f : Frame) (s : Process) : Prop :=
  ∃ new, s.reads = s₀.reads ++ new ∧ (FilesFit s.reads → LoadedTo h o s₀ new i f s)

theorem mapHeader_looped (hk : h.kernel.UserSpace)
    (hself : ∀ {name t g t'}, self name t = .ok g t' → Called h name t t' g)
    (ho : o ∈ s₀.reads) (hloop : Looped h o s₀ i f s)
    (run : mapHeader h self o o.mdata f i s = .ok f' s') : Looped h o s₀ (i + 1) f' s' := by
  obtain ⟨new, hreads, hturned⟩ := hloop
  have hmem : o ∈ s.reads := by
    rw [hreads]
    exact List.mem_append_left _ ho
  have hnew : new ⊆ s.reads := by
    rw [hreads]
    exact List.subset_append_right _ _
  obtain ⟨p, hp, ⟨htype, g, hrun, rfl⟩ | ⟨htype, hrun⟩ | ⟨hinterp, hload, rfl, rfl⟩⟩ :=
    mapHeader_ok run
  · rw [loadInterp, bind_of_ok (get_apply s)] at hrun
    obtain ⟨new', hgrows, hchain⟩ := hself hrun
    refine ⟨new ++ new', by rw [hgrows.reads, hreads, List.append_assoc], fun hfit => ?_⟩
    have hbefore : FilesFit s.reads := by
      rw [hgrows.reads] at hfit
      exact hfit.of_append
    have ht := hturned hbefore
    have hfits := hbefore.fits o hmem
    have hheader : readPhdr s.space.byte p ∈ o.image.sPh := by
      rw [← (header_split hfits.long ht.held hp).1]
      exact List.mem_append_right _ List.mem_cons_self
    have hname := nameAt_of_held hfits ht.held hheader htype
    refine ht.interp hgrows hmem hnew hfit hp htype ?_
    rw [← hname]
    obtain ⟨os, hsub, -, hchain⟩ := hchain hfit
    exact ⟨os, hsub, hchain⟩
  · obtain ⟨l, hmap, rfl, rfl⟩ := loadSegment_ok hrun
    refine ⟨new, hreads, fun hfit => ?_⟩
    refine (hturned hfit).load hk hfit hmem (fun o' ho' => ⟨hfit.fits o' (hnew ho'), ?_⟩)
      hp htype hmap
    intro x hx hown
    rw [hreads] at hfit
    exact hfit.apart_of_append ho ho' hown hx
  · exact ⟨new, hreads, fun hfit =>
      (hturned hfit).skip (hfit.fits o hmem).long hp hinterp hload⟩

/-- The loop of `map_binary`. -/
theorem mapHeaders_looped (hk : h.kernel.UserSpace)
    (hself : ∀ {name t g t'}, self name t = .ok g t' → Called h name t t' g)
    (ho : o ∈ s₀.reads) (hread : s₀.space.byte = o.memory)
    (run : mapHeaders h self o o.mdata (2 ^ 16) 0 ⟨0, 0, []⟩ s₀ = .ok f s) :
    ∃ new, s.reads = s₀.reads ++ new ∧
      (FilesFit s.reads → LoadedTo h o s₀ new o.image.sPh.length f s) := by
  have hstart : Looped h o s₀ 0 ⟨0, 0, []⟩ s₀ := by
    refine ⟨[], (List.append_nil _).symm, fun _ => ?_⟩
    refine ⟨fun j _ => by rw [hread], ?_, rfl, nofun, fun _ _ _ => rfl,
      fun o' ho' => absurd ho' List.not_mem_nil, [], List.nil_subset _, .null⟩
    exact ⟨⟨fun _ => rfl, fun hsome => absurd rfl hsome⟩, fun q hq => absurd hq List.not_mem_nil⟩
  obtain ⟨n, hn, new, hreads, hturned⟩ :=
    mapHeaders_induct (motive := Looped h o s₀)
      (fun _ hloop hturn => mapHeader_looped hk hself ho hloop hturn) hstart (by decide) run
  refine ⟨new, hreads, fun hfit => ?_⟩
  have ht := hturned hfit
  have hmem : o ∈ s.reads := by
    rw [hreads]
    exact List.mem_append_left _ ho
  have hnum := ePhnum_of_held (hfit.fits o hmem).long ht.held
  have hlen : o.image.sPh.length ≤ n := by
    rw [sPh_length, ← hnum]
    exact hn
  have htake : o.image.sPh.take n = o.image.sPh.take o.image.sPh.length := by
    rw [List.take_of_length_le hlen, List.take_length]
  exact ⟨ht.held, htake ▸ ht.imaged, htake ▸ ht.bounds, htake ▸ ht.start, ht.rest, ht.inPlace,
    htake ▸ ht.chain⟩

end Loop

/-! ## The loop over an address space -/

/-- What the calls for the interpreters of a file do to the address space: it is `interp`,
and keeps the file in its buffer. -/
structure Interprets (call : Path → Load (List LoadedBinary)) (o : FoundFile)
    (interp : Space → Option Space) : Prop where
  runs : ∀ ph ∈ o.image.sPh, ph.pType = .INTERP → ∀ t g t', call (o.nameAt ph) t = .ok g t' →
    interp t.space = some t'.space
  kept : ∀ m m', interp m = some m' → ∀ x, o.InBuffer x → m'.byte x = m.byte x

section AddressSpace

variable {h : Host} {self : Path → Load (List LoadedBinary)} {o : FoundFile} {s₀ s s' : Process}
  {f f' : Frame} {i : Nat} {interp : Space → Option Space}

/-- The loop has done with the address space what `mapBinary` does for the headers so far. -/
structure Folded (h : Host) (o : FoundFile) (interp : Space → Option Space) (s₀ : Process) (i : Nat)
    (f : Frame) (s : Process) : Prop where
  held : SameBytes o.memory s.space.byte o.fbinary o.file.length
  based : BaseSet o.image (o.image.sPh.take i) ⟨s.space, f.base, f.vbrk⟩
  folded : (o.image.sPh.take i).foldlM
    (mapPhdr h.kernel (o.toElfFile.binary o.baseAddress interp)) ⟨s₀.space, 0, 0⟩ =
      some ⟨s.space, f.base, f.vbrk⟩

theorem mapHeader_folded (hk : h.kernel.UserSpace) (hfit : o.Fits)
    (hinterp : Interprets self o interp) (hfold : Folded h o interp s₀ i f s)
    (run : mapHeader h self o o.mdata f i s = .ok f' s') :
    Folded h o interp s₀ (i + 1) f' s' := by
  obtain ⟨held, based, folded⟩ := hfold
  obtain ⟨p, hp, hturn⟩ := mapHeader_ok run
  obtain ⟨hsplit, htake⟩ := header_split hfit.long held hp
  have hheader : readPhdr s.space.byte p ∈ o.image.sPh := by
    rw [← hsplit]
    exact List.mem_append_right _ List.mem_cons_self
  -- The header of this turn is the next one of the fold.
  have hstep (l : Loader) (hmap : mapPhdr h.kernel (o.toElfFile.binary o.baseAddress interp)
      ⟨s.space, f.base, f.vbrk⟩ (readPhdr s.space.byte p) = some l) :
      (o.image.sPh.take (i + 1)).foldlM
        (mapPhdr h.kernel (o.toElfFile.binary o.baseAddress interp)) ⟨s₀.space, 0, 0⟩ =
          some l := by
    rw [htake, List.foldlM_append, folded]
    simp [hmap]
  obtain ⟨htype, g, hrun, rfl⟩ | ⟨htype, hrun⟩ | ⟨hnone, hload, rfl, rfl⟩ := hturn
  · rw [loadInterp, bind_of_ok (get_apply s)] at hrun
    have hname := nameAt_of_held hfit held hheader htype
    have hspace : interp s.space = some s'.space := by
      refine hinterp.runs _ hheader htype s g s' ?_
      rw [← hname]
      exact hrun
    refine ⟨held.of_buffer (hinterp.kept _ _ hspace), ?_, hstep _ ?_⟩
    · rw [htake]
      exact based.skip (by simp [htype]) rfl
    · rw [mapPhdr, htype]
      show (interp s.space).map _ = _
      rw [hspace]
      rfl
  · obtain ⟨l, hmap, rfl, rfl⟩ := loadSegment_ok hrun
    have hrest : ∀ x, ¬ o.Maps x → l.space.byte x = s.space.byte x := fun x hx =>
      mapLoad_rest hk hfit hsplit htype based hmap hx
    refine ⟨held.of_buffer fun x hx => hrest x (hfit.apart x hx), ?_, hstep _ ?_⟩
    · rw [htake]
      exact based.load hk htype hmap
    · rw [mapPhdr, htype]
      exact hmap
  · refine ⟨held, ?_, hstep _ ?_⟩
    · rw [htake]
      exact based.skip hload rfl
    · rw [mapPhdr]
      split
      · contradiction
      · contradiction
      · rfl

/-- The loop of `map_binary` reads its headers from a buffer in the memory that it maps
segments into.  For a file that fits this is `mapBinary`, over the headers of the file. -/
theorem mapBinary_of_mapHeaders (hk : h.kernel.UserSpace) (hfit : o.Fits)
    (hinterp : Interprets self o interp) (hread : s₀.space.byte = o.memory)
    (run : mapHeaders h self o o.mdata (2 ^ 16) 0 ⟨0, 0, []⟩ s₀ = .ok f s) :
    mapBinary h.kernel (o.toElfFile.binary o.baseAddress interp) s₀.space =
      some ⟨s.space, f.base, f.vbrk⟩ := by
  have hstart : Folded h o interp s₀ 0 ⟨0, 0, []⟩ s₀ := by
    refine ⟨fun j _ => by rw [hread], ⟨fun _ => rfl, fun hsome => absurd rfl hsome⟩, rfl⟩
  obtain ⟨n, hn, hfold⟩ := mapHeaders_induct (motive := Folded h o interp s₀)
    (fun _ hfold hturn => mapHeader_folded hk hfit hinterp hfold hturn) hstart (by decide) run
  have hnum := ePhnum_of_held hfit.long hfold.held
  have hlen : o.image.sPh.length ≤ n := by
    rw [sPh_length, ← hnum]
    exact hn
  have hdone := hfold.folded
  rw [List.take_of_length_le hlen] at hdone
  exact hdone

end AddressSpace

/-! ## A call of `map_binary` -/

section Call

variable {h : Host} {s s' : Process} {fuel : Nat} {name : Path} {arguments : Option Arguments}
  {g : List LoadedBinary}

/-- The entry of a binary is that of its interpreter, if it has one. -/
theorem execEntry_eq {o : FoundFile} {m : Space} {f : Frame} {q : Option Path}
    {os : List FoundFile} (hlong : o.LongEnough)
    (hheld : SameBytes o.memory m.byte o.fbinary o.file.length)
    (hbase : f.base = o.loadBase) (hchain : Chain h q os f.interp)
    (hin : ∀ o' ∈ os, o'.LongEnough ∧ o'.InPlace m) :
    execEntry o.mdata m.byte f = (os.head?.getD o).entry := by
  rw [execEntry]
  cases hinterp : f.interp with
  | nil =>
    rw [hinterp] at hchain
    cases hchain
    exact (entryPoint_of_held hlong hheld f.base).trans (by rw [hbase]; rfl)
  | cons b g =>
    rw [hinterp] at hchain
    cases hchain with
    | @binary _ _ o' os _ _ hfile hmdata hloadBase hvbrk hentry hnext =>
      obtain ⟨hlong', hin'⟩ := hin o' List.mem_cons_self
      have hentry' := entryPoint_of_held hlong' hin'.held b.base
      simp only [hmdata]
      rw [hentry', hloadBase]
      rfl

/-- Whatever a call of `map_binary` returns, it has put the files that it has read into place
and built the chain of interpreters, if the files fit. -/
theorem mapBinary_called (hk : h.kernel.UserSpace)
    (run : h.mapBinary fuel name arguments s = .ok g s') : Called h name s s' g := by
  induction fuel generalizing name arguments s g s' with
  | zero => cases run
  | succ n ih =>
    obtain ⟨n', f, s₁, hfuel, haccepted, hloop, -, -, hspace, hreads, rfl⟩ := mapBinary_ok run
    obtain rfl := Nat.succ.inj hfuel
    let o := h.found s name
    obtain ⟨new, hnew, hturned⟩ :=
      mapHeaders_looped (o := o) hk (fun hrun => ih hrun)
        (List.mem_append_right _ (List.mem_singleton_self o)) rfl hloop
    have hall : s'.reads = s.reads ++ (o :: new) := by
      rw [hreads, hnew]
      simp [Process.read, o]
    have hturned : FilesFit s'.reads → LoadedTo h o (s.read o) new o.image.sPh.length f s₁ := by
      rw [hreads]
      exact hturned
    have himaged (hfit : FilesFit s'.reads) : Imaged o.image o.image.sPh
        ⟨s₁.space, f.base, f.vbrk⟩ := by
      have hdone := (hturned hfit).imaged
      rwa [List.take_length] at hdone
    have hbounds (hfit : FilesFit s'.reads) : f.base = o.loadBase ∧ f.vbrk = o.loadBreak := by
      have hdone := (hturned hfit).bounds
      rw [List.take_length] at hdone
      exact Prod.mk.inj hdone
    refine ⟨o :: new, ⟨hall, ?_, ?_⟩, ?_⟩
    · intro hfit x hx
      have hbuffer : ¬ o.InBuffer x := fun hin => hx o List.mem_cons_self (.inl hin)
      rw [hspace, (hturned hfit).rest x (hx o List.mem_cons_self)
        fun o' ho' => hx o' (List.mem_cons_of_mem _ ho')]
      calc (s.read o).space.byte x = o.memory x := rfl
        _ = o.heap x := by rw [ElfFile.memory, patch_of_not_inRange hbuffer]
        _ = s.space.byte x := rfl
    · intro hfit o' ho'
      rw [hspace]
      rcases List.mem_cons.mp ho' with rfl | ho'
      · have hstart := (hturned hfit).start
        rw [List.take_length, (hbounds hfit).1] at hstart
        exact ⟨(hturned hfit).held, (himaged hfit).image, hstart⟩
      · exact (hturned hfit).inPlace o' ho'
    · intro hfit
      have ht := hturned hfit
      obtain ⟨hbase, hvbrk⟩ := hbounds hfit
      obtain ⟨os, hsub, hchain⟩ := ht.chain
      rw [List.take_length] at hchain
      have hfits : ∀ o' ∈ o :: new, o'.Fits := by
        intro o' ho'
        rw [hall] at hfit
        exact hfit.fits o' (List.mem_append_right _ ho')
      refine ⟨o :: os, List.cons_subset_cons o hsub, rfl, .binary rfl rfl hbase hvbrk ?_ hchain⟩
      exact execEntry_eq (hfits o List.mem_cons_self).long ht.held hbase hchain fun o' ho' =>
        ⟨(hfits o' (List.mem_cons_of_mem _ (hsub ho'))).long, ht.inPlace o' (hsub ho')⟩

/-- A call of `map_binary` for a file without an interpreter maps it as `mapBinary` does. -/
theorem mapBinary_sequential (hk : h.kernel.UserSpace) (hfit : (h.found s name).Fits)
    (hnone : ∀ ph ∈ (h.found s name).image.sPh, ph.pType ≠ .INTERP)
    (run : h.mapBinary fuel name arguments s = .ok g s') :
    ∃ l b, mapBinary h.kernel (h.found s name).image (s.read (h.found s name)).space = some l ∧
      s'.space = l.space ∧ g.head? = some b ∧ b.base = l.base ∧ b.vbrk = l.vbrk := by
  obtain ⟨n, f, s₁, -, -, hloop, -, -, hspace, -, rfl⟩ := mapBinary_ok run
  have hinterp : Interprets (fun name => h.mapBinary n name none) (h.found s name) some := by
    refine ⟨fun ph hph htype => absurd htype (hnone ph hph), ?_⟩
    rintro m m' hm x -
    cases hm
    rfl
  exact ⟨_, _, mapBinary_of_mapHeaders hk hfit hinterp rfl hloop, hspace, rfl, rfl, rfl⟩

end Call

/-! ## The heap that a file is read into -/

section Heap

variable {e : ElfFile} (heap : Word → Byte)

theorem longEnough_withHeap (hlong : e.LongEnough) : (e.withHeap heap).LongEnough := by
  have hsame := sameBytes_of_inFile heap (header_inFile hlong)
  have hphoff : ePhoff (e.withHeap heap).memory e.fbinary = ePhoff e.memory e.fbinary :=
    (hsame.add 32 8 (by decide)).load64.symm
  have hphentsize : ePhentsize (e.withHeap heap).memory e.fbinary =
      ePhentsize e.memory e.fbinary :=
    (hsame.add 54 2 (by decide)).load16.symm
  have hphnum : ePhnum (e.withHeap heap).memory e.fbinary = ePhnum e.memory e.fbinary :=
    (hsame.add 56 2 (by decide)).load16.symm
  refine ⟨hlong.1, ?_⟩
  rw [show (e.withHeap heap).fbinary = e.fbinary from rfl, hphnum, hphoff, hphentsize]
  exact hlong.2

theorem binary_withHeap (hlong : e.LongEnough) (baseAddress : Word) :
    (e.withHeap heap).binary baseAddress some = e.binary baseAddress some := by
  simp only [ElfFile.binary, isPie_withHeap heap hlong, headers_withHeap heap hlong]
  rfl

end Heap

/-- Two files with the same bytes, in the same buffer, and with the same load base. -/
def FoundFile.Same (o o' : FoundFile) : Prop :=
  o.file = o'.file ∧ o.fbinary = o'.fbinary ∧ o.baseAddress = o'.baseAddress

section Same

variable {o o' : FoundFile}

/-- What was in the heap before does not matter to what is read of a file that fits. -/
theorem FoundFile.Fits.reads_same (hfit : o.Fits) (hsame : o.Same o') :
    o'.LongEnough ∧ o'.image = o.image ∧ (∀ ph, o'.nameOfft ph = o.nameOfft ph) ∧
      ∀ ph ∈ o.image.sPh, ph.pType = .INTERP → o'.nameAt ph = o.nameAt ph := by
  obtain ⟨⟨opened, fstat, malloc, csOpen, csMalloc, file, heap, fbinary, hbuffer⟩, fd,
    baseAddress⟩ := o
  obtain ⟨⟨opened', fstat', malloc', csOpen', csMalloc', file', heap', fbinary', hbuffer'⟩, fd',
    baseAddress'⟩ := o'
  obtain ⟨hfile, hfbinary, hbase⟩ := hsame
  simp only at hfile hfbinary hbase
  subst hfile hfbinary hbase
  let o : FoundFile := ⟨⟨opened, fstat, malloc, csOpen, csMalloc, file, heap, fbinary, hbuffer⟩, fd,
    baseAddress⟩
  let o' : FoundFile := ⟨⟨opened', fstat', malloc', csOpen', csMalloc', file, heap', fbinary,
    hbuffer'⟩, fd', baseAddress⟩
  have hpie : o'.mdata.pie = o.mdata.pie := isPie_withHeap (e := o.toElfFile) heap' hfit.long
  have hofft (ph : Phdr) : o'.nameOfft ph = o.nameOfft ph := by
    rw [FoundFile.nameOfft, FoundFile.nameOfft, hpie]
  refine ⟨longEnough_withHeap (e := o.toElfFile) heap' hfit.long,
    binary_withHeap (e := o.toElfFile) heap' hfit.long baseAddress, hofft, fun ph hph htype => ?_⟩
  have hname : (o.nameOfft ph).toNat + (o.nameAt ph).length < file.length :=
    hfit.names ph hph htype
  have htask := TASK_SIZE_lt
  have hin : o.mdata.InFile (fbinary + o.nameOfft ph) ((o.nameAt ph).length + 1) := by
    have haddr : (fbinary + o.nameOfft ph).toNat = fbinary.toNat + (o.nameOfft ph).toNat := by
      rw [BitVec.toNat_add, Nat.mod_eq_of_lt (by omega)]
    constructor
    · rw [haddr]
      exact Nat.le_add_right _ _
    · rw [haddr]
      show fbinary.toNat + (o.nameOfft ph).toNat + ((o.nameAt ph).length + 1) ≤
        fbinary.toNat + file.length
      omega
  rw [FoundFile.nameAt, hofft]
  exact cString_congr (sameBytes_of_inFile (e := o.toElfFile) heap' hin)

theorem FoundFile.Fits.same (hfit : o.Fits) (hsame : o.Same o') : o'.Fits := by
  obtain ⟨hlong, himage, hofft, hname⟩ := hfit.reads_same hsame
  refine ⟨hlong, ?_, ?_, ?_, ?_, ?_⟩
  · rw [himage]
    exact hfit.conforms
  · rw [himage]
    exact hfit.filesz_le
  · rw [himage, ← hsame.2.2]
    exact hfit.within
  · rw [himage, ← hsame.1]
    intro ph hph htype
    rw [hofft, hname ph hph htype]
    exact hfit.names ph hph htype
  · intro x hx hmaps
    rw [FoundFile.Maps, himage] at hmaps
    rw [FoundFile.InBuffer, ← hsame.1, ← hsame.2.1] at hx
    exact hfit.apart x hx hmaps

theorem FoundFile.Same.writes (hfit : o.Fits) (hsame : o.Same o') {x : Word} :
    o'.Writes x ↔ o.Writes x := by
  rw [FoundFile.Writes, FoundFile.Writes, FoundFile.InBuffer, FoundFile.InBuffer, FoundFile.Maps,
    FoundFile.Maps, (hfit.reads_same hsame).2.1, hsame.1, hsame.2.1]

theorem FoundFile.maps_within {lo hi : Nat} {x : Word}
    (hloads : ∀ ph ∈ o.image.loads, lo ≤ (pageAlign (o.image.address ph)).toNat ∧
      ((o.image.address ph).toNat + ph.pMemsz.toNat) / 4096 * 4096 + 0x2000 ≤ hi)
    (hmaps : o.Maps x) : lo ≤ x.toNat ∧ x.toNat < hi := by
  obtain ⟨ph, hph, hlo, hhi⟩ := hmaps
  have hbounds := hloads ph hph
  exact ⟨by omega, by omega⟩

theorem FoundFile.inBuffer_iff {x : Word} :
    o.InBuffer x ↔ o.fbinary.toNat ≤ x.toNat ∧ x.toNat < o.fbinary.toNat + o.file.length := by
  have hsize := o.fits
  have htask := TASK_SIZE_lt
  exact inRange_iff (by omega)

end Same

end Dryadalis
