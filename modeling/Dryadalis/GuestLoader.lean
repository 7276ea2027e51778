import Dryadalis.ElfHeader
import Dryadalis.InitialStack
import Dryadalis.SegmentImage

/-!
# Loading a guest and its interpreters

A `PT_INTERP` header names a file, and `map_binary` calls itself for it before it goes on with
the other headers.  The interpreter may name one of its own.  All of them are read into the
heap of one process, and mapped into it with `MAP_FIXED`, while the headers that are still to
be loaded are read from the same memory.

`Process` is that memory, with the files read so far.  A pointer to `mdata_binary_t` is the
list of the binary it points to and the ones that its `interp` field leads to, and the null
pointer is the empty list.

Of what `init_analysis` allocates, only the buffer of the file is in that memory: the structures
and the array `s_ph` are values of the model.  A turn of the loop reads its header once.
-/

namespace Dryadalis

open ByteMem Exec

/-! ## The surroundings of the loader -/

/-- The name of a file, without the zero byte at its end. -/
abbrev Path := List Byte

/-- The kernel takes no name that is longer, with its zero byte. -/
def PATH_MAX : Nat := 4096

/-- The string at an address, of which `n` bytes are looked at. -/
def cString (m : Word → Byte) : Nat → Word → Path
  | 0, _ => []
  | n + 1, p => if m p = 0 then [] else m p :: cString m n (p + 1)

/-- A file that `init_analysis` opens, its descriptor, and what `base_address` returns when it
is loaded. -/
structure FoundFile extends ElfFile where
  fd : BitVec 32
  baseAddress : Word

/-- The kernel, the files, the address of the mapping that `map_stack` makes, and those of the
variables `_random` and `s_arch`.  `finds n` are the files when `n` files were read before. -/
structure Host where
  kernel : Kernel
  finds : Nat → Path → FoundFile
  stack : Word
  random : Word
  sArch : Word
  random_ne : random ≠ 0
  sArch_ne : sArch ≠ 0

/-- `mdata_binary_t`, without the pointer to the interpreter. -/
structure LoadedBinary where
  mdata : Mdata
  base : Word
  vbrk : Word
  execEntry : Word
  deriving DecidableEq

/-- The memory of the process, that of the new stack, and the files that were read. -/
structure Process where
  space : Space
  stack : StackMem
  reads : List FoundFile

/-- `minusOne` is the return value -1, which every caller passes on. -/
inductive LoadStop where
  | minusOne
  | halt (stop : Halt)
  deriving DecidableEq

/-- The loader. -/
abbrev Load := EStateM LoadStop Process

/-- `arg_t`, with the words from `argv` on. -/
structure Arguments where
  argc : BitVec 32
  argv : List Word

/-- The fields of `mdata_binary_t` that the loop of `map_binary` sets. -/
structure Frame where
  base : Word
  vbrk : Word
  interp : List LoadedBinary

def eEntry (m : Word → Byte) (eh : Word) : Word := load64 m (eh + 24)

/-- The file that is opened under a name. -/
def Host.found (h : Host) (s : Process) (filename : Path) : FoundFile :=
  let o := h.finds s.reads.length filename
  { o with
    opened := o.opened && decide (filename.length < PATH_MAX)
    heap := s.space.byte }

/-- What `map_load` reads of a file. -/
def FoundFile.image (o : FoundFile) : Binary := o.toElfFile.binary o.baseAddress some

/-! ## The functions of the source -/

section Source

variable (h : Host) (self : Path → Load (List LoadedBinary)) (o : FoundFile) (d : Mdata)

/-- The call of `map_load`. -/
def loadSegment (ph : Phdr) (f : Frame) : Load Frame := do
  let s ← get
  match mapLoad h.kernel o.image ph ⟨s.space, f.base, f.vbrk⟩ with
  | none => throw .minusOne
  | some l =>
    modify fun s => { s with space := l.space }
    return { f with base := l.base, vbrk := l.vbrk }

/-- `load_interp` -/
def loadInterp (ph : Phdr) : Load (List LoadedBinary) := do
  let s ← get
  self (cString s.space.byte PATH_MAX (d.interpStr ph))

/-- One turn of the loop of `map_binary`. -/
def mapHeader (f : Frame) (i : Nat) : Load Frame := do
  let s ← get
  match d.sPh[i]? with
  | none => throw (.halt .crash)
  | some p =>
    let ph := readPhdr s.space.byte p
    match ph.pType with
    | .INTERP => do
      let interp ← loadInterp self d ph
      return { f with interp := interp }
    | .LOAD => loadSegment h o ph f
    | .other _ => return f

/-- The loop of `map_binary`, from the `i`-th header on.  Its bound is read again before every
turn, and has 16 bits. -/
def mapHeaders : Nat → Nat → Frame → Load Frame
  | 0, _, f => return f
  | turns + 1, i, f => do
    let s ← get
    if i < (ePhnum s.space.byte d.eh).toNat then
      let f ← mapHeader h self o d f i
      mapHeaders turns (i + 1) f
    else return f

/-- Where a binary starts. -/
def entryPoint (m : Word → Byte) (d : Mdata) (base : Word) : Word :=
  if d.pie then base + eEntry m d.eh else eEntry m d.eh

/-- `exec_entry` -/
def execEntry (m : Word → Byte) (f : Frame) : Word :=
  match f.interp with
  | [] => entryPoint m d f.base
  | interp :: _ => entryPoint m interp.mdata interp.base

/-- What `setup_stack` reads of the binary. -/
def stackBinary (m : Word → Byte) (f : Frame) : StackBinary where
  pie := d.pie
  base := f.base
  eEntry := eEntry m d.eh
  fd := o.fd
  ePhentsize := ePhentsize m d.eh
  ePhnum := ePhnum m d.eh
  ePhoff := ePhoff m d.eh
  interpBase := f.interp.head?.map fun interp => interp.base
  random := h.random
  sArch := h.sArch
  random_ne := h.random_ne
  sArch_ne := h.sArch_ne

/-- The call of `setup_stack`, whose return value is not looked at. -/
def callSetupStack (f : Frame) (arguments : Arguments) : Load Unit := do
  let s ← get
  let b := stackBinary h o d s.space.byte f
  match setupStack arguments.argv b arguments.argc h.stack s.stack with
  | .ok _ stack => modify fun s => { s with stack := stack }
  | .error _ _ => throw (.halt .crash)

end Source

/-- The process after a file was read. -/
def Process.read (s : Process) (o : FoundFile) : Process :=
  { s with space := { s.space with byte := o.memory }, reads := s.reads ++ [o] }

/-- `map_binary` -/
def Host.mapBinary (h : Host) : Nat → Path → Option Arguments → Load (List LoadedBinary)
  | 0, _, _ => throw (.halt .diverge)
  | fuel + 1, filename, arguments => do
    let s ← get
    let o := h.found s filename
    match initAnalysis o.toElfFile with
    | .error stop => throw (.halt stop)
    | .ok none => throw .minusOne
    | .ok (some d) =>
      modify fun s => s.read o
      let self := fun name => h.mapBinary fuel name none
      let f ← mapHeaders h self o d (2 ^ 16) 0 { base := 0, vbrk := 0, interp := [] }
      match arguments with
      | none => pure ()
      | some arguments => callSetupStack h o d f arguments
      let s ← get
      let binary : LoadedBinary :=
        { mdata := d, base := f.base, vbrk := f.vbrk, execEntry := execEntry d s.space.byte f }
      return binary :: f.interp

/-! ## Runs that return -/

section Runs

variable {h : Host} {self : Path → Load (List LoadedBinary)} {o : FoundFile} {d : Mdata}
  {f f' : Frame} {s s' : Process} {ph : Phdr} {i : Nat}

theorem loadSegment_ok (run : loadSegment h o ph f s = .ok f' s') :
    ∃ l, mapLoad h.kernel o.image ph ⟨s.space, f.base, f.vbrk⟩ = some l ∧
      f' = { f with base := l.base, vbrk := l.vbrk } ∧ s' = { s with space := l.space } := by
  rw [loadSegment, bind_of_ok (get_apply s)] at run
  cases hmap : mapLoad h.kernel o.image ph ⟨s.space, f.base, f.vbrk⟩ with
  | none =>
    rw [hmap] at run
    cases run
  | some l =>
    rw [hmap] at run
    cases run
    exact ⟨l, rfl, rfl, rfl⟩

/-- What a turn of the loop has done: the header is one of the array, and it names an
interpreter, is a segment, or does not matter. -/
theorem mapHeader_ok (run : mapHeader h self o d f i s = .ok f' s') :
    ∃ p, d.sPh[i]? = some p ∧
      (((readPhdr s.space.byte p).pType = .INTERP ∧ ∃ interp,
          loadInterp self d (readPhdr s.space.byte p) s = .ok interp s' ∧
          f' = { f with interp := interp }) ∨
        ((readPhdr s.space.byte p).pType = .LOAD ∧
          loadSegment h o (readPhdr s.space.byte p) f s = .ok f' s') ∨
        ((readPhdr s.space.byte p).pType ≠ .INTERP ∧ (readPhdr s.space.byte p).pType ≠ .LOAD ∧
          f' = f ∧ s' = s)) := by
  rw [mapHeader, bind_of_ok (get_apply s)] at run
  cases hp : d.sPh[i]? with
  | none =>
    rw [hp] at run
    cases run
  | some p =>
    rw [hp] at run
    refine ⟨p, rfl, ?_⟩
    simp only at run
    cases htype : (readPhdr s.space.byte p).pType with
    | INTERP =>
      rw [htype] at run
      obtain ⟨interp, t, hinterp, hret⟩ := exists_of_bind_ok run
      cases hret
      exact .inl ⟨rfl, interp, hinterp, rfl⟩
    | LOAD =>
      rw [htype] at run
      exact .inr (.inl ⟨rfl, run⟩)
    | other n =>
      rw [htype] at run
      cases run
      exact .inr (.inr ⟨nofun, nofun, rfl, rfl⟩)

/-- What holds before the loop, and is preserved by each turn, holds after it. -/
theorem mapHeaders_induct {motive : Nat → Frame → Process → Prop}
    (step : ∀ {i f s f' s'}, i < (ePhnum s.space.byte d.eh).toNat → motive i f s →
      mapHeader h self o d f i s = .ok f' s' → motive (i + 1) f' s')
    (start : motive i f s) {turns : Nat} (hturns : 2 ^ 16 ≤ i + turns)
    (run : mapHeaders h self o d turns i f s = .ok f' s') :
    ∃ n, (ePhnum s'.space.byte d.eh).toNat ≤ n ∧ motive n f' s' := by
  induction turns generalizing i f s with
  | zero =>
    cases run
    have hlt := (ePhnum s'.space.byte d.eh).isLt
    exact ⟨i, by omega, start⟩
  | succ turns ih =>
    rw [mapHeaders, bind_of_ok (get_apply s)] at run
    split at run
    · rename_i hi
      obtain ⟨f₁, s₁, hturn, hrest⟩ := exists_of_bind_ok run
      exact ih (step hi start hturn) (by omega) hrest
    · rename_i hi
      cases run
      exact ⟨i, Nat.le_of_not_lt hi, start⟩

/-- `setup_stack` touches nothing but its mapping. -/
theorem callSetupStack_ok {a : Arguments} (run : callSetupStack h o d f a s = .ok () s') :
    ∃ r m, setupStack a.argv (stackBinary h o d s.space.byte f) a.argc h.stack s.stack = .ok r m ∧
      s' = { s with stack := m } := by
  rw [callSetupStack, bind_of_ok (get_apply s)] at run
  cases hsetup : setupStack a.argv (stackBinary h o d s.space.byte f) a.argc h.stack s.stack with
  | error stop m =>
    rw [hsetup] at run
    cases run
  | ok r m =>
    rw [hsetup] at run
    cases run
    exact ⟨r, m, rfl, rfl⟩

theorem callSetupStack_of_ok {a : Arguments} {r : Word} {m : StackMem}
    (hrun : setupStack a.argv (stackBinary h o d s.space.byte f) a.argc h.stack s.stack =
      .ok r m) : callSetupStack h o d f a s = .ok () { s with stack := m } := by
  rw [callSetupStack, bind_of_ok (get_apply s)]
  simp only [hrun]
  rfl

/-- A call of `map_binary` that returns has read a file that it accepts, and been through the
loop. -/
theorem mapBinary_ok {fuel : Nat} {filename : Path} {arguments : Option Arguments}
    {g : List LoadedBinary}
    (run : h.mapBinary fuel filename arguments s = .ok g s') :
    ∃ n f s₁, fuel = n + 1 ∧ (h.found s filename).Accepted ∧
      mapHeaders h (fun name => h.mapBinary n name none) (h.found s filename)
        (h.found s filename).mdata (2 ^ 16) 0 ⟨0, 0, []⟩ (s.read (h.found s filename)) =
          .ok f s₁ ∧
      (arguments = none → s' = s₁) ∧
      (∀ a, arguments = some a →
        callSetupStack h (h.found s filename) (h.found s filename).mdata f a s₁ = .ok () s') ∧
      s'.space = s₁.space ∧ s'.reads = s₁.reads ∧
      g = { mdata := (h.found s filename).mdata
            base := f.base
            vbrk := f.vbrk
            execEntry := execEntry (h.found s filename).mdata s₁.space.byte f } :: f.interp := by
  cases fuel with
  | zero => cases run
  | succ n =>
    rw [Host.mapBinary, bind_of_ok (get_apply s)] at run
    simp only at run
    cases hinit : initAnalysis (h.found s filename).toElfFile with
    | error stop =>
      rw [hinit] at run
      cases run
    | ok r =>
      rw [hinit] at run
      cases r with
      | none => cases run
      | some d =>
        obtain ⟨haccepted, rfl⟩ := initAnalysis_eq_ok_iff.mp hinit
        simp only at run
        rw [bind_of_ok (modify_apply _ s)] at run
        obtain ⟨f, s₁, hloop, run⟩ := exists_of_bind_ok run
        cases arguments with
        | none =>
          cases run
          exact ⟨n, f, s', rfl, haccepted, hloop, fun _ => rfl, nofun, rfl, rfl, rfl⟩
        | some a =>
          obtain ⟨_, s₂, hstack, hret⟩ := exists_of_bind_ok run
          cases hret
          obtain ⟨r, m, -, rfl⟩ := callSetupStack_ok hstack
          exact ⟨n, f, s₁, rfl, haccepted, hloop, nofun, fun _ ha => by cases ha; exact hstack,
            rfl, rfl, rfl⟩

end Runs

end Dryadalis
