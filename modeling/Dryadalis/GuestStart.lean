import Dryadalis.GuestEntry
import Dryadalis.Lifecycle
import Dryadalis.Startup

/-!
# From `main` to the first instruction of the guest

When `map_binary` is done, `instrument` maps the two stubs, hooks the first block, and leaves
to the guest with the assembly of `exec_binary`.  The memory that it works on is what the
loader has left: the images of the guest and of its interpreters, and the new stack.  The stack
that `instrument` maps for itself, wherever the kernel has room, is not followed.

`GuestMemory` says what is in this memory.  `Host.engine_holds` proves it of a process that
`main` has loaded, for stubs that are not mapped over one of the files, and `main_enters`
takes it along: through `instrument`, whose hooks are up over this memory, and through
`exec_binary`, to the first instruction of the guest, where the stack pointer points to the
frame of its arguments.
-/

namespace Dryadalis

open ByteMem Exec

/-! ## The memory that the engine starts from -/

/-- The bytes of an array of words. -/
def wordByte (ws : List Word) (i : Nat) : Byte := byteOf (ws.getD (i / 8) 0) (i % 8)

/-- The memory of the process with its new stack, at the address that `mmap` has returned. -/
def Host.memory (h : Host) (s : Process) : Word → Byte :=
  patch s.space.byte h.stack 0 Stub.STACK_SZ (wordByte s.stack.words)

/-- The engine that `instrument` makes of a loaded binary, when both stubs are crafted and both
hooks are compiled, and before it writes any of them.  `bases` are those of the host. -/
def Host.engine (h : Host) (stubs : Stubs) (dump restore : Hook) (bases : Word × Word)
    (s : Process) (b : LoadedBinary) : Option Engine := do
  let m ← craftStub h.kernel STUB_ADDR_DUMP stubs.dump ⟨h.memory s, s.space.prot⟩
  let m ← craftStub h.kernel STUB_ADDR_RESTORE stubs.restore m
  return { Engine.fresh m with
    state := { StateRtime.zero with rsp := s.stack.rsp }
    dump := dump
    restore := restore
    vbrk := b.vbrk
    fs := bases.1
    gs := bases.2 }

/-- Neither the new stack nor a stub goes to where a file is, and they are apart from each
other. -/
structure Host.KeepsApart (h : Host) (os : List FoundFile) : Prop where
  stack : ∀ o ∈ os, ∀ x, o.Writes x → ¬ InRange h.stack Stub.STACK_SZ x
  stubs : ∀ o ∈ os, ∀ x, o.Writes x → ∀ page ∈ stubPages, ¬ InRange page 4096 x
  between : ∀ page ∈ stubPages, Disjoint h.stack Stub.STACK_SZ page 4096

/-- The files and the code of the stubs are in memory, and so is the frame, from the stack
pointer on. -/
structure GuestMemory (h : Host) (stubs : Stubs) (os : List FoundFile) (frame : List Word)
    (m : Space) : Prop where
  files : ∀ o ∈ os, o.InPlace m
  stubs : stubs.InPlace m.byte
  stack : ∀ i, i < frame.length →
    load64 m.byte (mapStack h.stack + BitVec.ofNat 64 (8 * i)) = frame.getD i 0

section Crafted

variable {h : Host} {stubs : Stubs} {dump restore : Hook} {bases : Word × Word} {s : Process}
  {b : LoadedBinary} {e : Engine}

/-- The engine, and what is in its memory: the stubs, and elsewhere what the process has. -/
theorem Host.engine_some (hengine : h.engine stubs dump restore bases s b = some e) :
    (e.dump = dump ∧ e.restore = restore ∧ e.instrumentedFs = 0 ∧ e.currSyscall = false ∧
        e.state = { StateRtime.zero with rsp := s.stack.rsp }) ∧
      stubs.InPlace e.space.byte ∧
      ∀ x, (∀ page ∈ stubPages, ¬ InRange page 4096 x) → e.space.byte x = h.memory s x := by
  simp only [Host.engine, Option.bind_eq_bind, Option.bind_eq_some_iff, Option.pure_def,
    Option.some.injEq] at hengine
  obtain ⟨m₁, hdump, m₂, hrestore, rfl⟩ := hengine
  obtain ⟨hcode, hrest⟩ := craftStub_spec hdump stubs.dump_le
  obtain ⟨hcode', hrest'⟩ := craftStub_spec hrestore stubs.restore_le
  refine ⟨⟨rfl, rfl, rfl, rfl, rfl⟩, ⟨fun i hi => ?_, hcode'⟩, fun x hx => ?_⟩
  · have hin := inRange_add (a := STUB_ADDR_DUMP) (Nat.lt_of_lt_of_le hi stubs.dump_le) (by decide)
    exact (hrest' _ fun hx => stubs_disjoint _ hx hin).trans (hcode i hi)
  · exact (hrest' x (hx _ (by decide))).trans (hrest x (hx _ (by decide)))

/-- A word of the new stack. -/
theorem Host.load64_memory {m : Word → Byte} {i : Nat} (hi : i < STACK_WORDS)
    (hm : ∀ x, InRange h.stack Stub.STACK_SZ x → m x = h.memory s x) :
    load64 m (h.stack + BitVec.ofNat 64 (8 * i)) = s.stack.words.getD i 0 := by
  have hwords : STACK_WORDS = 0xa000 := rfl
  have hsize : Stub.STACK_SZ = 0x50000 := rfl
  apply load64_eq_of_window
  intro j hj
  have hin := inRange_add (a := h.stack) (show 8 * i + j < Stub.STACK_SZ by omega) (by omega)
  have hdist := dist_add (a := h.stack) (show 8 * i + j < 2 ^ 64 by omega)
  have hdiv : (8 * i + j) / 8 = i := by omega
  have hmod : (8 * i + j) % 8 = j := by omega
  rw [window_add, window, hm _ hin, Host.memory, patch_of_inRange hin, hdist, wordByte, hdiv, hmod]

theorem mapStack_add (hmapped : mapStack h.stack ≠ minusOne) (i : Nat) :
    mapStack h.stack + BitVec.ofNat 64 (8 * i) =
      h.stack + BitVec.ofNat 64 (8 * (STACK_TOP + i)) := by
  have hne : h.stack ≠ minusOne := fun heq => hmapped (if_pos heq)
  have htop : (0x28000 : Word) = BitVec.ofNat 64 (8 * STACK_TOP) := rfl
  rw [mapStack, if_neg hne, htop, BitVec.add_assoc, ← BitVec.ofNat_add, Nat.mul_add]

/-- A file that was in place stays there. -/
theorem Host.engine_inPlace {o : FoundFile} {reads : List FoundFile}
    (hengine : h.engine stubs dump restore bases s b = some e) (hfit : FilesFit reads)
    (hapart : h.KeepsApart reads) (ho : o ∈ reads) (hin : o.InPlace s.space) :
    o.InPlace e.space := by
  obtain ⟨-, -, hbyte⟩ := Host.engine_some hengine
  refine hin.congr (hfit.fits o ho) fun x hx => ?_
  rw [hbyte x (hapart.stubs o ho x hx), Host.memory,
    patch_of_not_inRange (hapart.stack o ho x hx)]

/-- What the loader has left is in the memory of the engine. -/
theorem Host.engine_holds {os reads : List FoundFile} {frame rest : List Word}
    (hengine : h.engine stubs dump restore bases s b = some e) (hfit : FilesFit reads)
    (hapart : h.KeepsApart reads) (hmapped : mapStack h.stack ≠ minusOne)
    (hplaces : ∀ o ∈ os, o ∈ reads ∧ o.InPlace s.space) (hframe : frame.length ≤ 0x5000)
    (hwords : s.stack.words = List.replicate STACK_TOP 0 ++ (frame ++ rest)) :
    GuestMemory h stubs os frame e.space := by
  obtain ⟨-, hstubs, hbyte⟩ := Host.engine_some hengine
  refine ⟨fun o ho => ?_, hstubs, fun i hi => ?_⟩
  · obtain ⟨hread, hin⟩ := hplaces o ho
    exact Host.engine_inPlace hengine hfit hapart hread hin
  · have hstack : ∀ x, InRange h.stack Stub.STACK_SZ x → e.space.byte x = h.memory s x :=
      fun x hx => hbyte x fun page hpage => hapart.between page hpage x hx
    have hsize := STACK_WORDS_eq
    have hget : s.stack.words.getD (STACK_TOP + i) 0 = frame.getD i 0 := by
      rw [hwords, List.getD_append_right _ _ _ _ (by simp), List.length_replicate,
        Nat.add_sub_cancel_left, List.getD_append _ _ _ _ hi]
    rw [mapStack_add hmapped, Host.load64_memory (by omega) hstack, hget]

end Crafted

/-! ## The first block -/

/-- The block that starts at `base` ends at offset `d`, with room for both hooks, on pages that
can be read and protected. -/
structure FirstBlock (k : Kernel) (cs : Capstone) (dump restore : Hook) (m : Space)
    (base : Word) (d : Nat) : Prop where
  cflow : FirstCflow cs m.byte base false d
  short : d < 2 ^ 31
  base_gt : restore.length < base
  scanned : ScanReads k cs m base false
  pages : k.ProtectsBlock m dump.length restore.length base d

/-- What there is when `instrument` has made `e` of `e₀`, for a binary with the file `o` and the
interpreters `os`.  The guest starts in its interpreter, if it has one.  The hooks are up around
its first block, over a memory with its files and its stack.  Whatever else the machine holds,
the assembly of `exec_binary` comes to this block, with the stack pointer at the frame of the
arguments. -/
structure Started (h : Host) (stubs : Stubs) (v : ProcVectors) (b : LoadedBinary) (e₀ : Engine)
    (d : Nat) (o : FoundFile) (os : List FoundFile) (e : Engine) : Prop where
  entry : b.execEntry = (os.head?.getD o).entry
  memory : GuestMemory h stubs (o :: os) (guestFrame h v o os) e₀.space
  up : HooksUp h.kernel e e₀.space.byte
  around : Around e₀ e b.execEntry d
  enters : ∀ callee af m p q, m.mem = e.space.byte → m.reg p = e.state.rip →
    m.reg q = e.state.rsp → q ≠ .rax →
      ∃ m', Stub.inlineRun callee true af m (Stub.execBinary p q) = some m' ∧
        Stub.Enters b.execEntry (mapStack h.stack) m m' ∧
        ∀ i, i < (guestFrame h v o os).length →
          load64 m'.mem (m'.reg .rsp + BitVec.ofNat 64 (8 * i)) = (guestFrame h v o os).getD i 0

section Enters

variable {h : Host} {s s' : Process} {fuel : Nat} {g : List LoadedBinary} {b : LoadedBinary}
  {v : ProcVectors} {above : List Word} {stubs : Stubs} {dump restore : Hook}
  {bases : Word × Word} {e₀ e : Engine} {cs : Capstone} {d : Nat}

/-- `instrument` puts the hooks up around the first block. -/
theorem FirstBlock.instrument {k : Kernel} {base : Word} (hbases : k.SetsBases)
    (hblock : FirstBlock k cs e₀.dump e₀.restore e₀.space base d)
    (sized : Sized e₀.dump e₀.restore) (hcache : e₀.instrumentedFs = 0)
    (hflag : e₀.currSyscall = false) :
    ∃ e, instrument k cs base e₀ = .ok () e ∧ HooksUp k e e₀.space.byte ∧ Around e₀ e base d ∧
      e.state = { e₀.state with rip := base } := by
  obtain ⟨e, hrun, hup, haround, hstate, -⟩ := instrument_up cs base d hbases hcache sized.down
    (fun e' hspace hcurr => by
      refine scansTo_of_reads ?_ hblock.short ?_
      · rw [hspace, hcurr, hflag]
        exact hblock.cflow
      · rw [hspace, hcurr, hflag]
        exact hblock.scanned)
    (by omega) hblock.pages (sub_ne_zero_of_lt hblock.base_gt)
    (block_hooks_disjoint hblock.short sized.dumpLe sized.restoreLe)
  exact ⟨e, hrun, hup, haround, hstate⟩

/-- Nothing at an address or above it is below it. -/
theorem not_inRange_below {a : Word} {n i : Nat} (h : n + i < 2 ^ 64) :
    ¬ InRange (a - BitVec.ofNat 64 n) n (a + BitVec.ofNat 64 i) := by
  have haddr : a + BitVec.ofNat 64 i = a - BitVec.ofNat 64 n + BitVec.ofNat 64 (n + i) := by
    rw [BitVec.ofNat_add, ← BitVec.add_assoc, BitVec.sub_add_cancel]
  rw [haddr, InRange, dist_add h]
  omega

/-- The frame stays readable from the stack pointer on, with the hooks up and with what
`exec_binary` leaves below it. -/
theorem GuestMemory.frame_of_enters {os : List FoundFile} {frame : List Word} {entry : Word}
    {m m' : Stub.Machine} (hmem : GuestMemory h stubs os frame e₀.space)
    (hmapped : mapStack h.stack ≠ minusOne) (hframe : frame.length ≤ 0x5000)
    (hclear : ∀ x, InRange h.stack Stub.STACK_SZ x → e.space.byte x = e₀.space.byte x)
    (hm : m.mem = e.space.byte) (henters : Stub.Enters entry (mapStack h.stack) m m') {i : Nat}
    (hi : i < frame.length) :
    load64 m'.mem (m'.reg .rsp + BitVec.ofNat 64 (8 * i)) = frame.getD i 0 := by
  rw [henters.stack, ← hmem.stack i hi]
  apply load64_congr
  intro j hj
  have habove : ¬ InRange (mapStack h.stack - 16) 16
      (mapStack h.stack + BitVec.ofNat 64 (8 * i + j)) := not_inRange_below (n := 16) (by omega)
  have htop : STACK_TOP = 0x5000 := rfl
  have hsize : Stub.STACK_SZ = 0x50000 := rfl
  have hin := inRange_add (a := h.stack)
    (show 8 * (STACK_TOP + i) + j < Stub.STACK_SZ by omega) (by omega)
  have hstack : mapStack h.stack + BitVec.ofNat 64 (8 * i + j) =
      h.stack + BitVec.ofNat 64 (8 * (STACK_TOP + i) + j) := by
    rw [BitVec.ofNat_add, ← BitVec.add_assoc, mapStack_add hmapped, BitVec.add_assoc,
      ← BitVec.ofNat_add]
  rw [window_add, window_add, window, window, henters.mem _ habove, hm, hstack, hclear _ hin]

/-- Where no hook is, the patched memory is the clean one. -/
theorem HooksUp.byte_of_not_covers {k : Kernel} {m : Word → Byte} {x : Word}
    (hup : HooksUp k e m) (hx : ¬ e.Covers x) : e.space.byte x = m x := by
  rw [hup.bytes, Hook.write_of_not_covers fun hin => hx (.inr hin),
    Hook.write_of_not_covers fun hin => hx (.inl hin)]

/-- From `main` to the guest: when the first argument names a file that fits with those that it
leads on to, the guest is started as it should, on their images and its own stack. -/
theorem main_enters (hk : h.kernel.UserSpace) (hbases : h.kernel.SetsBases)
    (hargc : v.argv.length < 2 ^ 31) (hroom : v.argv.length + v.envp.length + 34 ≤ 0x5000)
    (hmapped : mapStack h.stack ≠ minusOne) (hfresh : s.stack = freshMapping above)
    (run : h.main fuel ⟨BitVec.ofNat 32 v.argv.length, v.words⟩ s = .ok g s')
    (hfit : FilesFit s'.reads) (hapart : h.KeepsApart s'.reads) (hb : g.head? = some b)
    (hengine : h.engine stubs dump restore bases s' b = some e₀) (sized : Sized dump restore)
    (hblock : FirstBlock h.kernel cs dump restore e₀.space b.execEntry d)
    (hclear : ∀ x, InRange (b.execEntry + BitVec.ofInt 64 d) dump.length.toNat x ∨
      InRange (b.execEntry - restore.length) restore.length.toNat x →
        ¬ InRange h.stack Stub.STACK_SZ x) :
    ∃ o os e, Chain h (some (cString s.space.byte PATH_MAX (v.argv.getD 1 0))) (o :: os) g ∧
      instrument h.kernel cs b.execEntry e₀ = .ok () e ∧ Started h stubs v b e₀ d o os e := by
  obtain ⟨o, os, rest, hchain, hplaces, hrsp, hwords, hframe⟩ :=
    main_frame hk hargc hroom hmapped hfresh run hfit
  have hmem := Host.engine_holds hengine hfit hapart hmapped hplaces hframe hwords
  obtain ⟨⟨hdump, hrestore, hcache, hflag, hstate⟩, -, -⟩ := Host.engine_some hengine
  rw [← hdump, ← hrestore] at hblock sized hclear
  obtain ⟨e, hrun, hup, haround, hstate'⟩ := hblock.instrument hbases sized hcache hflag
  have hentry : b.execEntry = (os.head?.getD o).entry := by
    cases hchain with
    | binary hfile hmdata hbase hvbrk hentry hnext =>
      cases hb
      exact hentry
  refine ⟨o, os, e, hchain, hrun, hentry, hmem, hup, haround, ?_⟩
  intro callee af m p q hm hp hq hne
  have hrip : e.state.rip = b.execEntry := by rw [hstate']
  have hsp : e.state.rsp = mapStack h.stack := by rw [hstate', hstate, hrsp]
  obtain ⟨m', hexec, henters⟩ :=
    (Stub.execBinary_iff callee true af m p q).mpr ⟨rfl, fun hrax => absurd hrax hne⟩
  rw [hp, hq, hrip, hsp] at henters
  have hstack : ∀ x, InRange h.stack Stub.STACK_SZ x → e.space.byte x = e₀.space.byte x := by
    intro x hx
    refine hup.byte_of_not_covers fun hcovers => hclear x ?_ hx
    rwa [Engine.Covers, Hook.Covers, Hook.Covers, haround.dumpJmp, haround.dumpLength,
      haround.restoreJmp, haround.restoreLength] at hcovers
  exact ⟨m', hexec, henters, fun i hi =>
    hmem.frame_of_enters hmapped hframe hstack hm henters hi⟩

end Enters

/-! ## The two files -/

/-- A page of the process that is not one of the stubs. -/
theorem Host.engine_prot {h : Host} {stubs : Stubs} {dump restore : Hook} {bases : Word × Word}
    {s : Process} {b : LoadedBinary} {e : Engine}
    (hengine : h.engine stubs dump restore bases s b = some e) {page : Word}
    (hpage : ∀ stub ∈ stubPages, ¬ InRange stub 4096 page) :
    e.space.prot page = s.space.prot page := by
  simp only [Host.engine, Option.bind_eq_bind, Option.bind_eq_some_iff, Option.pure_def,
    Option.some.injEq] at hengine
  obtain ⟨m₁, hdump, m₂, hrestore, rfl⟩ := hengine
  exact (craftStub_prot hrestore (hpage _ (by decide))).trans
    (craftStub_prot hdump (hpage _ (by decide)))

/-- Where the stubs are. -/
theorem stubPage_range {stub x : Word} (hstub : stub ∈ stubPages) (hin : InRange stub 4096 x) :
    0xdf1d000 ≤ x.toNat ∧ x.toNat < 0xff1e000 := by
  have hcases : stub = STUB_ADDR_DUMP ∨ stub = STUB_ADDR_RESTORE := by
    simpa [stubPages] using hstub
  have hdump : STUB_ADDR_DUMP.toNat = 0xff1d000 := rfl
  have hrestore : STUB_ADDR_RESTORE.toNat = 0xdf1d000 := rfl
  rcases hcases with rfl | rfl
  · rw [inRange_iff (by decide)] at hin
    omega
  · rw [inRange_iff (by decide)] at hin
    omega

/-- What can be read of the interpreter. -/
theorem twoFiles_protects {m : Space} (hcode : m.prot 0x600000 = some ⟨true, false, true⟩)
    (hdata : m.prot 0x601000 = some ⟨true, true, false⟩) :
    Kernel.user.ProtectsAround m 1 0x6000b0 0 := by
  intro i hi
  have hlit : (1 : Word).toNat + 0 + 4096 = 4097 := rfl
  have hpage : pageAlign ((0x6000b0 : Word) - 1 + BitVec.ofNat 64 i) = 0x600000 ∨
      pageAlign ((0x6000b0 : Word) - 1 + BitVec.ofNat 64 i) = 0x601000 := by
    have hstart : ((0x6000b0 : Word) - 1).toNat = 0x6000af := by decide
    have halign := pageAlign_add_toNat
      (show ((0x6000b0 : Word) - 1).toNat + i < 2 ^ 64 by omega)
    have hlow : (0x600000 : Word).toNat = 0x600000 := rfl
    have hhigh : (0x601000 : Word).toNat = 0x601000 := rfl
    rw [← BitVec.toNat_inj, ← BitVec.toNat_inj (y := 0x601000), halign, hlow, hhigh, hstart]
    omega
  rw [Kernel.Reads, Kernel.Loads, Kernel.Opens]
  rcases hpage with hpage | hpage
  · rw [hpage, hcode]
    decide
  · rw [hpage, hdata]
    decide

/-- Where the two files go. -/
theorem ReadsTwo.writes {s : Process} (h : ReadsTwo s) {o : FoundFile} (ho : o ∈ s.reads)
    {x : Word} (hx : o.Writes x) :
    x.toNat < 0x603000 ∨ 0x10000000 ≤ x.toNat ∧ x.toNat < 0x20001000 := by
  obtain ⟨f, f', hreads, hf, hf'⟩ := h
  rw [hreads] at ho
  rcases List.mem_pair.mp ho with rfl | rfl
  · rcases (hf.writes guestFile_fits).mp hx with hin | hmaps
    · have hbuffer := guestFile_buffer hin
      omega
    · have hpages := guestFile_maps hmaps
      omega
  · rcases (hf'.writes interpFile_fits).mp hx with hin | hmaps
    · have hbuffer := interpFile_buffer hin
      omega
    · have hpages := interpFile_maps hmaps
      omega

theorem twoFiles_stack {x : Word} (hx : InRange twoFiles.stack Stub.STACK_SZ x) :
    0x7f0000000000 ≤ x.toNat := by
  rw [inRange_iff (by decide)] at hx
  exact hx.1

theorem twoFiles_keepsApart {s : Process} (h : ReadsTwo s) : twoFiles.KeepsApart s.reads where
  stack o ho x hx hin := by
    have hplace := h.writes ho hx
    have hstack := twoFiles_stack hin
    omega
  stubs o ho x hx page hpage hin := by
    have hplace := h.writes ho hx
    have hstub := stubPage_range hpage hin
    omega
  between page hpage x hstack hin := by
    have hlow := twoFiles_stack hstack
    have hstub := stubPage_range hpage hin
    omega

/-- The segment of the interpreter, and its code. -/
theorem interpFile_segment : ∃ ph ∈ interpFile.image.loads,
    interpFile.image.address ph = 0x600000 ∧ ph.pFilesz.toNat = 0xb2 ∧
      interpFile.image.file (ph.pOffset.toNat + 0xb0) = 0xeb ∧
      interpFile.image.file (ph.pOffset.toNat + 0xb1) = 0xfe :=
  ⟨interpFile.image.loads.head (by decide +kernel), List.head_mem _, by decide +kernel,
    by decide +kernel, by decide +kernel, by decide +kernel⟩

theorem interpFile_code {o : FoundFile} {m : Space} (hsame : interpFile.Same o)
    (hin : o.InPlace m) : bytesAt m.byte 0x6000b0 2 = [0xeb, 0xfe] := by
  have himage := (interpFile_fits.reads_same hsame).2.1
  obtain ⟨ph, hload, haddr, hsize, hlow, hhigh⟩ := interpFile_segment
  rw [← himage] at hload haddr hlow hhigh
  have hfile := (hin.image ph hload).file
  rw [haddr, hsize] at hfile
  exact bytesAt_two ((hfile 0xb0 (by decide)).trans hlow) ((hfile 0xb1 (by decide)).trans hhigh)

/-- The stubs can be mapped. -/
theorem twoFiles_engine (s : Process) (b : LoadedBinary) :
    ∃ e, twoFiles.engine shortStubs shortHooks.dump shortHooks.restore (0, 0) s b = some e := by
  have hdump : twoFiles.kernel.Grants STUB_ADDR_DUMP 0x1000 := by decide
  have hrestore : twoFiles.kernel.Grants STUB_ADDR_RESTORE 0x1000 := by decide
  simp only [Host.engine, craftStub, mmapFixed_of_grants hdump, mmapFixed_of_grants hrestore,
    Option.map_some, Option.bind_eq_bind, Option.bind_some]
  exact ⟨_, rfl⟩

/-- The guest of the two files gets to the jump in its interpreter. -/
theorem main_enters_twoFiles :
    ∃ g s' b e₀, twoFiles.main 3 ⟨2, (ProcVectors.ofArgs 1).words⟩ emptyProcess = .ok g s' ∧
      g.head? = some b ∧ b.execEntry = 0x6000b0 ∧
      twoFiles.engine shortStubs shortHooks.dump shortHooks.restore (0, 0) s' b = some e₀ ∧
      ∃ o os e, Chain twoFiles (some (cString emptyProcess.space.byte PATH_MAX 0x10)) (o :: os) g ∧
        instrument twoFiles.kernel jmpEncodings.capstone b.execEntry e₀ = .ok () e ∧
        Started twoFiles shortStubs (.ofArgs 1) b e₀ 0 o os e := by
  obtain ⟨g, s', run, hreads, hplaces, ⟨hcodeProt, hdataProt⟩, hbounds⟩ := main_twoFiles
  have hk : twoFiles.kernel.UserSpace := Kernel.user_userSpace
  have hbases : twoFiles.kernel.SetsBases := ⟨fun _ => rfl, fun _ => rfl, rfl, rfl⟩
  have hmapped : mapStack twoFiles.stack ≠ minusOne := by decide
  have hfresh : emptyProcess.stack = freshMapping [] := rfl
  obtain ⟨b, g, rfl, hentry⟩ : ∃ b g', g = b :: g' ∧ b.execEntry = 0x6000b0 := by
    cases g with
    | nil => cases hbounds
    | cons b g => exact ⟨b, g, rfl, congrArg (fun t => t.2.2) (List.cons.inj hbounds).1⟩
  obtain ⟨e₀, hengine⟩ := twoFiles_engine s' b
  have hfit := hreads.fit
  have hapart := twoFiles_keepsApart hreads
  have hcode : bytesAt e₀.space.byte 0x6000b0 2 = [0xeb, 0xfe] := by
    obtain ⟨o, o', hlist, -, hsame⟩ := hreads
    have ho : o' ∈ s'.reads := by simp [hlist]
    exact interpFile_code hsame (Host.engine_inPlace hengine hfit hapart ho (hplaces o' ho))
  have haround : Kernel.user.ProtectsAround e₀.space 1 0x6000b0 0 :=
    twoFiles_protects
      ((Host.engine_prot hengine fun stub hstub hin =>
        absurd (stubPage_range hstub hin).1 (by decide)).trans hcodeProt)
      ((Host.engine_prot hengine fun stub hstub hin =>
        absurd (stubPage_range hstub hin).1 (by decide)).trans hdataProt)
  have hblock : FirstBlock twoFiles.kernel jmpEncodings.capstone shortHooks.dump
      shortHooks.restore e₀.space b.execEntry 0 := by
    have hd : FirstCflow jmpEncodings.capstone e₀.space.byte 0x6000b0 false 0 :=
      .here (Encodings.decodeAt_of_mem (x := ([0xeb, 0xfe], jmpSelf)) (by decide) hcode) rfl
    rw [hentry]
    exact ⟨hd, by decide, by decide,
      .of_pages hd fun i hi => haround.scan i (Nat.le_of_lt hi), haround.block (by decide)⟩
  have hclear : ∀ x, InRange (b.execEntry + BitVec.ofInt 64 (0 : Nat))
      shortHooks.dump.length.toNat x ∨
      InRange (b.execEntry - shortHooks.restore.length) shortHooks.restore.length.toNat x →
        ¬ InRange twoFiles.stack Stub.STACK_SZ x := by
    rw [hentry]
    intro x hx hin
    have hlow := twoFiles_stack hin
    rcases hx with hx | hx
    · rw [inRange_iff (by decide)] at hx
      have hend : ((0x6000b0 : Word) + BitVec.ofInt 64 (0 : Nat)).toNat = 0x6000b0 := by decide
      have hlen : shortHooks.dump.length.toNat = 1 := rfl
      omega
    · rw [inRange_iff (by decide)] at hx
      have hstart : ((0x6000b0 : Word) - shortHooks.restore.length).toNat = 0x6000af := by decide
      have hlen : shortHooks.restore.length.toNat = 1 := rfl
      omega
  exact ⟨_, s', b, e₀, run, rfl, hentry, hengine, main_enters (v := .ofArgs 1) hk hbases (by decide)
    (by decide) hmapped hfresh run hfit hapart rfl hengine shortHooks_sized hblock hclear⟩

end Dryadalis
