import Dryadalis.GuestChain

/-!
# What the guest finds when it starts

`main` loads the file that its first argument names, and the interpreters that lead on from it.
Only then is the stack of the guest set up, from fields of three structures: the binary, its
header in the heap, and its interpreter.

`main_stack` says what a guest finds there, in terms of the files alone.  The pointers of the
auxiliary vector are good: at `AT_PHDR` are the program headers of the file
(`headers_in_memory`), and `AT_BASE` and `AT_ENTRY` lead to the interpreter and to the guest
itself.
-/

namespace Dryadalis

open ByteMem Exec

/-- `main`, up to the call of `instrument`. -/
def Host.main (h : Host) (fuel : Nat) (a : Arguments) : Load (List LoadedBinary) :=
  if a.argc.slt 2 then throw .minusOne
  else
    match a.argv[1]? with
    | none => throw (.halt .crash)
    | some arg => do
      let s ← get
      h.mapBinary fuel (cString s.space.byte PATH_MAX arg) (some a)

/-- What the new stack says of a file, when `next` is that of its interpreter. -/
def FoundFile.stackBinary (h : Host) (o : FoundFile) (next : Option FoundFile) : StackBinary where
  pie := o.mdata.pie
  base := o.loadBase
  eEntry := eEntry o.memory o.fbinary
  fd := o.fd
  ePhentsize := ePhentsize o.memory o.fbinary
  ePhnum := ePhnum o.memory o.fbinary
  ePhoff := ePhoff o.memory o.fbinary
  interpBase := next.map FoundFile.loadBase
  random := h.random
  sArch := h.sArch
  random_ne := h.random_ne
  sArch_ne := h.sArch_ne

/-! ## Interpreters leave the new stack alone -/

section Stack

variable {h : Host} {self : Path → Load (List LoadedBinary)} {o : FoundFile} {d : Mdata}

theorem follows_stack_loadSegment (ph : Phdr) (f : Frame) :
    Follows (Kept Process.stack) (loadSegment h o ph f) := by
  unfold loadSegment
  refine .bind .get fun s => ?_
  split
  · exact .throw _
  · exact .bind (.modify fun _ => rfl) fun _ => .pure _

theorem follows_stack_mapHeader (hself : ∀ q, Follows (Kept Process.stack) (self q)) (f : Frame)
    (i : Nat) : Follows (Kept Process.stack) (mapHeader h self o d f i) := by
  unfold mapHeader
  refine .bind .get fun s => ?_
  split
  · exact .throw _
  · simp only
    split
    · exact .bind (.bind .get fun _ => hself _) fun _ => .pure _
    · exact follows_stack_loadSegment _ f
    · exact .pure _

theorem follows_stack_mapHeaders (hself : ∀ q, Follows (Kept Process.stack) (self q))
    (turns i : Nat) (f : Frame) :
    Follows (Kept Process.stack) (mapHeaders h self o d turns i f) := by
  induction turns generalizing i f with
  | zero => exact .pure _
  | succ turns ih =>
    rw [mapHeaders]
    exact .bind .get fun _ =>
      .ite (.bind (follows_stack_mapHeader hself f i) fun f => ih (i + 1) f) (.pure _)

theorem follows_stack_mapBinary (fuel : Nat) (name : Path) :
    Follows (Kept Process.stack) (h.mapBinary fuel name none) := by
  induction fuel generalizing name with
  | zero => exact .throw _
  | succ n ih =>
    rw [Host.mapBinary]
    refine .bind .get fun s => ?_
    simp only
    split
    · exact .throw _
    · exact .throw _
    · exact .bind (.modify fun _ => rfl) fun _ =>
        .bind (follows_stack_mapHeaders ih _ _ _) fun _ => .bind .get fun _ => .pure _

end Stack

/-! ## The headers in memory -/

section Headers

variable {m m' : Word → Byte} {p p' : Word}

theorem load16_congr (h : ∀ i, i < 2 → window m p i = window m' p' i) :
    load16 m p = load16 m' p' := by
  have hlow := h 0 (by decide)
  have hhigh : m (p + 1) = m' (p' + 1) := h 1 (by decide)
  rw [window, window, show p + BitVec.ofNat 64 0 = p from BitVec.add_zero p,
    show p' + BitVec.ofNat 64 0 = p' from BitVec.add_zero p'] at hlow
  rw [load16, load16, hlow, hhigh]

theorem window_shift {n : Nat} (h : ∀ i, i < n → window m p i = window m' p' i) (c k : Nat)
    (hck : c + k ≤ n) : ∀ i, i < k →
      window m (p + BitVec.ofNat 64 c) i = window m' (p' + BitVec.ofNat 64 c) i := by
  intro i hi
  rw [window_add, window_add]
  exact h (c + i) (by omega)

theorem load32_congr (h : ∀ i, i < 4 → window m p i = window m' p' i) :
    load32 m p = load32 m' p' := by
  have hlow := load16_congr (window_shift h 0 2 (by decide))
  have hhigh := load16_congr (window_shift h 2 2 (by decide))
  rw [show p + BitVec.ofNat 64 0 = p from BitVec.add_zero p,
    show p' + BitVec.ofNat 64 0 = p' from BitVec.add_zero p'] at hlow
  rw [load32, load32, hlow]
  exact congrArg (· ++ load16 m' p') hhigh

/-- Equal bytes are equal program headers, wherever they are. -/
theorem readPhdr_congr (h : ∀ i, i < phdrSize → window m p i = window m' p' i) :
    readPhdr m p = readPhdr m' p' := by
  have htype := load32_congr (window_shift h 0 4 (by decide))
  have hflags := load32_congr (window_shift h 4 4 (by decide))
  have hoffset := load64_congr (window_shift h 8 8 (by decide))
  have hvaddr := load64_congr (window_shift h 16 8 (by decide))
  have hfilesz := load64_congr (window_shift h 32 8 (by decide))
  have hmemsz := load64_congr (window_shift h 40 8 (by decide))
  rw [show p + BitVec.ofNat 64 0 = p from BitVec.add_zero p,
    show p' + BitVec.ofNat 64 0 = p' from BitVec.add_zero p'] at htype
  simp only [readPhdr, htype, Phdr.mk.injEq]
  exact ⟨trivial, congrArg (·.getLsbD 1) hflags, congrArg (·.getLsbD 0) hflags, hoffset, hvaddr,
    hfilesz, hmemsz⟩

end Headers

/-- The first segment starts with the file, and the program headers are in its file part. -/
def FoundFile.HeadersMapped (o : FoundFile) : Prop :=
  ∃ ph, o.image.loads.head? = some ph ∧ ph.pOffset = 0 ∧
    (ePhoff o.memory o.fbinary).toNat + (ePhentsize o.memory o.fbinary).toNat *
      ((ePhnum o.memory o.fbinary).toNat - 1) + phdrSize ≤ ph.pFilesz.toNat

/-- The offset of a program header in the file. -/
def FoundFile.headerOfft (o : FoundFile) (i : Nat) : Word :=
  ePhoff o.memory o.fbinary + (ePhentsize o.memory o.fbinary).setWidth 64 * BitVec.ofNat 64 i

theorem headerOfft_toNat {o : FoundFile} {i : Nat} (hi : i < 2 ^ 16)
    (h : (ePhoff o.memory o.fbinary).toNat + (ePhentsize o.memory o.fbinary).toNat * i < 2 ^ 64) :
    (o.headerOfft i).toNat =
      (ePhoff o.memory o.fbinary).toNat + (ePhentsize o.memory o.fbinary).toNat * i := by
  have hsize := (ePhentsize o.memory o.fbinary).isLt
  have hmul : ((ePhentsize o.memory o.fbinary).setWidth 64 * BitVec.ofNat 64 i).toNat =
      (ePhentsize o.memory o.fbinary).toNat * i := by
    rw [BitVec.toNat_mul, BitVec.toNat_setWidth, BitVec.toNat_ofNat,
      Nat.mod_eq_of_lt (show i < 2 ^ 64 by omega),
      Nat.mod_eq_of_lt (show (ePhentsize o.memory o.fbinary).toNat < 2 ^ 64 by omega),
      Nat.mod_eq_of_lt (by omega)]
  rw [FoundFile.headerOfft, BitVec.toNat_add, hmul, Nat.mod_eq_of_lt h]

/-- The program headers are in the image of the file, where the auxiliary vector says. -/
theorem headers_in_memory {o : FoundFile} {m : Space} (hlong : o.LongEnough) (hin : o.InPlace m)
    (hmapped : o.HeadersMapped) {i : Nat} (hi : i < (ePhnum o.memory o.fbinary).toNat) :
    o.image.sPh[i]? = some (readPhdr m.byte (o.loadBase + o.headerOfft i)) := by
  obtain ⟨ph, hhead, hoffset, hsize⟩ := hmapped
  have hbase : o.loadBase = o.image.address ph := hin.start ph hhead
  have hload : ph ∈ o.image.loads := List.mem_of_head? hhead
  have hfits := o.fits
  have htask := TASK_SIZE_lt
  have hlen : (ePhoff o.memory o.fbinary).toNat + (ePhentsize o.memory o.fbinary).toNat *
      ((ePhnum o.memory o.fbinary).toNat - 1) + phdrSize ≤ o.file.length :=
    hlong.2.resolve_left (by omega)
  have hnum := (ePhnum o.memory o.fbinary).isLt
  have hprod : (ePhentsize o.memory o.fbinary).toNat * i ≤
      (ePhentsize o.memory o.fbinary).toNat * ((ePhnum o.memory o.fbinary).toNat - 1) :=
    Nat.mul_le_mul_left _ (by omega)
  have hofft := headerOfft_toNat (o := o) (i := i) (by omega) (by omega)
  have hget : o.image.sPh[i]? = some (readPhdr o.memory (phdrAddress o.memory o.fbinary i)) := by
    have hptr : o.mdata.sPh[i]? = some (phdrAddress o.memory o.fbinary i) := sPh_getElem? hi
    show (o.mdata.sPh.map (readPhdr o.memory))[i]? = _
    rw [List.getElem?_map, hptr]
    rfl
  rw [hget, Option.some.injEq]
  apply readPhdr_congr
  intro j hj
  -- both are the byte of the file at the offset of the header
  have hword : BitVec.ofNat 64 ((o.headerOfft i).toNat + j) =
      o.headerOfft i + BitVec.ofNat 64 j := by
    rw [← BitVec.ofNat_add_ofNat, BitVec.ofNat_toNat, BitVec.setWidth_eq]
  have hfile : window o.memory (phdrAddress o.memory o.fbinary i) j =
      o.file.getD ((o.headerOfft i).toNat + j) 0 := by
    have haddr : phdrAddress o.memory o.fbinary i + BitVec.ofNat 64 j =
        o.fbinary + BitVec.ofNat 64 ((o.headerOfft i).toNat + j) := by
      rw [hword, ← BitVec.add_assoc]
      rfl
    rw [window, haddr, ElfFile.memory, patch_of_inRange (inRange_add (by omega) (by omega)),
      dist_add (by omega)]
  have himage : window m.byte (o.loadBase + o.headerOfft i) j =
      o.file.getD ((o.headerOfft i).toNat + j) 0 := by
    have hbyte := (hin.image ph hload).file ((o.headerOfft i).toNat + j) (by omega)
    rw [hoffset, hword, ← BitVec.add_assoc, ← hbase] at hbyte
    rw [window, hbyte]
    exact congrArg (o.file.getD · 0) (Nat.zero_add _)
  rw [hfile, himage]

/-! ## The new stack -/

section Main

variable {h : Host} {s s' : Process} {fuel : Nat} {name : Path} {g : List LoadedBinary}
  {v : ProcVectors} {above : List Word}

/-- What `setup_stack` reads of the structures is what the files say. -/
theorem stackBinary_eq {o : FoundFile} {m : Space} {f : Frame} {q : Option Path}
    {os : List FoundFile} (hlong : o.LongEnough) (hin : o.InPlace m) (hbase : f.base = o.loadBase)
    (hchain : Chain h q os f.interp) :
    stackBinary h o o.mdata m.byte f = o.stackBinary h os.head? := by
  have hheader := hin.held.of_inFile (header_inFile hlong)
  have hentry : eEntry m.byte o.mdata.eh = eEntry o.memory o.fbinary :=
    (hheader.add 24 8 (by decide)).load64.symm
  have hphoff : ePhoff m.byte o.mdata.eh = ePhoff o.memory o.fbinary :=
    (hheader.add 32 8 (by decide)).load64.symm
  have hphentsize : ePhentsize m.byte o.mdata.eh = ePhentsize o.memory o.fbinary :=
    (hheader.add 54 2 (by decide)).load16.symm
  have hphnum : ePhnum m.byte o.mdata.eh = ePhnum o.memory o.fbinary :=
    (hheader.add 56 2 (by decide)).load16.symm
  have hinterp : (f.interp.head?.map fun interp => interp.base) =
      os.head?.map FoundFile.loadBase := by
    generalize f.interp = interp at hchain ⊢
    cases hchain with
    | null => rfl
    | binary hfile hmdata hloadBase hvbrk hentry hnext =>
      exact congrArg some hloadBase
  simp only [stackBinary, FoundFile.stackBinary, hbase, hentry, hphoff, hphentsize, hphnum, hinterp]

/-- A binary that is loaded with arguments: the new stack is what `setup_stack` makes of the
files. -/
theorem mapBinary_stack (hk : h.kernel.UserSpace) {a : Arguments}
    (run : h.mapBinary fuel name (some a) s = .ok g s') (hfit : FilesFit s'.reads) :
    ∃ o os r m, Chain h (some name) (o :: os) g ∧
      (∀ f ∈ o :: os, f ∈ s'.reads ∧ f.InPlace s'.space) ∧
      setupStack a.argv (o.stackBinary h os.head?) a.argc h.stack s.stack = .ok r m ∧
      s'.stack = m := by
  obtain ⟨new, hgrows, hchain⟩ := mapBinary_called hk run
  obtain ⟨os, hsub, hhead, hchain⟩ := hchain hfit
  have hplaces : ∀ f ∈ os, f ∈ s'.reads ∧ f.InPlace s'.space := by
    intro f hf
    refine ⟨?_, hgrows.inPlace hfit f (hsub hf)⟩
    rw [hgrows.reads]
    exact List.mem_append_right _ (hsub hf)
  obtain ⟨n, f, s₁, rfl, -, hloop, -, hsetup, hspace, -, rfl⟩ := mapBinary_ok run
  obtain ⟨r, m, hrun, hs'⟩ := callSetupStack_ok (hsetup a rfl)
  cases hchain with
  | @binary t _ o os _ _ hfile hmdata hbase hvbrk hentry hnext =>
    obtain rfl := Option.some.inj hhead
    obtain ⟨hread, hin⟩ := hplaces _ List.mem_cons_self
    have hkept := (follows_stack_mapHeaders (follows_stack_mapBinary n) _ _ _).of_ok hloop
    have hstack : s₁.stack = s.stack := hkept
    have hfiles := stackBinary_eq (h := h) (hfit.fits _ hread).long hin hbase hnext
    rw [← hspace, hfiles, hstack] at hrun
    exact ⟨_, os, r, m, .binary hfile hmdata hbase hvbrk hentry hnext, hplaces, hrun, by rw [hs']⟩

/-- `main` goes on only if there is an argument to load. -/
theorem two_le_of_slt {n : Nat} (hn : n < 2 ^ 31) (h : (BitVec.ofNat 32 n).slt 2 = false) :
    2 ≤ n := by
  have hnat : (BitVec.ofNat 32 n).toNat = n := by
    rw [BitVec.toNat_ofNat, Nat.mod_eq_of_lt (by omega)]
  have hint : (BitVec.ofNat 32 n).toInt = n := by
    rw [BitVec.toInt_eq_toNat_of_lt (by omega), hnat]
  rw [BitVec.slt_eq_decide, decide_eq_false_iff_not, hint,
    show (2 : BitVec 32).toInt = 2 from rfl] at h
  omega

theorem stackFrame_length_le (b : StackBinary) (argc : BitVec 32) (as bs : List Word)
    (execfn : Word) :
    (stackFrame argc as bs (auxEntries b execfn)).length ≤ as.length + bs.length + 33 := by
  have hpairs : (auxEntries b execfn).length = 15 := rfl
  have hcount := List.countP_le_length (l := auxEntries b execfn) (p := fun p => p.2 ≠ 0)
  rw [stackFrame_length, packed_length]
  omega

/-- `main` loads the file that its first argument names. -/
theorem main_of_argv {a : Arguments} {arg : Word} (hslt : a.argc.slt 2 = false)
    (harg : a.argv[1]? = some arg) :
    h.main fuel a s = h.mapBinary fuel (cString s.space.byte PATH_MAX arg) (some a) s := by
  rw [Host.main, if_neg (by rw [hslt]; decide)]
  simp only [harg]
  rw [bind_of_ok (get_apply s)]

theorem main_ok (hargc : v.argv.length < 2 ^ 31)
    (run : h.main fuel ⟨BitVec.ofNat 32 v.argv.length, v.words⟩ s = .ok g s') :
    ∃ w₀ execfn as, v.argv = w₀ :: execfn :: as ∧
      h.mapBinary fuel (cString s.space.byte PATH_MAX execfn)
        (some ⟨BitVec.ofNat 32 v.argv.length, v.words⟩) s = .ok g s' := by
  cases hslt : (BitVec.ofNat 32 v.argv.length).slt 2 with
  | true =>
    rw [Host.main, if_pos hslt] at run
    cases run
  | false =>
    obtain ⟨w₀, execfn, as, hv⟩ : ∃ w₀ execfn as, v.argv = w₀ :: execfn :: as := by
      have htwo := two_le_of_slt hargc hslt
      match hargv : v.argv, htwo with
      | w₀ :: execfn :: as, _ => exact ⟨w₀, execfn, as, rfl⟩
    have harg : v.words[1]? = some execfn := by
      rw [ProcVectors.words, hv]
      rfl
    rw [main_of_argv (a := ⟨BitVec.ofNat 32 v.argv.length, v.words⟩) hslt harg] at run
    exact ⟨w₀, execfn, as, hv, run⟩

/-- A binary that can be loaded can be loaded with arguments that fit on the stack. -/
theorem mapBinary_some (hargc : 2 ≤ v.argv.length)
    (hroom : v.argv.length + v.envp.length + 34 ≤ 0x5000) (hmapped : mapStack h.stack ≠ minusOne)
    (hfresh : s.stack = freshMapping above) (argc : BitVec 32)
    (run : h.mapBinary fuel name none s = .ok g s') :
    ∃ m, h.mapBinary fuel name (some ⟨argc, v.words⟩) s = .ok g { s' with stack := m } := by
  obtain ⟨n, f, s₁, rfl, haccepted, hloop, hs', -, -, -, rfl⟩ := mapBinary_ok run
  have hs' := hs' rfl
  subst hs'
  obtain ⟨w₀, execfn, as, hv⟩ : ∃ w₀ execfn as, v.argv = w₀ :: execfn :: as := by
    match hargv : v.argv, hargc with
    | w₀ :: execfn :: as, _ => exact ⟨w₀, execfn, as, rfl⟩
  have hwords : v.words = w₀ :: ((execfn :: as) ++ 0 :: (v.envp ++ 0 :: v.auxv)) := by
    rw [ProcVectors.words, hv]
    rfl
  have hargs : ∀ w ∈ execfn :: as, w ≠ 0 := fun w hw =>
    v.argv_ne w (hv ▸ List.mem_cons_of_mem w₀ hw)
  have hcount : v.argv.length = (execfn :: as).length + 1 := by
    rw [hv]
    rfl
  have hkept := (follows_stack_mapHeaders (follows_stack_mapBinary n) _ _ _).of_ok hloop
  have hstack : s'.stack = freshMapping above := hkept.trans hfresh
  let b := stackBinary h (h.found s name) (h.found s name).mdata s'.space.byte f
  have hlength := stackFrame_length_le b argc (execfn :: as) v.envp execfn
  obtain ⟨k, hn⟩ := Nat.exists_eq_add_of_le (show (stackFrame argc (execfn :: as) v.envp
    (auxEntries b execfn)).length + 2 ≤ 0x5000 by omega)
  obtain ⟨m, hrun, -, -, -, -⟩ :=
    setupStack_run w₀ v.auxv b argc hargs v.envp_ne hmapped
      (freshMapping_filled above (n := k) (by rw [Nat.add_comm]; exact hn.symm))
  rw [← hwords, ← hstack] at hrun
  have hcall := callSetupStack_of_ok (a := ⟨argc, v.words⟩) hrun
  have hinit := initAnalysis_eq_ok_iff.mpr ⟨haccepted, rfl⟩
  refine ⟨m, ?_⟩
  rw [Host.mapBinary, bind_of_ok (get_apply s)]
  simp only [hinit]
  rw [bind_of_ok (modify_apply _ s), bind_of_ok hloop, bind_of_ok hcall]
  rfl

/-- The guest of the two files is started with its own name as the only argument. -/
theorem main_twoFiles : ∃ g s',
    twoFiles.main 3 ⟨2, (ProcVectors.ofArgs 1).words⟩ emptyProcess = .ok g s' ∧ ReadsTwo s' ∧
      (∀ o ∈ s'.reads, o.InPlace s'.space) ∧
      (s'.space.prot 0x600000 = some ⟨true, false, true⟩ ∧
        s'.space.prot 0x601000 = some ⟨true, true, false⟩) ∧
      g.map (fun b => (b.base, b.vbrk, b.execEntry)) =
        [(0x400000, 0x402000, 0x6000b0), (0x600000, 0x602000, 0x6000b0)] := by
  obtain ⟨g, s', run, hreads, hbounds⟩ := twoFiles_run
  have hname : cString emptyProcess.space.byte PATH_MAX 0x10 = guestPath := by decide +kernel
  have hmapped : mapStack twoFiles.stack ≠ minusOne := by decide
  have hfresh : emptyProcess.stack = freshMapping [] := rfl
  obtain ⟨m, hrun⟩ := mapBinary_some (v := .ofArgs 1) (by decide) (by decide) hmapped hfresh 2 run
  have harg : (ProcVectors.ofArgs 1).words[1]? = some 0x10 := rfl
  have hk : twoFiles.kernel.UserSpace := Kernel.user_userSpace
  obtain ⟨new, hgrows, -⟩ := mapBinary_called hk run
  have hplaces : ∀ o ∈ s'.reads, o.InPlace s'.space := by
    rw [hgrows.reads]
    exact hgrows.inPlace hreads.fit
  have hprots := twoFiles_prots run
  refine ⟨g, { s' with stack := m }, ?_, hreads, hplaces, hprots, hbounds⟩
  rw [main_of_argv (a := ⟨2, (ProcVectors.ofArgs 1).words⟩) (by decide) harg, hname]
  exact hrun

/-- The words that the guest finds at its stack pointer, when its file and that of the
interpreter are these. -/
def guestFrame (h : Host) (v : ProcVectors) (o : FoundFile) (os : List FoundFile) : List Word :=
  stackFrame (BitVec.ofNat 32 v.argv.length) v.argv.tail v.envp
    (auxEntries (o.stackBinary h os.head?) (v.argv.getD 1 0))

/-- The binary is loaded, and the new stack has the frame of its files. -/
theorem main_frame (hk : h.kernel.UserSpace) (hargc : v.argv.length < 2 ^ 31)
    (hroom : v.argv.length + v.envp.length + 34 ≤ 0x5000) (hmapped : mapStack h.stack ≠ minusOne)
    (hfresh : s.stack = freshMapping above)
    (run : h.main fuel ⟨BitVec.ofNat 32 v.argv.length, v.words⟩ s = .ok g s')
    (hfit : FilesFit s'.reads) :
    ∃ o os rest, Chain h (some (cString s.space.byte PATH_MAX (v.argv.getD 1 0))) (o :: os) g ∧
      (∀ f ∈ o :: os, f ∈ s'.reads ∧ f.InPlace s'.space) ∧ s'.stack.rsp = mapStack h.stack ∧
      s'.stack.words = List.replicate STACK_TOP 0 ++ (guestFrame h v o os ++ rest) ∧
      (guestFrame h v o os).length ≤ 0x5000 := by
  obtain ⟨w₀, execfn, as, hv, run⟩ := main_ok hargc run
  obtain ⟨o, os, r, m, hchain, hplaces, hsetup, rfl⟩ := mapBinary_stack hk run hfit
  have hexecfn : v.argv.getD 1 0 = execfn := by
    rw [hv]
    rfl
  have hwords : v.words = w₀ :: ((execfn :: as) ++ 0 :: (v.envp ++ 0 :: v.auxv)) := by
    rw [ProcVectors.words, hv]
    rfl
  have hargs : ∀ w ∈ execfn :: as, w ≠ 0 := fun w hw =>
    v.argv_ne w (hv ▸ List.mem_cons_of_mem w₀ hw)
  have hcount : v.argv.length = (execfn :: as).length + 1 := by
    rw [hv]
    rfl
  have hframe : guestFrame h v o os = stackFrame (BitVec.ofNat 32 v.argv.length) (execfn :: as)
      v.envp (auxEntries (o.stackBinary h os.head?) execfn) := by
    rw [guestFrame, hexecfn, hv]
    rfl
  have hlength := stackFrame_length_le (o.stackBinary h os.head?)
    (BitVec.ofNat 32 v.argv.length) (execfn :: as) v.envp execfn
  rw [← hframe] at hlength
  obtain ⟨n, hn⟩ := Nat.exists_eq_add_of_le
    (show (guestFrame h v o os).length + 2 ≤ 0x5000 by omega)
  rw [hframe] at hn
  obtain ⟨m', hrun, hcontents, -, -, hregs⟩ :=
    setupStack_run w₀ v.auxv (o.stackBinary h os.head?) (BitVec.ofNat 32 v.argv.length) hargs
      v.envp_ne hmapped
      (freshMapping_filled above (n := n) (by rw [Nat.add_comm]; exact hn.symm))
  simp only [hwords, hfresh] at hsetup
  cases hsetup.symm.trans hrun
  refine ⟨o, os, List.replicate (n + 2) 0 ++ above, ?_, hplaces, congrArg Prod.fst hregs, ?_,
    by omega⟩
  · rw [hexecfn]
    exact hchain
  · rw [hframe]
    exact hcontents

/-- What the guest finds: a stack with its arguments, the environment, and an auxiliary vector
that describes the file and its interpreter; both of them in place, and the program headers at
`AT_PHDR` if the first segment holds them. -/
theorem main_stack (hk : h.kernel.UserSpace) (hargc : v.argv.length < 2 ^ 31)
    (hroom : v.argv.length + v.envp.length + 34 ≤ 0x5000) (hmapped : mapStack h.stack ≠ minusOne)
    (hfresh : s.stack = freshMapping above)
    (run : h.main fuel ⟨BitVec.ofNat 32 v.argv.length, v.words⟩ s = .ok g s')
    (hfit : FilesFit s'.reads) :
    ∃ o os rest, Chain h (some (cString s.space.byte PATH_MAX (v.argv.getD 1 0))) (o :: os) g ∧
      (∀ f ∈ o :: os, f.InPlace s'.space) ∧
      s'.stack.rsp = mapStack h.stack ∧
      s'.stack.words = List.replicate STACK_TOP 0 ++
        (stackFrame (BitVec.ofNat 32 v.argv.length) v.argv.tail v.envp
          (auxEntries (o.stackBinary h os.head?) (v.argv.getD 1 0)) ++ rest) ∧
      (o.HeadersMapped → ∀ i, i < (ePhnum o.memory o.fbinary).toNat →
        o.image.sPh[i]? = some (readPhdr s'.space.byte (o.loadBase + o.headerOfft i))) := by
  obtain ⟨o, os, rest, hchain, hplaces, hrsp, hwords, -⟩ :=
    main_frame hk hargc hroom hmapped hfresh run hfit
  refine ⟨o, os, rest, hchain, fun f hf => (hplaces f hf).2, hrsp, hwords, ?_⟩
  intro hheaders i hi
  obtain ⟨hread, hin⟩ := hplaces o List.mem_cons_self
  exact headers_in_memory (hfit.fits o hread).long hin hheaders hi

theorem main_stack_twoFiles :
    ∃ g s', twoFiles.main 3 ⟨2, (ProcVectors.ofArgs 1).words⟩ emptyProcess = .ok g s' ∧
      guestFile.HeadersMapped ∧
      ∃ o os rest,
        Chain twoFiles (some (cString emptyProcess.space.byte PATH_MAX 0x10)) (o :: os) g ∧
        (∀ f ∈ o :: os, f.InPlace s'.space) ∧
        s'.stack.rsp = mapStack twoFiles.stack ∧
        s'.stack.words = List.replicate STACK_TOP 0 ++
          (stackFrame 2 [0x10] [0x20] (auxEntries (o.stackBinary twoFiles os.head?) 0x10) ++
            rest) ∧
        (o.HeadersMapped → ∀ i, i < (ePhnum o.memory o.fbinary).toNat →
          o.image.sPh[i]? = some (readPhdr s'.space.byte (o.loadBase + o.headerOfft i))) := by
  obtain ⟨g, s', run, hreads, -⟩ := main_twoFiles
  have hk : twoFiles.kernel.UserSpace := Kernel.user_userSpace
  have hmapped : mapStack twoFiles.stack ≠ minusOne := by decide
  have hfresh : emptyProcess.stack = freshMapping [] := rfl
  have hheaders : guestFile.HeadersMapped :=
    ⟨guestFile.image.loads.head (by decide +kernel), List.head?_eq_some_head _, by decide +kernel,
      by decide +kernel⟩
  exact ⟨g, s', run, hheaders, main_stack (v := .ofArgs 1) hk (by decide) (by decide) hmapped hfresh
    run hreads.fit⟩

end Main

end Dryadalis
