import Dryadalis.Emulation
import Dryadalis.Lifecycle

/-!
# An instrumented run is the native run

The guest runs natively between two dispatches, in a memory with both hooks in it.
When it gets to the dump hook, its registers are saved and the dispatcher runs; when
the dispatcher is done, the restore stub loads the registers and the restore hook in
front of the next block falls through into it.  `Engine.enter` and `Engine.leave` are
these two transitions.

`InstrumentedRun` is such a run, with what each dispatch sees and answers.  The
result is a simulation: `Ready k e b` relates the engine between two dispatches to
the block `b` that the native run has next.  `Ready.block` runs the block in the
patched memory, `Ready.dispatched` takes the hooks down and emulates the branch, and
`Ready.dispatcher` puts the hooks up around the block after it.
-/

namespace Dryadalis

open ByteMem Exec

/-! ## Instrumented runs -/

/-- The dump hook: the registers are saved, with `*curr_hook` as `rip`. -/
def Engine.enter (e : Engine) (c : Cpu) : Engine :=
  { e with
    state := { c.regs with rip := e.currHook }
    space := { e.space with byte := c.mem } }

/-- The restore stub jumps to the restore hook, which the guest leaves at its end. -/
def Engine.leave (e : Engine) : Cpu where
  regs := { e.state with rip := e.state.rip + e.restore.length }
  mem := e.space.byte

/-- What is seen of a dispatch: the registers, the memory without the hooks, and the
base that is chosen. -/
structure Dispatch where
  regs : StateRtime
  mem : Word → Byte
  next : Word

section Runs

variable (k : Kernel) (cs : Capstone) (exec : Insn → Cpu → Cpu)

/-- The dispatch that is entered in state `e` is `d`. -/
def Dispatched (e : Engine) (d : Dispatch) : Prop :=
  ∃ e₁ e₂ e₃, (do enterHost k; userCallback) e = .ok () e₁ ∧ takeDownHooks k e₁ = .ok () e₂ ∧
    getBblBase k cs e₂ = .ok d.next e₃ ∧ d.regs = e₂.state ∧ d.mem = e₂.space.byte

/-- The dispatches of the run from `c` on, with the hooks of `e` up.  The last one need
not get to the end. -/
def InstrumentedRun : Engine → Cpu → List Dispatch → Prop
  | _, _, [] => True
  | e, c, d :: ds =>
    ∃ c₁, RunsTo cs exec e.dump.jmp c c₁ ∧ Dispatched k cs (e.enter c₁) d ∧
      (ds ≠ [] → ∃ e', dispatcher k cs (e.enter c₁) = .ok () e' ∧
        InstrumentedRun e' e'.leave ds)

end Runs

/-! ## The conditions on a block -/

/-- What the native run shows at the end of a block. -/
def BlockRun.record (b : BlockRun) : Dispatch :=
  { regs := b.stop.regs, mem := b.stop.mem, next := b.next.regs.rip }

/-- The two patched ranges of a block, for hooks of the given lengths, and its own
code. -/
def BlockRun.region (b : BlockRun) (dump restore x : Word) : Prop :=
  InRange (b.start.regs.rip - restore) restore.toNat x ∨
    InRange (b.start.regs.rip + BitVec.ofNat 64 b.len) dump.toNat x ∨
    InRange b.start.regs.rip (b.len + b.insn.size) x

/-- The base of the block and of the next one are addresses that the engine can take,
and the block touches neither the patched ranges nor its own code. -/
structure BlockRun.Conforms (b : BlockRun) (cs : Capstone) (exec : Insn → Cpu → Cpu)
    (dump restore : Word) : Prop where
  base_gt : restore < b.start.regs.rip
  base_ne : b.start.regs.rip ≠ minusOne
  next_ne : b.next.regs.rip ≠ minusOne
  avoids : StraightAvoids cs exec b.start b.len (b.region dump restore)

/-- The pages that the engine works on around the block, with the protections of `m`: it can
read the buffers of the scan, and write and protect the ranges of the hooks. -/
structure BlockRun.Mapped (b : BlockRun) (k : Kernel) (cs : Capstone) (m : Space)
    (dump restore : Word) : Prop where
  scan : ScanReads k cs ⟨b.start.mem, m.prot⟩ b.start.regs.rip false
  hooks : k.ProtectsBlock m dump restore b.start.regs.rip b.len

/-- Pages that have been opened do not matter. -/
theorem BlockRun.Mapped.mono {b : BlockRun} {k : Kernel} {cs : Capstone} {m m' : Space}
    {dump restore : Word} (h : b.Mapped k cs m dump restore) (hm : m.Opened m') :
    b.Mapped k cs m' dump restore := by
  have hopened : Space.Opened ⟨b.start.mem, m.prot⟩ ⟨b.start.mem, m'.prot⟩ := hm
  exact ⟨ScanReads.mono (by rfl) hopened h.scan, h.hooks.mono hm⟩

/-- The engine before `instrument`: the hooks are compiled, and neither a base of the
guest nor a pending system call is recorded. -/
structure Fresh (e : Engine) : Prop where
  sized : Sized e.dump e.restore
  cache : e.instrumentedFs = 0
  flag : e.currSyscall = false

/-! ## There is one instrumented run -/

section Unique

variable {k : Kernel} {cs : Capstone} {exec : Insn → Cpu → Cpu} {e : Engine} {c : Cpu}

theorem Dispatched.unique {d d' : Dispatch} (h : Dispatched k cs e d) (h' : Dispatched k cs e d') :
    d = d' := by
  obtain ⟨e₁, e₂, e₃, henter, hdown, hbase, hregs, hmem⟩ := h
  obtain ⟨e₁', e₂', e₃', henter', hdown', hbase', hregs', hmem'⟩ := h'
  cases henter.symm.trans henter'
  cases hdown.symm.trans hdown'
  have hnext : d.next = d'.next := by
    injection hbase.symm.trans hbase'
  obtain ⟨regs, mem, next⟩ := d
  obtain ⟨regs', mem', next'⟩ := d'
  simp only at hregs hmem hregs' hmem' hnext
  rw [hregs, hmem, hnext, hregs', hmem']

theorem InstrumentedRun.unique {ds ds' : List Dispatch} (h : InstrumentedRun k cs exec e c ds)
    (h' : InstrumentedRun k cs exec e c ds') (hlen : ds.length = ds'.length) : ds = ds' := by
  induction ds generalizing e c ds' with
  | nil => exact (List.length_eq_zero_iff.mp hlen.symm).symm
  | cons d ds ih =>
    cases ds' with
    | nil => cases hlen
    | cons d' ds' =>
      obtain ⟨c₁, hreach, hd, hrest⟩ := h
      obtain ⟨c₁', hreach', hd', hrest'⟩ := h'
      cases hreach.unique hreach'
      cases hd.unique hd'
      have hlen' : ds.length = ds'.length := Nat.succ.inj hlen
      by_cases hnil : ds = []
      · rw [hnil] at hlen' ⊢
        rw [List.length_eq_zero_iff.mp hlen'.symm]
      · have hnil' : ds' ≠ [] := by
          rintro rfl
          exact hnil (List.length_eq_zero_iff.mp hlen')
        obtain ⟨e', hrun, htail⟩ := hrest hnil
        obtain ⟨e'', hrun', htail'⟩ := hrest' hnil'
        cases hrun.symm.trans hrun'
        rw [ih htail htail' hlen']

end Unique

/-! ## The simulation -/

theorem Engine.patcher (e : Engine) : Patcher e.patched e.Covers where
  outside m x hx := by
    rw [Engine.patched, Hook.write_of_not_covers fun h => hx (Or.inr h),
      Hook.write_of_not_covers fun h => hx (Or.inl h)]
  inside m m' x hx := by
    by_cases hr : e.restore.Covers x
    · rw [Engine.patched, Engine.patched, Hook.write_of_covers hr, Hook.write_of_covers hr]
    · have hd : e.dump.Covers x := hx.resolve_right hr
      rw [Engine.patched, Engine.patched, Hook.write_of_not_covers hr, Hook.write_of_not_covers hr,
        Hook.write_of_covers hd, Hook.write_of_covers hd]

/-- The hooks of the engine are up around the block that the native run has next. -/
structure Ready (k : Kernel) (e : Engine) (b : BlockRun) : Prop where
  up : HooksUp k e b.start.mem
  sized : Sized e.dump e.restore
  dumpJmp : e.dump.jmp = b.start.regs.rip + BitVec.ofNat 64 b.len
  restoreJmp : e.restore.jmp = b.start.regs.rip - e.restore.length
  flag : e.currSyscall = false

section Simulation

variable {k : Kernel} {cs : Capstone} {exec : Insn → Cpu → Cpu} {e e' : Engine} {b b' : BlockRun}

theorem Ready.of_guestPart (h : Ready k e b) (heq : e'.guestPart = e.guestPart) : Ready k e' b := by
  have hup := h.up.of_hooking (congrArg (·.2.2) heq)
  simp only [Engine.guestPart, Engine.hooking, Prod.mk.injEq] at heq
  obtain ⟨-, hflag, -, hdump, hrestore, -⟩ := heq
  refine ⟨hup, ?_, ?_, ?_, ?_⟩
  · rw [hdump, hrestore]
    exact h.sized
  · rw [hdump]
    exact h.dumpJmp
  · rw [hrestore]
    exact h.restoreJmp
  · rw [hflag]
    exact h.flag

/-- The bytes under the hooks are bytes that the block avoids. -/
theorem Ready.region_of_covers (h : Ready k e b) {x : Word} (hx : e.Covers x) :
    b.region e.dump.length e.restore.length x := by
  rcases hx with hx | hx
  · right
    left
    rw [Hook.Covers, h.dumpJmp] at hx
    exact hx
  · left
    rw [Hook.Covers, h.restoreJmp] at hx
    exact hx

/-- The code of the block before its last instruction is not under a hook. -/
theorem Ready.not_covers (h : Ready k e b) (hshort : b.len < 2 ^ 31) {j : Nat} (hj : j < b.len) :
    ¬ e.Covers (b.start.regs.rip + BitVec.ofNat 64 j) := by
  have hdump := h.sized.dumpLe
  have hrestore := h.sized.restoreLe
  have hcode : InRange b.start.regs.rip b.len (b.start.regs.rip + BitVec.ofNat 64 j) :=
    inRange_add hj (by omega)
  rintro (hx | hx)
  · rw [Hook.Covers, h.dumpJmp] at hx
    exact disjoint_above (le_refl b.len) (by omega) _ hcode hx
  · have hbase : e.restore.jmp + BitVec.ofNat 64 e.restore.length.toNat = b.start.regs.rip := by
      rw [h.restoreJmp, BitVec.ofNat_toNat, BitVec.setWidth_eq, BitVec.sub_add_cancel]
    rw [← hbase] at hcode hx
    exact disjoint_above (le_refl _) (by omega) _ hx hcode

/-- The block runs into the dump hook, with the registers and the memory that it has
natively. -/
theorem Ready.block (h : Ready k e b) (valid : b.Valid cs exec)
    (conforms : b.Conforms cs exec e.dump.length e.restore.length) (hshort : b.len < 2 ^ 31) :
    RunsTo cs exec e.dump.jmp { b.start with mem := e.space.byte }
      { b.stop with mem := e.patched b.stop.mem } := by
  rw [h.up.bytes]
  exact valid.straight.runsTo e.patcher (fun _ hx => h.region_of_covers hx) conforms.avoids
    (fun _ hj => h.not_covers hshort hj) (by omega) h.dumpJmp

/-- On the entry of the dispatch, the hooks are still up, and the saved registers are
those of the native run. -/
theorem Ready.enter (h : Ready k e b) (valid : b.Valid cs exec)
    (conforms : b.Conforms cs exec e.dump.length e.restore.length) :
    HooksUp k (e.enter { b.stop with mem := e.patched b.stop.mem }) b.stop.mem ∧
      (e.enter { b.stop with mem := e.patched b.stop.mem }).state = b.stop.regs ∧
      e.currHook = b.stop.regs.rip := by
  have hcurr : e.currHook = b.stop.regs.rip := by
    rw [h.up.currHook, h.dumpJmp, valid.straight.rip]
  refine ⟨h.up.of_agree rfl rfl rfl rfl (.refl e.space) fun x hx => ?_, ?_, hcurr⟩
  · exact valid.straight.mem_eq conforms.avoids x (h.region_of_covers hx)
  · show ({ b.stop.regs with rip := e.currHook } : StateRtime) = b.stop.regs
    rw [hcurr]

/-- `_get_bbl_base` finds the next block of the native run. -/
theorem getBblBase_spec (hcs : cs.ListsBranches) (hok : k.Protects e.space e.currHook 16)
    (hrip : e.state.rip = e.currHook) {i : Insn}
    (hi : cs.decodeAt e.space.byte e.currHook = some i) {c : Cpu} (hb : i.branch e.cpu = some c)
    (hne : c.regs.rip ≠ minusOne) :
    ∃ space' : Space, e.space.Opened space' ∧
      getBblBase k cs e = .ok c.regs.rip ({ e with space := space' }.emulated c) := by
  obtain ⟨space', hspace'⟩ : ∃ space', space' = e.space.openAt e.currHook 16 := ⟨_, rfl⟩
  have hbyte : space'.byte = e.space.byte := by rw [hspace']; rfl
  have heval := evalTarget_spec hi hok
  rw [← hspace'] at heval
  have hcpu : i.branch ({ e with space := space' } : Engine).cpu = some c := by
    rw [← hb, Engine.cpu, Engine.cpu, hbyte]
  have hrip' : ({ e with space := space' } : Engine).state.rip = e.currHook := hrip
  have hbranch := evalTargetInsn_branch (k := k) hcs hi hcpu
  rw [hrip'] at hbranch
  refine ⟨space', by rw [hspace']; exact e.space.opened_openAt _ _, ?_⟩
  rw [getBblBase, bind_of_ok (get_apply e), brEmulation, bind_of_ok (heval.trans hbranch)]
  simp only [if_neg hne]
  rfl

/-- The end of the block is the first control-flow instruction in the memory that the block
starts with. -/
theorem BlockRun.Valid.firstCflow (valid : b.Valid cs exec) {dump restore : Word}
    (conforms : b.Conforms cs exec dump restore) (hlen : b.len < 2 ^ 63) :
    FirstCflow cs b.start.mem b.start.regs.rip false b.len := by
  refine valid.straight.firstCflow conforms.avoids valid.decodes valid.cflow (fun _ _ => rfl) ?_
  intro j hj
  have hsize := cs.size_le valid.decodes
  exact Or.inr (Or.inr (inRange_add hj (by omega)))

/-- The scan finds the end of the block. -/
theorem BlockRun.Valid.scansTo (valid : b.Valid cs exec)
    {dump restore : Word} (conforms : b.Conforms cs exec dump restore) (hshort : b.len < 2 ^ 31)
    (mapped : b.Mapped k cs e.space dump restore) (hbyte : e.space.byte = b.start.mem)
    (hflag : e.currSyscall = false) :
    ScansTo (fun base => opcodesCflow k cs base true) b.start.regs.rip e b.len false := by
  have hd := valid.firstCflow conforms (by omega)
  have hreads := mapped.scan
  rw [← hbyte] at hd hreads
  rw [← hflag] at hd hreads
  exact scansTo_of_reads hd hshort hreads

/-- A block with all of the pages around it within reach. -/
theorem BlockRun.Valid.mapped (valid : b.Valid cs exec) {m : Space} {dump restore : Word}
    (conforms : b.Conforms cs exec dump restore) (hlen : b.len < 2 ^ 63)
    (hdump : dump.toNat ≤ 64) (haround : k.ProtectsAround m restore b.start.regs.rip b.len) :
    b.Mapped k cs m dump restore :=
  ⟨.of_pages (valid.firstCflow conforms hlen) fun i hi => haround.scan i (Nat.le_of_lt hi),
    haround.block hdump⟩

/-- The hooks that `instrument_request` puts up are ready for the block. -/
theorem Around.ready (haround : Around e e' b.start.regs.rip b.len) (hup : HooksUp k e' b.start.mem)
    (sized : Sized e.dump e.restore) (hflag : e'.currSyscall = false) : Ready k e' b := by
  refine ⟨hup, sized.around haround hup, ?_, ?_, hflag⟩
  · rw [haround.dumpJmp, BitVec.ofInt_natCast]
  · rw [haround.restoreJmp, haround.restoreLength]

/-- What `instrument_request` needs of a block. -/
theorem BlockRun.Conforms.placed {dump restore : Word} (h : b.Conforms cs exec dump restore) :
    b.start.regs.rip - restore ≠ 0 :=
  sub_ne_zero_of_lt h.base_gt

/-- With the hooks down, `_get_bbl_base` finds the next block of the native run. -/
theorem Ready.target {e₁ : Engine} {space₁ : Space} (hcs : cs.ListsBranches) (h : Ready k e b)
    (valid : b.Valid cs exec) (conforms : b.Conforms cs exec e.dump.length e.restore.length)
    (heq : e₁.guestPart = (e.enter { b.stop with mem := e.patched b.stop.mem }).guestPart)
    (hbyte : space₁.byte = b.stop.mem) (hopened : e₁.space.Opened space₁) :
    e₁.state = b.stop.regs ∧ ∃ space' : Space, space₁.Opened space' ∧
      getBblBase k cs { e₁ with space := space₁ } =
        .ok b.next.regs.rip ({ e₁ with space := space' }.emulated b.next) := by
  obtain ⟨hup, hstate, hcurr⟩ := h.enter valid conforms
  have hup₁ := hup.of_hooking (congrArg (·.2.2) heq)
  have hstate₁ : e₁.state = b.stop.regs := (congrArg (·.1) heq).trans hstate
  have hcurr₁ : e₁.currHook = b.stop.regs.rip := (congrArg (·.2.2.2.2.2) heq).trans hcurr
  have hpages : k.Protects space₁ e₁.currHook 16 := by
    rw [hup₁.currHook]
    exact hup₁.insnPages.mono hopened
  have hdecodes : cs.decodeAt space₁.byte e₁.currHook = some b.insn := by
    rw [hbyte, hcurr₁]
    exact valid.decodes
  have hbranch : b.insn.branch ({ e₁ with space := space₁ } : Engine).cpu = some b.next := by
    rw [← valid.branch, Engine.cpu, hbyte, hstate₁]
  obtain ⟨space', hspace', hbase⟩ := getBblBase_spec (e := { e₁ with space := space₁ }) hcs hpages
    (show e₁.state.rip = e₁.currHook by rw [hstate₁, hcurr₁]) hdecodes hbranch conforms.next_ne
  exact ⟨hstate₁, space', hspace', hbase⟩

/-- The entry of the dispatch is what the native run shows. -/
theorem Ready.dispatched (hk : k.SetsBases) (hcs : cs.ListsBranches) (h : Ready k e b)
    (valid : b.Valid cs exec) (conforms : b.Conforms cs exec e.dump.length e.restore.length) :
    Dispatched k cs (e.enter { b.stop with mem := e.patched b.stop.mem }) b.record := by
  obtain ⟨hup, -⟩ := h.enter valid conforms
  obtain ⟨e₁, henter⟩ := enterHost_total hk (e.enter { b.stop with mem := e.patched b.stop.mem })
  obtain ⟨heq, -, space₁, hbyte, hopened, hdown⟩ := hup.restored henter
  have hspace₁ := congrArg (·.2.2.1) heq
  obtain ⟨hstate, space', -, hbase⟩ := h.target hcs valid conforms heq hbyte
    (by rw [show e₁.space = _ from hspace₁]; exact hopened)
  exact ⟨e₁, _, _, henter, hdown, hbase, hstate.symm, hbyte.symm⟩

/-- The hooks move to the next block of the native run. -/
theorem Ready.moveHooks {e₁ : Engine} (hcs : cs.ListsBranches) (h : Ready k e b)
    (valid : b.Valid cs exec) (conforms : b.Conforms cs exec e.dump.length e.restore.length)
    (heq : e₁.guestPart = (e.enter { b.stop with mem := e.patched b.stop.mem }).guestPart)
    (hnext : b'.start = b.next) (valid' : b'.Valid cs exec)
    (conforms' : b'.Conforms cs exec e.dump.length e.restore.length) (hshort' : b'.len < 2 ^ 31)
    (mapped' : b'.Mapped k cs e.space e.dump.length e.restore.length) :
    ∃ e₂, Dryadalis.moveHooks k cs (getBblBase k cs) (fun base => opcodesCflow k cs base true) e₁ =
        .ok () e₂ ∧
      Ready k e₂ b' ∧ e₂.leave = { b'.start with mem := e₂.space.byte } ∧
      e₂.dump.length = e.dump.length ∧ e₂.restore.length = e.restore.length ∧
      e.space.Opened e₂.space := by
  obtain ⟨hup, -⟩ := h.enter valid conforms
  obtain ⟨space₁, hbyte, hopened₁, hmove⟩ := (hup.of_hooking (congrArg (·.2.2) heq)).moveHooks cs
    (getBblBase k cs) (fun base => opcodesCflow k cs base true)
  obtain ⟨-, space', hopened', hbase⟩ := h.target hcs valid conforms heq hbyte hopened₁
  have hspace₁ : e.space.Opened e₁.space := by
    rw [show e₁.space = _ from congrArg (·.2.2.1) heq]
    exact .refl e.space
  have hdump : e₁.dump = e.dump := congrArg (·.2.2.2.1) heq
  have hrestore : e₁.restore = e.restore := congrArg (·.2.2.2.2.1) heq
  have hflag : e₁.currSyscall = false := (congrArg (·.2.1) heq).trans h.flag
  -- The engine after the emulation, with the hooks down.
  obtain ⟨e₃, he₃⟩ : ∃ e₃, e₃ = ({ e₁ with space := space' } : Engine).emulated b.next := ⟨_, rfl⟩
  rw [← he₃] at hbase
  have hbyte₃ : e₃.space.byte = b'.start.mem := by rw [he₃, hnext]; rfl
  have hregs₃ : ∀ a,
      ({ e₃.state with rip := a } : StateRtime) = { b'.start.regs with rip := a } := by
    intro a
    rw [he₃, hnext]
    rfl
  have hdump₃ : e₃.dump = e.dump := by rw [he₃]; exact hdump
  have hrestore₃ : e₃.restore = e.restore := by rw [he₃]; exact hrestore
  have hflag₃ : e₃.currSyscall = false := by rw [he₃]; exact hflag
  have hsized₃ : Sized e₃.dump e₃.restore := by
    rw [hdump₃, hrestore₃]
    exact h.sized
  have hopened₃ : e.space.Opened e₃.space := by
    rw [he₃]
    exact (hspace₁.trans hopened₁).trans hopened'
  rw [← hdump₃, ← hrestore₃] at conforms' mapped'
  have mapped₃ := mapped'.mono hopened₃
  obtain ⟨e₂, hrun, hup₂, haround, hstate, hflag₂, hopened₂⟩ := instrumentAt_spec cs (k := k)
    (e := e₃) conforms'.base_ne hsized₃.down
    (valid'.scansTo conforms' hshort' mapped₃ hbyte₃ hflag₃) (by omega) mapped₃.hooks
    conforms'.placed
    (block_hooks_disjoint hshort' hsized₃.dumpLe hsized₃.restoreLe)
  rw [hbyte₃] at hup₂
  refine ⟨e₂, ?_, haround.ready hup₂ hsized₃ hflag₂, ?_, ?_, ?_, hopened₃.trans hopened₂⟩
  · rw [hmove, bind_of_ok hbase, ← hnext]
    exact hrun
  · have hrip : e₂.state.rip + e₂.restore.length = b'.start.regs.rip := by
      rw [hstate, haround.restoreLength]
      exact BitVec.sub_add_cancel _ _
    rw [Engine.leave, hrip, hstate, hregs₃]
  · rw [haround.dumpLength, hdump₃]
  · rw [haround.restoreLength, hrestore₃]

/-- A dispatch makes the engine ready for the next block of the native run. -/
theorem Ready.dispatcher (hk : k.SetsBases) (hcs : cs.ListsBranches) (h : Ready k e b)
    (valid : b.Valid cs exec) (conforms : b.Conforms cs exec e.dump.length e.restore.length)
    (hnext : b'.start = b.next) (valid' : b'.Valid cs exec)
    (conforms' : b'.Conforms cs exec e.dump.length e.restore.length) (hshort' : b'.len < 2 ^ 31)
    (mapped' : b'.Mapped k cs e.space e.dump.length e.restore.length) :
    ∃ e', Dryadalis.dispatcher k cs (e.enter { b.stop with mem := e.patched b.stop.mem }) =
        .ok () e' ∧
      Ready k e' b' ∧ e'.leave = { b'.start with mem := e'.space.byte } ∧
      e'.dump.length = e.dump.length ∧ e'.restore.length = e.restore.length ∧
      e.space.Opened e'.space := by
  obtain ⟨e', hrun⟩ := dispatcherWith_of_moveHooks cs (getBblBase k cs)
    (fun base => opcodesCflow k cs base true) hk fun e₁ heq => by
      obtain ⟨e₂, hmove, -⟩ :=
        h.moveHooks hcs valid conforms heq hnext valid' conforms' hshort' mapped'
      exact ⟨e₂, hmove⟩
  obtain ⟨e₁, e₂, heq₁, heq₂, hmove⟩ := exists_of_dispatcherWith hrun
  obtain ⟨e₃, hmove', hready, hleave, hdump, hrestore, hopened⟩ :=
    h.moveHooks hcs valid conforms heq₁ hnext valid' conforms' hshort' mapped'
  cases hmove.symm.trans hmove'
  have hrestore₂ : e'.restore = e₂.restore := congrArg (·.2.2.2.2.1) heq₂
  have hspace₂ : e'.space = e₂.space := congrArg (·.2.2.1) heq₂
  have hstate₂ : e'.state = e₂.state := congrArg (·.1) heq₂
  have hdump₂ : e'.dump = e₂.dump := congrArg (·.2.2.2.1) heq₂
  refine ⟨e', hrun, hready.of_guestPart heq₂, ?_, ?_, ?_, ?_⟩
  · have hsame : e'.leave = e₂.leave := by
      rw [Engine.leave, Engine.leave, hstate₂, hrestore₂, hspace₂]
    rw [hsame, hleave, hspace₂]
  · rw [hdump₂, hdump]
  · rw [hrestore₂, hrestore]
  · rw [hspace₂]
    exact hopened

/-- From an engine that is ready for the first block of a native run, the dispatches
are the ends of its blocks. -/
theorem Ready.instrumentedRun (hk : k.SetsBases) (hcs : cs.ListsBranches) {bs : List BlockRun}
    (h : Ready k e b)
    (native : NativeRun cs exec b.start (b :: bs))
    (conforms : ∀ x ∈ b :: bs, x.Conforms cs exec e.dump.length e.restore.length)
    (hshort : ∀ x ∈ b :: bs, x.len < 2 ^ 31)
    (mapped : ∀ x ∈ b :: bs, x.Mapped k cs e.space e.dump.length e.restore.length) :
    InstrumentedRun k cs exec e { b.start with mem := e.space.byte }
      ((b :: bs).map BlockRun.record) := by
  induction bs generalizing b e with
  | nil =>
    obtain ⟨-, valid, -⟩ := native
    have hc := conforms b List.mem_cons_self
    exact ⟨_, h.block valid hc (hshort b List.mem_cons_self), h.dispatched hk hcs valid hc,
      fun hne => absurd rfl hne⟩
  | cons b' bs ih =>
    obtain ⟨-, valid, hnext, valid', htail⟩ := native
    have hc := conforms b List.mem_cons_self
    have hmem : b' ∈ b :: b' :: bs := List.mem_cons_of_mem _ List.mem_cons_self
    refine ⟨_, h.block valid hc (hshort b List.mem_cons_self), h.dispatched hk hcs valid hc, ?_⟩
    intro _
    obtain ⟨e', hrun, hready, hleave, hdump, hrestore, hopened⟩ :=
      h.dispatcher hk hcs valid hc hnext valid' (conforms b' hmem) (hshort b' hmem)
        (mapped b' hmem)
    refine ⟨e', hrun, ?_⟩
    rw [hleave]
    apply ih hready ⟨rfl, valid', htail⟩
    · intro x hx
      rw [hdump, hrestore]
      exact conforms x (List.mem_cons_of_mem _ hx)
    · intro x hx
      exact hshort x (List.mem_cons_of_mem _ hx)
    · intro x hx
      rw [hdump, hrestore]
      exact (mapped x (List.mem_cons_of_mem _ hx)).mono hopened

/-- For every guest, every start and every number of blocks: the dispatches of the
instrumented run see the registers and the memory that the native run has at the end
of its blocks, and choose the bases of its blocks, when every block is shorter than
`2 ^ 31` bytes and the engine can work on the pages around it. -/
theorem dispatcher_transparent {e₀ : Engine} {s₀ : StateRtime} {entry : Word} {bs : List BlockRun}
    (hk : k.SetsBases) (hcs : cs.ListsBranches) (fresh : Fresh e₀)
    (native : NativeRun cs exec ⟨{ s₀ with rip := entry }, e₀.space.byte⟩ (b :: bs))
    (conforms : ∀ x ∈ b :: bs, x.Conforms cs exec e₀.dump.length e₀.restore.length)
    (hshort : ∀ x ∈ b :: bs, x.len < 2 ^ 31)
    (mapped : ∀ x ∈ b :: bs, x.Mapped k cs e₀.space e₀.dump.length e₀.restore.length) :
    ∃ e, instrument k cs entry e₀ = .ok () e ∧
      ∀ ds, ds.length = (b :: bs).length →
        (InstrumentedRun k cs exec e ⟨{ s₀ with rip := entry }, e.space.byte⟩ ds ↔
          ds = (b :: bs).map BlockRun.record) := by
  obtain ⟨hstart, valid, htail⟩ := native
  have hc := conforms b List.mem_cons_self
  have hs := hshort b List.mem_cons_self
  have hm := mapped b List.mem_cons_self
  have hentry : b.start.regs.rip = entry := by rw [hstart]
  have hmem : b.start.mem = e₀.space.byte := by rw [hstart]
  have hplaced := hc.placed
  have hpages := hm.hooks
  rw [hentry] at hplaced hpages
  obtain ⟨e, hrun, hup, haround, -, hflag, hopened⟩ := instrument_up cs entry b.len hk
    fresh.cache fresh.sized.down
    (fun e' hspace hflag => by
      rw [← hentry]
      exact valid.scansTo hc hs (by rw [hspace]; exact hm) (by rw [hspace, hmem])
        (hflag.trans fresh.flag))
    (by omega) hpages hplaced
    (block_hooks_disjoint hs fresh.sized.dumpLe fresh.sized.restoreLe)
  rw [← hmem] at hup
  rw [← hentry] at haround
  have hready : Ready k e b := haround.ready hup fresh.sized hflag
  have hrecords : InstrumentedRun k cs exec e ⟨{ s₀ with rip := entry }, e.space.byte⟩
      ((b :: bs).map BlockRun.record) := by
    have hinst := hready.instrumentedRun hk hcs ⟨rfl, valid, htail⟩
      (by rw [haround.dumpLength, haround.restoreLength]; exact conforms) hshort
      (by
        rw [haround.dumpLength, haround.restoreLength]
        exact fun x hx => (mapped x hx).mono hopened)
    rw [hstart] at hinst
    exact hinst
  refine ⟨e, hrun, fun ds hlen => ⟨fun h => ?_, fun h => ?_⟩⟩
  · exact h.unique hrecords (by rw [hlen, List.length_map])
  · rw [h]
    exact hrecords

end Simulation

/-! ## A block of `nop` -/

/-- `90` and `eb fe` -/
def sledEncodings : Encodings where
  entries := [([0x90], nop), ([0xeb, 0xfe], jmpSelf)]
  length_eq := by decide
  size_pos := by decide
  size_le := by decide
  prefixFree := by decide

/-- `eb fe` at `j`, and `90` everywhere else. -/
def sledMem (j a : Word) : Byte := if a = j then 0xeb else if a = j + 1 then 0xfe else 0x90

/-- The guest `n` bytes in front of `j`. -/
def sledCpu (j : Word) (n : Nat) : Cpu where
  regs := { StateRtime.zero with rip := j - BitVec.ofNat 64 n }
  mem := sledMem j

/-- The block of `n` times `nop` that ends at `j`.  Its branch goes to itself. -/
def sledBlock (j : Word) (n : Nat) : BlockRun :=
  { start := sledCpu j n, len := n, stop := sledCpu j 0, insn := jmpSelf, next := sledCpu j 0 }

/-- Almost eight gigabytes of code and data. -/
def wideSpace (byte : Word → Byte) : Space :=
  ⟨byte, mappedBetween 0x400000 0x200000000 ⟨true, true, true⟩⟩

/-- A kernel that protects the pages of `wideSpace`, and no others. -/
def Kernel.wide : Kernel := Kernel.between 0x400000 0x200000000

/-- Hooks of one byte, and the guest of `sledMem`. -/
def sledEngine (j : Word) : Engine :=
  { shortHooks with space := wideSpace (sledMem j) }

/-- No instruction of the guest does anything. -/
def idle (_ : Insn) (c : Cpu) : Cpu := c

section Sled

variable {j : Word} {n : Nat} {m : Word → Byte} {a : Word}

theorem sledEncodings_listsBranches : sledEncodings.capstone.ListsBranches where
  call h hid := by
    obtain ⟨x, hx, -, rfl⟩ := Encodings.exists_of_decode h
    fin_cases hx <;> cases hid
  ret h hid := by
    obtain ⟨x, hx, -, rfl⟩ := Encodings.exists_of_decode h
    fin_cases hx <;> cases hid
  jump h ht := by
    obtain ⟨x, hx, -, rfl⟩ := Encodings.exists_of_decode h
    fin_cases hx
    · cases ht
    · exact Or.inl rfl

theorem decodeAt_nop (h : m a = 0x90) : sledEncodings.capstone.decodeAt m a = some nop := by
  apply Encodings.decodeAt_of_mem (x := ([0x90], nop)) List.mem_cons_self
  simp [bytesAt, window, h]

theorem decodeAt_jmpSelf (h : m a = 0xeb) (h' : m (a + 1) = 0xfe) :
    sledEncodings.capstone.decodeAt m a = some jmpSelf := by
  apply Encodings.decodeAt_of_mem (x := ([0xeb, 0xfe], jmpSelf))
    (List.mem_cons_of_mem _ List.mem_cons_self)
  exact bytesAt_two h h'

/-- In front of `j` there is a `nop`. -/
theorem sledMem_nop (hpos : 0 < n) (hn : n < 2 ^ 63) :
    sledMem j (j - BitVec.ofNat 64 n) = 0x90 := by
  rw [sledMem, if_neg (by bv_omega), if_neg (by bv_omega)]

theorem sledCpu_nop_step (j : Word) (n : Nat) (m : Word → Byte) :
    plain idle nop { sledCpu j (n + 1) with mem := m } = { sledCpu j n with mem := m } := by
  have hrip : j - BitVec.ofNat 64 (n + 1) + nop.len = j - BitVec.ofNat 64 n := by
    rw [Insn.len, nop]
    bv_omega
  rw [plain, idle, Cpu.goto, Cpu.after, sledCpu, sledCpu]
  simp only [hrip]

/-- The branch at `j` goes to `j`, in any memory. -/
theorem jmpSelf_branch (j : Word) (m : Word → Byte) :
    jmpSelf.branch { sledCpu j 0 with mem := m } = some { sledCpu j 0 with mem := m } := by
  have hrip : j - BitVec.ofNat 64 0 + jmpSelf.len + (-2) = j - BitVec.ofNat 64 0 := by
    rw [Insn.len, jmpSelf]
    bv_omega
  show some (Cpu.goto _ (j - BitVec.ofNat 64 0 + jmpSelf.len + (-2))) = _
  rw [hrip]
  rfl

theorem sled_straight (hn : n < 2 ^ 63) :
    Straight sledEncodings.capstone idle (sledCpu j n) n (sledCpu j 0) := by
  induction n with
  | zero => exact .stop _
  | succ n ih =>
    have hstep : plain idle nop (sledCpu j (n + 1)) = sledCpu j n :=
      sledCpu_nop_step j n (sledMem j)
    have hnop : sledEncodings.capstone.decodeAt (sledMem j) (sledCpu j (n + 1)).regs.rip =
        some nop := decodeAt_nop (sledMem_nop (by omega) hn)
    have htail : Straight sledEncodings.capstone idle (plain idle nop (sledCpu j (n + 1))) n
        (sledCpu j 0) := by
      rw [hstep]
      exact ih (by omega)
    have hsize : nop.size + n = n + 1 := Nat.add_comm 1 n
    have hstraight := Straight.step hnop rfl htail
    rw [hsize] at hstraight
    exact hstraight

theorem sledBlock_valid (hn : n < 2 ^ 63) : (sledBlock j n).Valid sledEncodings.capstone idle where
  straight := sled_straight hn
  decodes := by
    have hj : (sledCpu j 0).regs.rip = j := BitVec.sub_zero j
    have hne : j + 1 ≠ j := by bv_omega
    show sledEncodings.capstone.decodeAt (sledMem j) (sledCpu j 0).regs.rip = some jmpSelf
    rw [hj]
    apply decodeAt_jmpSelf
    · rw [sledMem, if_pos rfl]
    · rw [sledMem, if_neg hne, if_pos rfl]
  cflow := rfl
  branch := jmpSelf_branch j (sledMem j)

/-- Nothing is read or written. -/
theorem idle_avoids (i : Insn) (c : Cpu) (R : Word → Prop) : Avoids idle i c R :=
  ⟨fun _ h => ⟨rfl, h⟩, fun _ _ _ _ => rfl⟩

theorem sledBlock_conforms {dump restore : Word} (hgt : restore < j - BitVec.ofNat 64 n)
    (hbase : j - BitVec.ofNat 64 n ≠ minusOne) (hj : j ≠ minusOne) :
    (sledBlock j n).Conforms sledEncodings.capstone idle dump restore where
  base_gt := hgt
  base_ne := hbase
  next_ne := by
    show j - BitVec.ofNat 64 0 ≠ minusOne
    rw [BitVec.sub_zero j]
    exact hj
  avoids _ c i _ _ _ := idle_avoids i c _

theorem sledEngine_fresh (j : Word) : Fresh (sledEngine j) :=
  ⟨shortHooks_sized, rfl, rfl⟩

theorem wide_setsBases : Kernel.wide.SetsBases := ⟨fun _ => rfl, fun _ => rfl, rfl, rfl⟩

/-- A block with some room around it. -/
theorem wide_protectsAround {base : Word} {byte : Word → Byte} {d : Nat}
    (hgt : 0x500000 < base.toNat) (hlt : base.toNat + d < 0x1f0000000) :
    Kernel.wide.ProtectsAround (wideSpace byte) 1 base d := by
  have hle : (1 : Word) ≤ base := by
    rw [BitVec.le_def]
    show 1 ≤ base.toNat
    omega
  have hone : (base - 1).toNat + 1 = base.toNat := by
    rw [BitVec.toNat_sub_of_le hle]
    exact Nat.sub_add_cancel (BitVec.le_def.mp hle)
  apply between_protectsAround rfl
  · rw [BitVec.le_def]
    show 0x400000 ≤ (base - 1).toNat
    omega
  · rfl
  · have hlit : (1 : Word).toNat = 1 := rfl
    have hhi : (0x200000000 : Word).toNat = 8589934592 := by decide
    rw [hlit, hhi, show (base - 1).toNat + (1 + d + 4096) = base.toNat + d + 4096 by omega]
    clear hgt
    omega

theorem sledBlock_mapped (hgt : 0x500000 < (j - BitVec.ofNat 64 n).toNat)
    (hlt : (j - BitVec.ofNat 64 n).toNat + n < 0x1f0000000) (hj : j ≠ minusOne) :
    (sledBlock j n).Mapped Kernel.wide sledEncodings.capstone (sledEngine j).space 1 1 := by
  have hgt' : 1 < j - BitVec.ofNat 64 n := by
    rw [BitVec.lt_def]
    show 1 < _
    omega
  have hne : j - BitVec.ofNat 64 n ≠ minusOne := by
    intro h
    rw [h, show minusOne.toNat = 2 ^ 64 - 1 from rfl] at hlt
    omega
  exact (sledBlock_valid (by omega)).mapped (sledBlock_conforms hgt' hne hj)
    (show n < 2 ^ 63 by omega) (by decide) (wide_protectsAround hgt hlt)

/-- The guest stays in the sled and in its last instruction, so it gets to no address
outside of them. -/
theorem sled_not_runsTo {stop : Word} {c c' : Cpu}
    (hnop : ∀ i, 0 < i → i ≤ n → m (j - BitVec.ofNat 64 i) = 0x90) (hj : m j = 0xeb)
    (hj' : m (j + 1) = 0xfe) (hstop : ∀ i, i ≤ n → j - BitVec.ofNat 64 i ≠ stop)
    (hrun : RunsTo sledEncodings.capstone idle stop c c') :
    ∀ i, i ≤ n → c ≠ { sledCpu j i with mem := m } := by
  induction hrun with
  | there h =>
    rintro i hi rfl
    exact hstop i hi h
  | step hne hstep tail ih =>
    rintro i hi rfl
    cases i with
    | zero =>
      have hrip : (sledCpu j 0).regs.rip = j := BitVec.sub_zero j
      have hdecode : sledEncodings.capstone.decodeAt m (sledCpu j 0).regs.rip = some jmpSelf := by
        rw [hrip]
        exact decodeAt_jmpSelf hj hj'
      have hsame : nativeStep sledEncodings.capstone idle { sledCpu j 0 with mem := m } =
          some { sledCpu j 0 with mem := m } := by
        rw [nativeStep]
        simp only [hdecode]
        exact jmpSelf_branch j m
      cases hstep.symm.trans hsame
      exact ih 0 (Nat.zero_le n) rfl
    | succ i =>
      have hdecode : sledEncodings.capstone.decodeAt m (sledCpu j (i + 1)).regs.rip = some nop :=
        decodeAt_nop (hnop (i + 1) (Nat.succ_pos i) hi)
      have hnext : nativeStep sledEncodings.capstone idle { sledCpu j (i + 1) with mem := m } =
          some { sledCpu j i with mem := m } := by
        rw [nativeStep]
        simp only [hdecode]
        exact congrArg some (sledCpu_nop_step j i m)
      cases hstep.symm.trans hnext
      exact ih i (by omega) rfl

end Sled

/-- One `nop` in front of the branch, and then the branch again. -/
theorem dispatcher_transparent_sled :
    ∃ e, instrument Kernel.wide sledEncodings.capstone 0x501000 (sledEngine 0x501001) = .ok () e ∧
      ∀ ds, ds.length = 2 →
        (InstrumentedRun Kernel.wide sledEncodings.capstone idle e
            ⟨{ StateRtime.zero with rip := 0x501000 }, e.space.byte⟩ ds ↔
          ds = [(sledBlock 0x501001 1).record, (sledBlock 0x501001 0).record]) := by
  have hnative : NativeRun sledEncodings.capstone idle
      ⟨{ StateRtime.zero with rip := 0x501000 }, (sledEngine 0x501001).space.byte⟩
      [sledBlock 0x501001 1, sledBlock 0x501001 0] :=
    ⟨rfl, sledBlock_valid (by decide), rfl, sledBlock_valid (by decide), trivial⟩
  apply dispatcher_transparent wide_setsBases sledEncodings_listsBranches
    (sledEngine_fresh _) hnative
  · intro x hx
    fin_cases hx
    · exact sledBlock_conforms (by decide) (by decide) (by decide)
    · exact sledBlock_conforms (by decide) (by decide) (by decide)
  · intro x hx
    fin_cases hx
    · decide
    · decide
  · intro x hx
    fin_cases hx
    · exact sledBlock_mapped (by decide) (by decide) (by decide)
    · exact sledBlock_mapped (by decide) (by decide) (by decide)

/-- A block of `2 ^ 31` bytes.  The offset of its branch is negative as an `int`, so the
dump hook is not in the way of the guest, which never gets to a dispatch. -/
theorem instrumentedRun_long_sled :
    Fresh (sledEngine 0x180000000) ∧
      NativeRun sledEncodings.capstone idle
        ⟨{ StateRtime.zero with rip := 0x100000000 }, (sledEngine 0x180000000).space.byte⟩
        [sledBlock 0x180000000 (2 ^ 31)] ∧
      (sledBlock 0x180000000 (2 ^ 31)).Conforms sledEncodings.capstone idle
        (sledEngine 0x180000000).dump.length (sledEngine 0x180000000).restore.length ∧
      (sledBlock 0x180000000 (2 ^ 31)).Mapped Kernel.wide sledEncodings.capstone
        (sledEngine 0x180000000).space (sledEngine 0x180000000).dump.length
        (sledEngine 0x180000000).restore.length ∧
      ∃ e, instrument Kernel.wide sledEncodings.capstone 0x100000000 (sledEngine 0x180000000) =
          .ok () e ∧
        ∀ d, ¬ InstrumentedRun Kernel.wide sledEncodings.capstone idle e
          ⟨{ StateRtime.zero with rip := 0x100000000 }, e.space.byte⟩ [d] := by
  have hvalid : (sledBlock 0x180000000 (2 ^ 31)).Valid sledEncodings.capstone idle :=
    sledBlock_valid (by decide)
  have hconforms : (sledBlock 0x180000000 (2 ^ 31)).Conforms sledEncodings.capstone idle 1 1 :=
    sledBlock_conforms (by decide) (by decide) (by decide)
  have hfirst : FirstCflow sledEncodings.capstone (sledMem 0x180000000) 0x100000000 false
      (2 ^ 31) :=
    hvalid.straight.firstCflow (R := fun _ => True) (fun _ c i _ _ _ => idle_avoids i c _)
      hvalid.decodes hvalid.cflow (fun _ _ => rfl) (fun _ _ => trivial)
  have hoff : ((2 ^ 31 : Nat) : Int).bmod (2 ^ 32) = -2147483648 := by decide
  have hscan : ∀ e' : Engine, e'.space = (sledEngine 0x180000000).space →
      e'.currSyscall = (sledEngine 0x180000000).currSyscall →
      ScansTo (fun base => opcodesCflow Kernel.wide sledEncodings.capstone base true)
        0x100000000 e' (-2147483648) false := by
    intro e' hspace hflag
    rw [← hoff]
    refine scansTo_bmod ?_ (by decide) ?_
    · rw [hspace, hflag]
      exact hfirst
    · rw [hspace]
      exact between_protects rfl (by decide) rfl (by decide)
  have hapart : Disjoint ((0x100000000 : Word) + BitVec.ofInt 64 (-2147483648)) 1
      (0x100000000 - 1) 1 := by
    intro x hx
    obtain ⟨i, hi, rfl⟩ := exists_of_inRange hx
    have hzero : i = 0 := Nat.lt_one_iff.mp hi
    rw [hzero]
    decide
  obtain ⟨e, hrun, hup, haround, -⟩ := instrument_up sledEncodings.capstone 0x100000000
    (-2147483648) wide_setsBases rfl (sledEngine_fresh 0x180000000).sized.down hscan (by decide)
    ⟨between_protects rfl (by decide) rfl (by decide),
      between_protects rfl (by decide) rfl (by decide),
      between_protects rfl (by decide) rfl (by decide)⟩ (by decide) hapart
  have hbyte : ∀ x : Word, x ≠ 0x80000000 → x ≠ 0xffffffff →
      e.space.byte x = sledMem 0x180000000 x := by
    intro x hdump hrestore
    rw [hup.bytes]
    refine e.patcher.outside _ x ?_
    rintro (hx | hx)
    · exact hdump ((Hook.eq_of_covers haround.dumpLength hx).trans haround.dumpJmp)
    · exact hrestore ((Hook.eq_of_covers haround.restoreLength hx).trans haround.restoreJmp)
  refine ⟨sledEngine_fresh _, ⟨rfl, hvalid, trivial⟩, hconforms,
    sledBlock_mapped (by decide) (by decide) (by decide), e, hrun, ?_⟩
  rintro d ⟨c₁, hruns, -⟩
  have hjmp : e.dump.jmp = 0x80000000 := haround.dumpJmp
  rw [hjmp] at hruns
  have hstart : (sledCpu 0x180000000 (2 ^ 31)).regs = { StateRtime.zero with rip := 0x100000000 } :=
    rfl
  rw [← hstart] at hruns
  refine sled_not_runsTo (j := 0x180000000) ?_ ?_ ?_ ?_ hruns (2 ^ 31) (le_refl _) rfl
  · intro i hpos hi
    rw [hbyte _ (by bv_omega) (by bv_omega)]
    exact sledMem_nop hpos (by omega)
  · rw [hbyte _ (by decide) (by decide)]
    rfl
  · rw [hbyte _ (by decide) (by decide)]
    rfl
  · intro i hi
    bv_omega

end Dryadalis
