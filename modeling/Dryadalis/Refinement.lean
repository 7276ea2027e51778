import Dryadalis.World

/-!
# An instrumented run is an emulated run

The hooks, and all the work of putting them up and taking them down, are there to stop the
guest at its control-flow instructions.  What the guest is to see of this is an
`EmulatedRun`: it runs by itself up to such an instruction, the instruction is emulated on
its registers and its memory, and system calls are made on the memory that it has.

`Synced k e w b` relates the engine between two dispatches to the world `w`, whose next
stretch is `b`.  `Synced.block`, `Synced.entered` and `Synced.placed` are the three parts of
a turn: the stretch in the patched memory, the way to the emulation, and the way back
from it.  `Synced.refines` puts them together, for any number of turns and whatever
instructions the blocks end with.

In contrast to `dispatcher_transparent` nothing is assumed about the control-flow
instructions, which include memory operands and system calls.  What an instruction does is
what the emulation makes of it, in both runs.
-/

namespace Dryadalis

open ByteMem Exec

/-! ## What the engine keeps for the guest -/

/-- The bases, the break and the requests of a world. -/
def World.kept (w : World) : (Word × Word) × (Word × Word) × Word × List Request :=
  ((w.fs, w.gs), (w.hostFs, w.hostGs), w.vbrk, w.requests)

/-- The same of an engine whose guest is running. -/
def Engine.running (e : Engine) : (Word × Word) × (Word × Word) × Word × List Request :=
  ((e.fs, e.gs), (e.hostFs, e.hostGs), e.vbrk, e.requests)

/-- The same of an engine that has saved its guest. -/
def Engine.saved (e : Engine) : (Word × Word) × (Word × Word) × Word × List Request :=
  ((e.instrumentedFs, e.instrumentedGs), (e.hostFs, e.hostGs), e.vbrk, e.requests)

theorem placeBlind_saved : PlaceBlind fun e => (e.saved, e.fs, e.gs) where
  space _ _ := rfl
  hook _ which _ := by cases which <;> rfl
  output _ := rfl
  dtor _ := rfl
  length _ _ := rfl
  currHook _ _ := rfl
  rip _ _ := rfl

/-- An engine that has saved the guest of a world is the engine of this world, with its
hooks put in. -/
theorem Engine.eq_hooked {e : Engine} {w : World} (hregs : e.state = w.cpu.regs)
    (hmem : e.space.byte = w.cpu.mem) (hflag : e.currSyscall = false) (hsaved : e.saved = w.kept)
    (hfs : e.fs = w.hostFs) (hgs : e.gs = w.hostGs) :
    e = e.hooked (w.engine e.space.prot) := by
  obtain ⟨state, space, dump, restore, currHook, currSyscall, takeCallback, lengthCflow, hostFs,
    hostGs, instrumentedFs, instrumentedGs, fs, gs, vbrk, requests, trace⟩ := e
  obtain ⟨⟨regs, mem⟩, _⟩ := w
  simp only [Engine.saved, World.kept, Prod.mk.injEq] at hregs hmem hflag hsaved hfs hgs
  obtain ⟨⟨rfl, rfl⟩, ⟨rfl, rfl⟩, rfl, rfl⟩ := hsaved
  subst hregs hmem hflag hfs hgs
  rfl

/-! ## The emulation in both -/

section Target

variable {k : Kernel} {cs : Capstone} {h e : Engine} {w : World} {i : Insn} {base : Word}
  {prot : Word → Option Prot}

theorem getBblBase_ok_iff {e' : Engine} : getBblBase k cs e = .ok base e' ↔
    base ≠ minusOne ∧ evalTarget k cs e.currHook e = .ok base e' := by
  rw [getBblBase, bind_of_ok (get_apply e), brEmulation]
  constructor
  · intro run
    obtain ⟨target, e₁, heval, run⟩ := exists_of_bind_ok run
    split at run
    · cases run
    · rename_i hne
      cases run
      exact ⟨hne, heval⟩
  · rintro ⟨hne, heval⟩
    rw [bind_of_ok heval]
    simp only [if_neg hne]
    rfl

/-- `_get_bbl_base` of an engine with hooks emulates the instruction as the engine without
hooks does, with the protections that `mem_read` leaves. -/
theorem getBblBase_hooked (hcurr : h.currHook = w.cpu.regs.rip)
    (hi : cs.decodeAt w.cpu.mem w.cpu.regs.rip = some i)
    (hok : k.Protects ⟨w.cpu.mem, prot⟩ w.cpu.regs.rip 16) :
    ∃ prot', Space.Opened ⟨w.cpu.mem, prot⟩ ⟨w.cpu.mem, prot'⟩ ∧
      ∀ base e, getBblBase k cs (h.hooked (w.engine prot)) = .ok base e ↔
        base ≠ minusOne ∧ ∃ e',
          evalTargetInsn k (i.atAddr 0) w.cpu.regs.rip (w.engine prot') = .ok base e' ∧
            e = h.hooked e' := by
  obtain ⟨space', hspace'⟩ : ∃ space', space' = Space.openAt ⟨w.cpu.mem, prot⟩ w.cpu.regs.rip 16 :=
    ⟨_, rfl⟩
  have heval : evalTarget k cs w.cpu.regs.rip (h.hooked (w.engine prot)) =
      evalTargetInsn k (i.atAddr 0) w.cpu.regs.rip (h.hooked (w.engine space'.prot)) := by
    rw [hspace']
    exact evalTarget_spec (k := k) (e := h.hooked (w.engine prot)) hi hok
  rw [← hcurr] at heval
  refine ⟨space'.prot, ?_, fun base e => getBblBase_ok_iff.trans (and_congr_right fun _ => ?_)⟩
  · rw [hspace']
    exact Space.opened_openAt ⟨w.cpu.mem, prot⟩ _ _
  · have hcommutes : Commutes h.hooked (evalTargetInsn k (i.atAddr 0) h.currHook) :=
      evalTargetInsn_hooked _ _
    rw [← hcurr, ← hcommutes.ok_iff, ← heval]
    rfl

end Target

/-! ## One turn -/

/-- The hooks of the engine are up around the stretch that the world has next, and its pages
are those of the world or have been opened. -/
structure Synced (k : Kernel) (e : Engine) (w : World) (b : Stretch) : Prop where
  ready : Ready k e b.block
  start : b.start = w.cpu
  kept : e.running = w.kept
  opened : w.space.Opened e.space

section Turn

variable {k : Kernel} {cs : Capstone} {exec : Insn → Cpu → Cpu} {e : Engine} {w : World}
  {m : Space} {b b' : Stretch}

/-- The guest when it has run into the dump hook. -/
def Engine.stopped (e : Engine) (b : Stretch) : Cpu := { b.stop with mem := e.patched b.stop.mem }

/-- The stretch runs into the dump hook, with the registers and the memory that it has
without the hooks. -/
theorem Synced.block (h : Synced k e w b) (valid : b.Valid cs exec)
    (conforms : b.Conforms k cs exec e.dump.length e.restore.length m) :
    RunsTo cs exec e.dump.jmp { w.cpu with mem := e.space.byte } (e.stopped b) := by
  have hbytes : e.space.byte = e.patched b.start.mem := h.ready.up.bytes
  have hshort := conforms.short
  rw [← h.start, hbytes]
  exact valid.straight.runsTo e.patcher (fun _ hx => h.ready.region_of_covers hx) conforms.avoids
    (fun _ hj => h.ready.not_covers hshort hj) (by omega) h.ready.dumpJmp

theorem userCallback_trace (e : Engine) :
    ∃ trace, userCallback e = .ok () { e with trace := trace } := by
  rw [userCallback, bind_of_ok (get_apply e)]
  split
  · exact ⟨_, rfl⟩
  · exact ⟨e.trace, rfl⟩

/-- The way from the dump hook to the emulation: the hooks are down, and but for them the
engine is one that has saved the guest of the world. -/
theorem Synced.entered (hk : k.SetsBases) (h : Synced k e w b) (valid : b.Valid cs exec)
    (conforms : b.Conforms k cs exec e.dump.length e.restore.length m) :
    ∃ e₁ e₂ prot, (do enterHost k; userCallback : Eng Unit) (e.enter (e.stopped b)) = .ok () e₁ ∧
      takeDownHooks k e₁ = .ok () e₂ ∧ e₂ = e₂.hooked ((w.at b.stop).engine prot) ∧
      e₂.dump = e.dump ∧ e₂.restore = e.restore ∧ e₂.currHook = b.stop.regs.rip ∧
      e.space.Opened ⟨b.stop.mem, prot⟩ := by
  have hcurr : e.currHook = b.stop.regs.rip := by
    rw [h.ready.up.currHook, h.ready.dumpJmp, valid.straight.rip]
    rfl
  have hup : HooksUp k (e.enter (e.stopped b)) b.stop.mem :=
    h.ready.up.of_agree rfl rfl rfl rfl (.refl e.space) fun x hx =>
      valid.straight.mem_eq conforms.avoids x (h.ready.region_of_covers hx)
  obtain ⟨trace, hcallback⟩ := userCallback_trace
    { e.enter (e.stopped b) with
      instrumentedFs := e.fs, instrumentedGs := e.gs, fs := e.hostFs, gs := e.hostGs }
  have henter : (do enterHost k; userCallback : Eng Unit) (e.enter (e.stopped b)) = _ :=
    (bind_of_ok (enterHost_eq hk _)).trans hcallback
  obtain ⟨-, -, space', hbyte, hopened, hdown⟩ := hup.restored henter
  have hregs : ({ b.stop.regs with rip := e.currHook } : StateRtime) = b.stop.regs := by
    rw [hcurr]
  have hkept := h.kept
  simp only [Engine.running, World.kept, Prod.mk.injEq] at hkept
  obtain ⟨⟨hfs, hgs⟩, ⟨hhostFs, hhostGs⟩, hvbrk, hrequests⟩ := hkept
  refine ⟨_, _, space'.prot, henter, hdown, ?_, rfl, rfl, hcurr, hopened⟩
  refine Engine.eq_hooked (w := w.at b.stop) hregs hbyte h.ready.flag ?_ hhostFs hhostGs
  simp only [Engine.saved, World.kept, World.at, Engine.enter, hfs, hgs, hhostFs, hhostGs, hvbrk,
    hrequests]

/-- The scan finds the end of the stretch in the memory that it starts with. -/
theorem Stretch.Valid.scansTo (valid : b.Valid cs exec) {dump restore : Word}
    (conforms : b.Conforms k cs exec dump restore m) (hopened : m.Opened e.space)
    (hbyte : e.space.byte = b.start.mem) (hflag : e.currSyscall = false) :
    ScansTo (fun base => opcodesCflow k cs base true) b.start.regs.rip e b.len false := by
  have hd : FirstCflow cs b.start.mem b.start.regs.rip false b.len := by
    refine valid.straight.firstCflow conforms.avoids valid.decodes valid.cflow
      (fun _ _ => rfl) ?_
    intro j hj
    have hsize := cs.size_le valid.decodes
    have hshort := conforms.short
    have hlen : b.len + b.insn.size ≤ 2 ^ 64 := by omega
    exact Or.inr (Or.inr (inRange_add hj hlen))
  have hreads : ScanReads k cs ⟨b.start.mem, e.space.prot⟩ b.start.regs.rip false :=
    (conforms.mapped.mono hopened).scan
  rw [← hbyte] at hd hreads
  rw [← hflag] at hd hreads
  exact scansTo_of_reads hd conforms.short hreads

/-- The way back from the emulation: the hooks are put up around the stretch that the
emulated guest has next. -/
theorem synced_of_emulated (hk : k.SetsBases)
    {h e : Engine} {base : Word} (sized : Sized h.dump h.restore) (hflag : e.currSyscall = false)
    (hbase : base ≠ minusOne) (start : b.start = (e.world base).cpu) (valid : b.Valid cs exec)
    (conforms : b.Conforms k cs exec h.dump.length h.restore.length (e.world base).space) :
    ∃ e₁ e₂, instrumentAt k cs (fun base => opcodesCflow k cs base true) base (h.hooked e) =
        .ok () e₁ ∧
      continueExec k e₁ = .ok () e₂ ∧ Synced k e₂ (e.world base) b ∧
      e₂.leave = { b.start with mem := e₂.space.byte } ∧
      e₂.dump.length = h.dump.length ∧ e₂.restore.length = h.restore.length := by
  have hrip : b.start.regs.rip = base := by rw [start]; rfl
  have hbyte : (h.hooked e).space.byte = b.start.mem := by rw [start]; rfl
  have hshort := conforms.short
  have hscan := valid.scansTo (e := h.hooked e) conforms (.refl _) hbyte hflag
  have hpages : k.ProtectsBlock (h.hooked e).space h.dump.length h.restore.length
      b.start.regs.rip b.len := conforms.mapped.hooks
  have hplaced : b.start.regs.rip - h.restore.length ≠ 0 := sub_ne_zero_of_lt conforms.base_gt
  rw [hrip] at hscan hplaced hpages
  obtain ⟨e₁, hrun, hup, haround, hstate, hflag₁, hopened⟩ := instrumentAt_spec cs (k := k)
    (e := h.hooked e) hbase (Sized.down (e := h.hooked e) sized) hscan (by omega) hpages hplaced
    (block_hooks_disjoint hshort sized.dumpLe sized.restoreLe)
  have hkept : e₁.saved = (e.world base).kept := by
    have hscan : ∀ a, Follows (Kept fun e => (e.saved, e.fs, e.gs)) (opcodesCflow k cs a true) :=
      fun a => placeBlind_saved.opcodesCflowAux (fun _ _ => rfl) _ a true
    exact congrArg Prod.fst ((placeBlind_saved.instrumentAt hscan base).of_ok hrun)
  rw [← hrip] at haround
  rw [hbyte] at hup
  have hready : Ready k e₁ b.block := Around.ready haround hup sized hflag₁
  refine ⟨e₁, _, hrun, continueExec_eq hk e₁, ⟨hready.of_guestPart rfl, start, hkept, hopened⟩, ?_,
    haround.dumpLength, haround.restoreLength⟩
  have hback : e₁.state.rip + e₁.restore.length = base := by
    rw [hstate, haround.restoreLength]
    exact BitVec.sub_add_cancel _ _
  show ({ regs := { e₁.state with rip := e₁.state.rip + e₁.restore.length }, mem := _ } : Cpu) = _
  rw [hback, hstate, start]
  rfl

/-- A system call with a hook does not set the flag, nor does any other instruction. -/
theorem Stretch.Conforms.flag {dump restore a base : Word} {prot : Word → Option Prot} {e' : Engine}
    (conforms : b.Conforms k cs exec dump restore m)
    (heval : evalTargetInsn k (b.insn.atAddr 0) a ((w.at b.stop).engine prot) = .ok base e') :
    e'.currSyscall = false := by
  by_contra hset
  obtain ⟨hlead, hunknown⟩ := evalTargetInsn_flag rfl heval (by simpa using hset)
  rw [Insn.atAddr_lead] at hlead
  exact conforms.known hlead hunknown

/-- The engine is ready for the stretch `b'` after a dispatch of `b`. -/
structure Turned (k : Kernel) (cs : Capstone) (e : Engine) (b : Stretch) (w' : World) (b' : Stretch)
    (e' : Engine) : Prop where
  run : dispatcher k cs (e.enter (e.stopped b)) = .ok () e'
  synced : Synced k e' w' b'
  leave : e'.leave = { w'.cpu with mem := e'.space.byte }
  dump : e'.dump.length = e.dump.length
  restore : e'.restore.length = e.restore.length

/-- One turn, for the protections that the kernel finds in it: the dispatch shows the end of
the stretch and chooses the base that the emulation comes back with, and gets as far as
the next stretch. -/
theorem Synced.turn (hk : k.SetsBases) (h : Synced k e w b) (valid : b.Valid cs exec)
    (conforms : b.Conforms k cs exec e.dump.length e.restore.length w.space) :
    ∃ prot, w.space.Opened ⟨b.stop.mem, prot⟩ ∧
      (∀ d, Dispatched k cs (e.enter (e.stopped b)) d ↔
        d.regs = b.stop.regs ∧ d.mem = b.stop.mem ∧ d.next ≠ minusOne ∧ ∃ e',
          evalTargetInsn k (b.insn.atAddr 0) b.stop.regs.rip ((w.at b.stop).engine prot) =
            .ok d.next e') ∧
      ∀ base e' b', base ≠ minusOne →
        evalTargetInsn k (b.insn.atAddr 0) b.stop.regs.rip ((w.at b.stop).engine prot) =
          .ok base e' →
        b'.start = (e'.world base).cpu → b'.Valid cs exec →
        b'.Conforms k cs exec e.dump.length e.restore.length (e'.world base).space →
        ∃ e₂, Turned k cs e b (e'.world base) b' e₂ := by
  obtain ⟨e₁, e₂, prot, henter, hdown, heq, hdump, hrestore, hcurr, hopened⟩ :=
    h.entered hk valid conforms
  have hpages : k.Protects ⟨b.stop.mem, prot⟩ b.stop.regs.rip 16 := by
    have hinsn := h.ready.up.insnPages.mono hopened
    rw [← h.ready.up.currHook, show e.currHook = b.stop.regs.rip by
      rw [h.ready.up.currHook, h.ready.dumpJmp, valid.straight.rip]; rfl] at hinsn
    exact hinsn
  obtain ⟨prot', hopened', hbase⟩ := getBblBase_hooked (h := e₂) (w := w.at b.stop) hcurr
    valid.decodes hpages
  rw [← heq] at hbase
  have hregs : e₂.state = b.stop.regs := by rw [heq]; rfl
  have hmem : e₂.space.byte = b.stop.mem := by rw [heq]; rfl
  refine ⟨prot', (h.opened.trans hopened).trans hopened', fun d => ⟨?_, ?_⟩, ?_⟩
  · rintro ⟨e₁', e₂', e₃, henter', hdown', htarget, hd, hd'⟩
    cases henter.symm.trans henter'
    cases hdown.symm.trans hdown'
    obtain ⟨hne, e', heval, -⟩ := (hbase _ _).mp htarget
    exact ⟨hd.trans hregs, hd'.trans hmem, hne, e', heval⟩
  · rintro ⟨hd, hd', hne, e', heval⟩
    exact ⟨e₁, e₂, _, henter, hdown, (hbase _ _).mpr ⟨hne, e', heval, rfl⟩, hd.trans hregs.symm,
      hd'.trans hmem.symm⟩
  · intro base e' b' hne heval start' valid' conforms'
    rw [← hdump, ← hrestore] at conforms'
    have sized : Sized e₂.dump e₂.restore := by
      rw [hdump, hrestore]
      exact h.ready.sized
    obtain ⟨e₄, e₅, hplace, hcontinue, hsynced, hleave, hdump', hrestore'⟩ :=
      synced_of_emulated hk sized (conforms.flag heval) hne start' valid' conforms'
    have htarget := (hbase base (e₂.hooked e')).mpr ⟨hne, e', heval, rfl⟩
    rw [start'] at hleave
    rw [hdump] at hdump'
    rw [hrestore] at hrestore'
    refine ⟨e₅, ?_, hsynced, hleave, hdump', hrestore'⟩
    obtain ⟨_, e₀, hhost, hcallback⟩ := exists_of_bind_ok henter
    have hmove : moveHooks k cs (getBblBase k cs) (fun base => opcodesCflow k cs base true) e₁ =
        .ok () e₄ := by
      rw [moveHooks, bind_of_ok hdown, bind_of_ok htarget]
      exact hplace
    rw [dispatcher, dispatcherWith, bind_of_ok hhost, bind_of_ok hcallback, bind_of_ok hmove]
    exact hcontinue

end Turn

/-! ## Whole runs -/

section Runs

variable {k : Kernel} {cs : Capstone} {exec : Insn → Cpu → Cpu} {e : Engine} {w : World}
  {b : Stretch}

/-- From an engine that is ready for the next stretch of a guest on: what is seen of the
dispatches is what an emulated run shows, and the dispatches do not end before that run is
stuck. -/
theorem Synced.refines (hk : k.SetsBases) {ds : List Dispatch} (h : Synced k e w b)
    (valid : b.Valid cs exec)
    (conforms : b.Conforms k cs exec e.dump.length e.restore.length w.space)
    (guest : Guest k cs exec e.dump.length e.restore.length w)
    (run : InstrumentedRun k cs exec e { w.cpu with mem := e.space.byte } ds) :
    ∃ w', EmulatedRun k cs exec w ds w' ∧
      ((∃ d, InstrumentedRun k cs exec e { w.cpu with mem := e.space.byte } (ds ++ [d])) ∨
        Stuck k cs exec w') := by
  induction ds generalizing e w b with
  | nil =>
    obtain ⟨prot, hopened, hshown, -⟩ := h.turn hk valid conforms
    refine ⟨w, .nil w, ?_⟩
    by_cases hnext : ∃ base e', base ≠ minusOne ∧
        evalTargetInsn k (b.insn.atAddr 0) b.stop.regs.rip ((w.at b.stop).engine prot) =
          .ok base e'
    · obtain ⟨base, e', hne, heval⟩ := hnext
      left
      exact ⟨⟨b.stop.regs, b.stop.mem, base⟩, e.stopped b, h.block valid conforms,
        (hshown _).mpr ⟨rfl, rfl, hne, e', heval⟩, fun hne => absurd rfl hne⟩
    · right
      refine ⟨b, h.start, valid, prot, hopened, fun base e' heval => ?_⟩
      by_contra hne
      exact hnext ⟨base, e', hne, heval⟩
  | cons d ds ih =>
    obtain ⟨prot, hopened, hshown, hturn⟩ := h.turn hk valid conforms
    obtain ⟨c₁, hreach, hd, hrest⟩ := run
    cases hreach.unique (h.block valid conforms)
    obtain ⟨hregs, hmem, hne, e', heval⟩ := (hshown d).mp hd
    have hemulates : Emulates k b.insn (w.at b.stop) d.next (e'.world d.next) :=
      ⟨hne, prot, e', hopened, heval, rfl⟩
    have hguest := guest.after h.start valid hemulates ⟨hregs, hmem⟩
    obtain ⟨b', start', valid', conforms'⟩ := hguest.stretch (.nil _)
    obtain ⟨e₂, turned⟩ := hturn d.next e' b' hne heval start' valid' conforms'
    rw [← turned.dump, ← turned.restore] at conforms' hguest
    have htail : InstrumentedRun k cs exec e₂
        { (e'.world d.next).cpu with mem := e₂.space.byte } ds := by
      by_cases hnil : ds = []
      · rw [hnil]
        trivial
      · obtain ⟨e₃, hrun, htail⟩ := hrest hnil
        cases hrun.symm.trans turned.run
        rw [turned.leave] at htail
        exact htail
    obtain ⟨w', hemulated, hgoes⟩ := ih turned.synced valid' conforms' hguest htail
    refine ⟨w', .cons h.start valid hemulates ⟨hregs, hmem⟩ hemulated, hgoes.imp_left ?_⟩
    rintro ⟨d', hlonger⟩
    refine ⟨d', e.stopped b, hreach, hd, fun _ => ⟨e₂, turned.run, ?_⟩⟩
    rw [turned.leave]
    exact hlonger

/-! ### The start -/

/-- The guest that `instrument` is called for, with registers `s`. -/
def Engine.guestAt (e : Engine) (s : StateRtime) (entry : Word) : World where
  cpu := ⟨{ s with rip := entry }, e.space.byte⟩
  prot := e.space.prot
  fs := e.fs
  gs := e.gs
  hostFs := e.fs
  hostGs := e.gs
  vbrk := e.vbrk
  requests := e.requests

/-- `instrument` takes its own bases for those of the host, and keeps them. -/
theorem instrument_kept {e₀ : Engine} {entry : Word} (hk : k.SetsBases)
    (hcache : e₀.instrumentedFs = 0) (run : instrument k cs entry e₀ = .ok () e)
    (s : StateRtime) : e.running = (e₀.guestAt s entry).kept := by
  rw [instrument, bind_of_ok (modify_apply _ e₀)] at run
  obtain ⟨r, e₁, hrequest, run⟩ := exists_of_bind_ok run
  have hscan : ∀ a, Follows (Kept fun e => (e.saved, e.fs, e.gs)) (opcodesCflow k cs a true) :=
    fun a => placeBlind_saved.opcodesCflowAux (fun _ _ => rfl) _ a true
  have hkept := (placeBlind_saved.instrumentRequest hscan entry).of_ok hrequest
  simp only [Kept, Engine.saved, Prod.mk.injEq] at hkept
  obtain ⟨⟨⟨hfs₁, -⟩, -, hvbrk, hrequests⟩, hfs, hgs⟩ := hkept
  split at run
  · cases run
  · have hleave := leaveHost_eq hk (e := { e₁ with state := { e₁.state with rip := entry } })
      (hfs₁.trans hcache)
    have hrun : leaveHost k { e₁ with state := { e₁.state with rip := entry } } = .ok () e := run
    cases hleave.symm.trans hrun
    simp only [Engine.running, World.kept, Engine.guestAt, hfs, hgs, hvbrk, hrequests]

/-- For every guest whose stretches conform, and whatever instructions they end with: the
dispatches of an instrumented run see the registers and the memory, and choose the bases,
of a run in which the control-flow instructions are emulated in a process without hooks.
Such a run of the engine goes on until the emulation itself is stuck. -/
theorem instrument_refines {e₀ : Engine} {s₀ : StateRtime} {entry : Word} (hk : k.SetsBases)
    (fresh : Fresh e₀)
    (guest : Guest k cs exec e₀.dump.length e₀.restore.length (e₀.guestAt s₀ entry)) :
    ∃ e, instrument k cs entry e₀ = .ok () e ∧
      ∀ ds, InstrumentedRun k cs exec e ⟨{ s₀ with rip := entry }, e.space.byte⟩ ds →
        ∃ w, EmulatedRun k cs exec (e₀.guestAt s₀ entry) ds w ∧
          ((∃ d, InstrumentedRun k cs exec e ⟨{ s₀ with rip := entry }, e.space.byte⟩ (ds ++ [d])) ∨
            Stuck k cs exec w) := by
  obtain ⟨b, start, valid, conforms⟩ := guest.stretch (.nil _)
  have hentry : b.start.regs.rip = entry := by rw [start]; rfl
  have hmem : b.start.mem = e₀.space.byte := by rw [start]; rfl
  have hshort := conforms.short
  have hplaced : b.start.regs.rip - e₀.restore.length ≠ 0 := sub_ne_zero_of_lt conforms.base_gt
  have hpages : k.ProtectsBlock e₀.space e₀.dump.length e₀.restore.length b.start.regs.rip
      b.len := conforms.mapped.hooks
  rw [hentry] at hplaced hpages
  obtain ⟨e, hrun, hup, haround, -, hflag, hopened⟩ := instrument_up cs entry b.len hk fresh.cache
    fresh.sized.down
    (fun e' hspace hflag => by
      rw [← hentry]
      exact valid.scansTo conforms (by rw [hspace]; exact .refl _) (by rw [hspace, hmem])
        (hflag.trans fresh.flag))
    (by omega) hpages hplaced
    (block_hooks_disjoint hshort fresh.sized.dumpLe fresh.sized.restoreLe)
  rw [← hmem] at hup
  rw [← hentry] at haround
  have hready : Ready k e b.block := Around.ready haround hup fresh.sized hflag
  have hsynced : Synced k e (e₀.guestAt s₀ entry) b :=
    ⟨hready, start, instrument_kept hk fresh.cache hrun s₀, hopened⟩
  rw [← haround.dumpLength, ← haround.restoreLength] at conforms guest
  exact ⟨e, hrun, fun ds run => hsynced.refines hk valid conforms guest run⟩

end Runs

/-! ## A guest that asks for its number -/

/-- `eb fc` -/
def jmpBack : Insn :=
  { id := .JMP, size := 2, groups := [.JUMP, .BRANCH_RELATIVE], operands := [], rel := some (-4) }

/-- `0f 05` and `eb fc` -/
def loopEncodings : Encodings where
  entries := [([0x0f, 0x05], syscallInsn), ([0xeb, 0xfc], jmpBack)]
  length_eq := by decide
  size_pos := by decide
  size_le := by decide
  prefixFree := by decide

/-- A system call at `0x401000`, and a jump back to it. -/
def loopMem (a : Word) : Byte :=
  if a = 0x401000 then 0x0f else if a = 0x401001 then 0x05 else if a = 0x401002 then 0xeb else 0xfc

/-- The guest at `a`, with `rax`, the requests and the protections of its pages. -/
def loopWorld (a rax : Word) (rs : List Request) (prot : Word → Option Prot) : World where
  cpu := ⟨{ StateRtime.zero with rip := a, rax := rax }, loopMem⟩
  prot := prot
  fs := 0
  gs := 0
  hostFs := 0
  hostGs := 0
  vbrk := 0
  requests := rs

/-- The guest asks for its process number once, and then reads from then on. -/
inductive LoopAt : Word → Word → Prop where
  | getpid : LoopAt 0x401000 39
  | read : LoopAt 0x401000 0
  | jump : LoopAt 0x401002 0

/-- A world of this guest, in which pages may have been opened. -/
inductive AtLoop : World → Prop where
  | intro {a rax : Word} {rs : List Request} {prot : Word → Option Prot} (point : LoopAt a rax)
      (opened : (codeSpace loopMem).Opened ⟨loopMem, prot⟩) : AtLoop (loopWorld a rax rs prot)

/-- The registers that it starts with. -/
def loopRegs : StateRtime := { StateRtime.zero with rax := 39 }

/-- The engine that is to run it. -/
def loopEngine : Engine := { shortHooks with space := codeSpace loopMem }

section Loop

variable {cs : Capstone} {exec : Insn → Cpu → Cpu} {w w' : World} {b : Stretch} {i : Insn}

/-- A stretch that starts with a control-flow instruction is empty. -/
theorem Stretch.Valid.empty (valid : b.Valid cs exec)
    (hi : cs.decodeAt b.start.mem b.start.regs.rip = some i) (hc : i.cflow = true) :
    b.stop = b.start ∧ b.insn = i := by
  obtain ⟨straight, decodes, -⟩ := valid
  obtain ⟨start, len, stop, insn⟩ := b
  simp only at straight decodes hi ⊢
  cases straight with
  | stop c => exact ⟨rfl, Option.some.inj (decodes.symm.trans hi)⟩
  | step hi' hplain tail =>
    rw [Option.some.inj (hi'.symm.trans hi), hc] at hplain
    cases hplain

/-- The instruction that the guest has next. -/
theorem LoopAt.decodes {a rax : Word} (h : LoopAt a rax) :
    ∃ i, loopEncodings.capstone.decodeAt loopMem a = some i ∧ i.cflow = true ∧
      (i.lead = some .INT → getSyscallHook Kernel.code (rax.setWidth 32) ≠ none) := by
  cases h with
  | getpid => exact ⟨syscallInsn, rfl, rfl, fun _ h => by cases h⟩
  | read => exact ⟨syscallInsn, rfl, rfl, fun _ h => by cases h⟩
  | jump => exact ⟨jmpBack, rfl, rfl, fun h => by cases h⟩

/-- The emulation of that instruction. -/
theorem AtLoop.next (h : AtLoop w) {base : Word}
    (hi : loopEncodings.capstone.decodeAt w.cpu.mem w.cpu.regs.rip = some i)
    (hnext : Emulates Kernel.code i w base w') : AtLoop w' := by
  obtain ⟨-, prot', e, hopened, heval, rfl⟩ := hnext
  obtain ⟨point, hspace⟩ := h
  rename_i a rax rs prot
  have hspace' : (codeSpace loopMem).Opened ⟨loopMem, prot'⟩ := hspace.trans hopened
  cases point with
  | getpid =>
    cases hi
    cases heval
    exact .intro .jump hspace'
  | read =>
    cases hi
    cases heval
    exact .intro .jump hspace'
  | jump =>
    cases hi
    have hjmp : evalTargetInsn Kernel.code (jmpBack.atAddr 0) 0x401002
        ((loopWorld 0x401002 0 rs prot).engine prot') =
          .ok (0 + jmpBack.len + -4 + 0x401002) ((loopWorld 0x401002 0 rs prot).engine prot') :=
      rfl
    have hbase : (0 + jmpBack.len + -4 + 0x401002 : Word) = 0x401000 := by decide
    rw [hbase] at hjmp
    cases hjmp.symm.trans heval
    exact .intro .read hspace'

theorem AtLoop.run {ds : List Dispatch} (h : AtLoop w)
    (run : EmulatedRun Kernel.code loopEncodings.capstone idle w ds w') : AtLoop w' := by
  induction run with
  | nil w => exact h
  | cons start valid emulates shown tail ih =>
    have hnext := h
    obtain ⟨point, -⟩ := h
    obtain ⟨i, hi, hc, -⟩ := point.decodes
    obtain ⟨hstop, rfl⟩ := valid.empty (by rw [start]; exact hi) hc
    rw [hstop, start] at emulates
    exact ih (hnext.next hi emulates)

/-- In this loop every stretch is empty, so all of them conform. -/
theorem AtLoop.guest (h : AtLoop w) : Guest Kernel.code loopEncodings.capstone idle 1 1 w := by
  refine ⟨fun run => ?_⟩
  obtain ⟨point, hopened⟩ := h.run run
  rename_i a rax rs prot
  obtain ⟨i, hi, hc, hknown⟩ := point.decodes
  have hle : 0x401000 ≤ a.toNat ∧ a.toNat ≤ 0x401002 := by cases point <;> decide
  have hbase : (a - 1).toNat = a.toNat - 1 := by
    rw [BitVec.toNat_sub_of_le (by rw [BitVec.le_def]; exact Nat.le_trans (by decide) hle.1)]
    rfl
  have haround : Kernel.code.ProtectsAround (codeSpace loopMem) 1 a 0 := by
    refine code_protectsAround ?_ ?_
    · rw [BitVec.le_def, hbase]
      exact Nat.le_trans (by decide) (Nat.sub_le_sub_right hle.1 1)
    · rw [hbase]
      show a.toNat - 1 + (1 + 0 + 4096) < 0x500000
      omega
  have haround' : Kernel.code.ProtectsAround ⟨loopMem, prot⟩ 1 a 0 := haround.mono hopened
  refine ⟨⟨_, 0, _, i⟩, rfl, ⟨.stop _, hi, hc⟩, ⟨?_, Nat.two_pow_pos 31, ?_, hknown, ?_⟩⟩
  · show (1 : Word) < a
    rw [BitVec.lt_def]
    exact Nat.lt_of_lt_of_le (by decide) hle.1
  · exact fun j _ _ _ hj => absurd hj (Nat.not_lt_zero j)
  · exact ⟨.of_pages (.here hi hc) fun i hi => haround'.scan i (Nat.le_of_lt hi),
      haround'.block (show (1 : Word).toNat ≤ 64 by decide)⟩

end Loop

theorem instrument_refines_loop :
    ∃ e, instrument Kernel.code loopEncodings.capstone 0x401000 loopEngine = .ok () e ∧
      ∀ ds, InstrumentedRun Kernel.code loopEncodings.capstone idle e
          ⟨{ loopRegs with rip := 0x401000 }, e.space.byte⟩ ds →
        ∃ w, EmulatedRun Kernel.code loopEncodings.capstone idle
            (loopEngine.guestAt loopRegs 0x401000) ds w ∧
          ((∃ d, InstrumentedRun Kernel.code loopEncodings.capstone idle e
              ⟨{ loopRegs with rip := 0x401000 }, e.space.byte⟩ (ds ++ [d])) ∨
            Stuck Kernel.code loopEncodings.capstone idle w) := by
  have hguest : Guest Kernel.code loopEncodings.capstone idle 1 1
      (loopEngine.guestAt loopRegs 0x401000) := AtLoop.guest (.intro .getpid (.refl _))
  exact instrument_refines code_setsBases ⟨shortHooks_sized, rfl, rfl⟩ hguest

end Dryadalis
