import Dryadalis.Lib.Commute
import Dryadalis.NativeSyscalls

/-!
# The guest in a process without hooks

`World` is a guest and what the engine keeps for it between two dispatches: the protections
of its pages, the two pairs of bases, the program break and what was asked of the kernel.
There are no hooks in it, and no code of the engine.

`World.engine` is the engine that has saved this guest.  It runs the branch emulation and
the system calls of the source, on the memory of the guest.  That this is what an engine
with hooks does too is a matter of what the source looks at: neither `__eval_target` nor
a system call hook reads the two hooks, `curr_hook` or the log, so all of them commute
with putting these fields in.  `evalTargetInsn_hooked` is the result for a whole
instruction.

`EmulatedRun` is a run of such a guest: it runs a block natively, and its control-flow
instruction is emulated.  `mem_read` and `mem_write` open pages on the way, which the
kernel may notice in a system call.  In an `EmulatedRun` it may find any of them open.
-/

namespace Dryadalis

open ByteMem Exec

/-! ## Worlds -/

/-- A guest, and what the engine keeps for it. -/
structure World where
  cpu : Cpu
  prot : Word → Option Prot
  fs : Word
  gs : Word
  hostFs : Word
  hostGs : Word
  vbrk : Word
  requests : List Request

/-- The memory of the guest. -/
def World.space (w : World) : Space := ⟨w.cpu.mem, w.prot⟩

/-- An engine without hooks that has saved the guest. -/
def World.engine (w : World) (prot : Word → Option Prot) : Engine :=
  { Engine.fresh ⟨w.cpu.mem, prot⟩ with
    state := w.cpu.regs
    hostFs := w.hostFs
    hostGs := w.hostGs
    instrumentedFs := w.fs
    instrumentedGs := w.gs
    fs := w.hostFs
    gs := w.hostGs
    vbrk := w.vbrk
    requests := w.requests }

/-- The guest that the engine has saved goes on at `base`. -/
def Engine.world (e : Engine) (base : Word) : World where
  cpu := ⟨{ e.state with rip := base }, e.space.byte⟩
  prot := e.space.prot
  fs := e.instrumentedFs
  gs := e.instrumentedGs
  hostFs := e.hostFs
  hostGs := e.hostGs
  vbrk := e.vbrk
  requests := e.requests

/-- The guest has got to `c`. -/
def World.at (w : World) (c : Cpu) : World := { w with cpu := c }

/-- The engine `e` with the hooks of `h`, and with what `h` has logged before. -/
def Engine.hooked (h e : Engine) : Engine :=
  { e with
    dump := h.dump
    restore := h.restore
    currHook := h.currHook
    takeCallback := h.takeCallback
    lengthCflow := h.lengthCflow
    trace := e.trace ++ h.trace }

/-! ## The emulation does not look at the hooks -/

section Hooked

variable {k : Kernel} {h : Engine}

theorem commutes_emit (mk : Word → Word → Event) : Commutes (Engine.hooked h) (emit mk) :=
  .modify fun _ => rfl

theorem commutes_fatalDump {α : Type} : Commutes (Engine.hooked h) (fatalDump : Eng α) :=
  .bind (commutes_emit _) fun _ => .bind (commutes_emit _) fun _ => .throw _

/-! ### System calls -/

theorem archPrctlDone_hooked (code : BitVec 32) (addr : Word) (e : Engine) :
    archPrctlDone code addr (h.hooked e) = h.hooked (archPrctlDone code addr e) := by
  unfold archPrctlDone
  split_ifs <;> rfl

theorem commutes_kernelArchPrctl (code : BitVec 32) (addr : Word) :
    Commutes (Engine.hooked h) (kernelArchPrctl k code addr) := by
  refine .bind (.modify fun e => ?_) fun _ => .pure _
  split
  · rfl
  · exact archPrctlDone_hooked code addr e

theorem commutes_setFsGs (fs gs : Word) : Commutes (Engine.hooked h) (setFsGs k fs gs) := by
  have hbase : ∀ code base, Commutes (Engine.hooked h) (archPrctl k code base) := fun code base =>
    .bind (commutes_kernelArchPrctl code base) fun _ => .pure _
  unfold setFsGs
  refine .bind (hbase _ _) fun _ => .ite (.pure _) ?_
  exact .bind (hbase _ _) fun _ => .ite (.pure _) (.pure _)

theorem commutes_syscall (nr : Nat) (args : List Word) :
    Commutes (Engine.hooked h) (syscall k nr args) := by
  have hcall : Commutes (Engine.hooked h) (kernelCall k nr args) := by
    unfold kernelCall
    refine .get_bind (fun _ => rfl) fun e => .ite ?_ ?_
    · refine .bind (commutes_kernelArchPrctl _ _) fun _ => ?_
      exact .bind (.modify fun _ => rfl) fun _ => .pure _
    · exact .bind (.modify fun _ => rfl) fun _ => .pure _
  exact .bind hcall fun _ => .pure _

theorem commutes_setRax (v : Word) : Commutes (Engine.hooked h) (setRax v) :=
  .modify fun _ => rfl

theorem commutes_forward (nr : Nat) (args : StateRtime → List Word) :
    Commutes (Engine.hooked h) (forward k nr args) := by
  have hcall : ∀ args, Commutes (Engine.hooked h) (doSyscall k nr args) := by
    intro args
    unfold doSyscall
    refine .get_bind (fun _ => rfl) fun e => .bind (commutes_setFsGs _ _) fun _ => ?_
    refine .when commutes_fatalDump fun _ => .bind (commutes_syscall _ _) fun _ => ?_
    refine .bind (commutes_setRax _) fun _ => .get_bind (fun _ => rfl) fun e => ?_
    exact .bind (commutes_setFsGs _ _) fun _ => .ite commutes_fatalDump (.pure _)
  unfold forward
  refine .get_bind (fun _ => rfl) fun e => .bind (hcall _) fun _ => ?_
  exact .bind (commutes_emit _) fun _ => .pure _

theorem commutes_hookBrk : Commutes (Engine.hooked h) (hookBrk k) := by
  have hanswer : ∀ base, Commutes (Engine.hooked h) (brkAnswer base) := fun base =>
    .bind (commutes_setRax _) fun _ => .modify fun _ => rfl
  have hmove : Commutes (Engine.hooked h) (brkMove k) := by
    unfold brkMove
    refine .get_bind (fun e => ?_) fun e => .ite (commutes_setRax _) ?_
    · simp only [Engine.hooked]
      rfl
    refine .ite (.throw _) (.ite ?_ (hanswer _))
    split
    · exact .bind (commutes_emit _) fun _ => .bind (commutes_emit _) fun _ => commutes_fatalDump
    · exact .bind (.modify fun _ => rfl) fun _ => hanswer _
  exact .bind hmove fun _ => .bind (commutes_emit _) fun _ => .pure _

theorem commutes_hookArchPrctl : Commutes (Engine.hooked h) (hookArchPrctl k) := by
  have hswitch : ∀ code addr, Commutes (Engine.hooked h) (archPrctlSwitch code addr) := by
    intro code addr
    unfold archPrctlSwitch
    refine .ite (.modify fun _ => rfl) (.ite (.modify fun _ => rfl) ?_)
    exact .ite (commutes_emit _) (.pure _)
  have hback : ∀ code, Commutes (Engine.hooked h) (archPrctlBack k code) := by
    intro code
    unfold archPrctlBack
    refine .get_bind (fun _ => rfl) fun e => .ite ?_ (.pure _)
    exact .bind (commutes_setFsGs _ _) fun _ => .ite (.throw _) (.pure _)
  unfold hookArchPrctl
  refine .get_bind (fun _ => rfl) fun e => .bind (hswitch _ _) fun _ => ?_
  refine .bind (commutes_syscall _ _) fun _ => .bind (hback _) fun _ => ?_
  exact .bind (commutes_setRax _) fun _ => .bind (commutes_emit _) fun _ => .pure _

theorem commutes_hookMmap : Commutes (Engine.hooked h) (hookMmap k) := by
  unfold hookMmap
  refine .bind (commutes_forward _ _) fun _ => .get_bind (fun _ => rfl) fun e => ?_
  exact .when commutes_fatalDump fun _ => .pure _

theorem commutes_hookClose : Commutes (Engine.hooked h) (hookClose k) := by
  unfold hookClose
  refine .get_bind (fun _ => rfl) fun e => .ite ?_ (commutes_forward _ _)
  refine .bind (commutes_emit _) fun _ => .bind (commutes_setRax _) fun _ => ?_
  exact .bind (commutes_emit _) fun _ => .pure _

theorem commutes_runDtor : Commutes (Engine.hooked h) runDtor :=
  .bind (commutes_emit _) fun _ => .bind (commutes_emit _) fun _ => .throw _

-- Keeps the unifier from opening the common body when it matches a hook against it.
attribute [local irreducible] forward

theorem commutes_hook (s : Sys) : Commutes (Engine.hooked h) (s.hook k) := by
  cases s
  case brk => exact commutes_hookBrk
  case archPrctl => exact commutes_hookArchPrctl
  case mmap => exact commutes_hookMmap
  case close => exact commutes_hookClose
  case exit => exact commutes_runDtor
  case exitGroup => exact commutes_runDtor
  all_goals exact (show Commutes (Engine.hooked h) (forward k _ _) from commutes_forward _ _)

theorem commutes_evalSyscall (i : Insn) (a : Word) :
    Commutes (Engine.hooked h) (evalSyscall k i a) := by
  unfold evalSyscall
  refine .get_bind (fun _ => rfl) fun e => .bind (commutes_emit _) fun _ => ?_
  split
  · rename_i callback hcallback
    rw [getSyscallHook, Option.map_eq_some_iff] at hcallback
    obtain ⟨s, -, rfl⟩ := hcallback
    refine .bind (commutes_setFsGs _ _) fun _ => .when (commutes_emit _) fun _ => ?_
    refine .bind (commutes_hook s) fun _ => .get_bind (fun _ => rfl) fun e => ?_
    refine .bind (commutes_setFsGs _ _) fun _ => .when commutes_fatalDump fun _ => ?_
    exact .ite (.pure _) (.pure _)
  · exact .bind (commutes_emit _) fun _ => .bind (.modify fun _ => rfl) fun _ => .pure _

/-! ### Branches -/

theorem commutes_isJmpTaken (id : InsnId) : Commutes (Engine.hooked h) (isJmpTaken id) := by
  intro e
  cases hid : id.listed with
  | true =>
    unfold isJmpTaken
    cases id with
    | CALL | RET | SYSCALL | other => cases hid
    | JMP | JCXZ | JECXZ | JRCXZ => rfl
    | _ =>
      simp only [isSet_eq, bind_apply, pure_apply]
      rfl
  | false =>
    have hfail : isJmpTaken id = (do emit .notFoundCflow; fatalDump : Eng Bool) := by
      cases id with
      | CALL | RET | SYSCALL | other => rfl
      | _ => cases hid
    rw [hfail]
    exact Commutes.bind (commutes_emit _) (fun _ => commutes_fatalDump) e

theorem commutes_evalOperand (i : Insn) : Commutes (Engine.hooked h) (evalOperand i) := by
  have hfail : Commutes (Engine.hooked h)
      (do emit fun _ _ => .targetError; return minusOne : Eng Word) :=
    .bind (commutes_emit _) fun _ => .pure _
  unfold evalOperand
  refine .get_bind (fun _ => rfl) fun e => ?_
  split
  · exact .pure _
  · exact .pure _
  · split
    · exact .pure _
    · exact hfail
  · exact hfail

/-- What the emulation of an instruction does does not depend on the hooks. -/
theorem evalTargetInsn_hooked (i : Insn) (a : Word) :
    Commutes (Engine.hooked h) (evalTargetInsn k i a) := by
  have hjump : Commutes (Engine.hooked h)
      (do if ← isJmpTaken i.id then evalOperand i else return a + i.len : Eng Word) :=
    .bind (commutes_isJmpTaken _) fun _ => .ite (commutes_evalOperand i) (.pure _)
  have hgroups : ∀ gs, Commutes (Engine.hooked h) (evalGroups k i a gs) := by
    intro gs
    induction gs with
    | nil => exact .bind (commutes_emit _) fun _ => .throw _
    | cons g gs ih =>
      cases g with
      | JUMP | BRANCH_RELATIVE => exact hjump
      | CALL => exact .bind (.modify fun _ => rfl) fun _ => commutes_evalOperand i
      | RET =>
        refine .bind (.modify fun _ => rfl) fun _ => ?_
        exact .get_bind (fun _ => rfl) fun _ => .pure _
      | INT => exact commutes_evalSyscall i a
      | IRET | PRIVILEGE | VM | other => exact ih
  exact hgroups i.groups

end Hooked

/-! ## Emulated runs -/

/-- A stretch of a run that the guest does itself: its first state, its length, and the
state at the control-flow instruction behind it. -/
structure Stretch where
  start : Cpu
  len : Nat
  stop : Cpu
  insn : Insn

/-- The stretch as a block, with nothing said about where it goes on. -/
def Stretch.block (b : Stretch) : BlockRun :=
  { start := b.start, len := b.len, stop := b.stop, insn := b.insn, next := b.stop }

section Emulated

variable (k : Kernel) (cs : Capstone) (exec : Insn → Cpu → Cpu)

/-- The stretch is what the processor does. -/
structure Stretch.Valid (b : Stretch) : Prop where
  straight : Straight cs exec b.start b.len b.stop
  decodes : cs.decodeAt b.stop.mem b.stop.regs.rip = some b.insn
  cflow : b.insn.cflow = true

/-- The stretch touches neither the patched ranges nor its own code, its first address is
above the length of the restore hook, its length is an `int`, and if it ends with a system
call, then with one that has a hook.  The engine can work on the pages around it, with the
protections of `m`. -/
structure Stretch.Conforms (dump restore : Word) (m : Space) (b : Stretch) : Prop where
  base_gt : restore < b.start.regs.rip
  short : b.len < 2 ^ 31
  avoids : StraightAvoids cs exec b.start b.len (b.block.region dump restore)
  known : b.insn.lead = some .INT → getSyscallHook k (b.stop.regs.rax.setWidth 32) ≠ none
  mapped : b.block.Mapped k cs m dump restore

/-- The emulation of an instruction leads to the base of the next block and to the world
there.  The kernel may find pages that have been opened. -/
def Emulates (i : Insn) (w : World) (base : Word) (w' : World) : Prop :=
  base ≠ minusOne ∧ ∃ prot e, w.space.Opened ⟨w.cpu.mem, prot⟩ ∧
    evalTargetInsn k (i.atAddr 0) w.cpu.regs.rip (w.engine prot) = .ok base e ∧
      w' = e.world base

/-- The guest runs natively up to a control-flow instruction, which is emulated, and goes
on from there.  What is shown of each turn is what is seen of a dispatch. -/
inductive EmulatedRun : World → List Dispatch → World → Prop where
  | nil (w) : EmulatedRun w [] w
  | cons {b : Stretch} {w w₁ w' : World} {d : Dispatch} {ds : List Dispatch}
      (start : b.start = w.cpu) (valid : b.Valid cs exec)
      (emulates : Emulates k b.insn (w.at b.stop) d.next w₁)
      (shown : d.regs = b.stop.regs ∧ d.mem = b.stop.mem)
      (tail : EmulatedRun w₁ ds w') : EmulatedRun w (d :: ds) w'

/-- Wherever the guest gets to, it has a stretch to go on with that conforms. -/
structure Guest (dump restore : Word) (w : World) : Prop where
  stretch : ∀ {ds w'}, EmulatedRun k cs exec w ds w' →
    ∃ b : Stretch, b.start = w'.cpu ∧ b.Valid cs exec ∧ b.Conforms k cs exec dump restore w'.space

/-- The guest gets to a control-flow instruction, and its emulation does not come back with
the base of another block. -/
def Stuck (w : World) : Prop :=
  ∃ b : Stretch, b.start = w.cpu ∧ b.Valid cs exec ∧
    ∃ prot, w.space.Opened ⟨w.cpu.mem, prot⟩ ∧ ∀ base e,
      evalTargetInsn k (b.insn.atAddr 0) b.stop.regs.rip ((w.at b.stop).engine prot) = .ok base e →
        base = minusOne

variable {k cs exec}

/-- What holds of a guest holds of it after each of its turns. -/
theorem Guest.after {dump restore : Word} {w w₁ : World} {d : Dispatch} {b : Stretch}
    (guest : Guest k cs exec dump restore w) (start : b.start = w.cpu) (valid : b.Valid cs exec)
    (emulates : Emulates k b.insn (w.at b.stop) d.next w₁)
    (shown : d.regs = b.stop.regs ∧ d.mem = b.stop.mem) : Guest k cs exec dump restore w₁ :=
  ⟨fun run => guest.stretch (.cons start valid emulates shown run)⟩

end Emulated

end Dryadalis
