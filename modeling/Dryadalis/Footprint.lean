import Dryadalis.Dispatch

/-!
# What the engine functions leave alone

Most results about the engine need to know that a long function does not touch
one thing.  Three conditions say it once for all functions that are built from the
same steps.

* `HookSteps k R`: the steps of the system call hooks move the state along `R`.
  Then every hook of `get_syscall_hook` does.
* `EvalSteps R`: the steps of `__eval_target` outside its system call case do.
  Then `__eval_target` does for an instruction that is not emulated as a system
  call.
* `Blind f`: what `f` reads is neither the address space, nor the hooks around a
  block, nor the log.  Then `write_hook`, `restore_bytes` and the functions that
  only call these keep it.  `LookBlind f` leaves out the hooks, which is enough for
  the functions that only look.  `HookBlind f` and `PlaceBlind f` add what the system
  call hooks and the move to the next block write.
-/

namespace Dryadalis

open ByteMem Exec

/-! ## The system call hooks -/

/-- The steps that the system call hooks are made of move the state along `R`.
`hook_arch_prctl` is one step: it is the only hook that writes the cached bases. -/
structure HookSteps (k : Kernel) (R : Engine → Engine → Prop) : Prop where
  output : Follows R (emit .output)
  dtor : Follows R (emit .dtor)
  setFsGs : ∀ fs gs, Follows R (setFsGs k fs gs)
  syscall : ∀ {nr} args, nr ≠ NR_arch_prctl → Follows R (syscall k nr args)
  setRax : ∀ v, Follows R (setRax v)
  space : ∀ m, Follows R (modify fun e => { e with space := m } : Eng Unit)
  vbrk : ∀ b, Follows R (modify fun e => { e with vbrk := b } : Eng Unit)
  archPrctl : Follows R (hookArchPrctl k)

namespace HookSteps

variable {k : Kernel} {R : Engine → Engine → Prop}

theorem mono {R' : Engine → Engine → Prop} (hR : ∀ {e e'}, R e e' → R' e e')
    (h : HookSteps k R) : HookSteps k R' where
  output := h.output.mono hR
  dtor := h.dtor.mono hR
  setFsGs fs gs := (h.setFsGs fs gs).mono hR
  syscall args hnr := (h.syscall args hnr).mono hR
  setRax v := (h.setRax v).mono hR
  space m := (h.space m).mono hR
  vbrk b := (h.vbrk b).mono hR
  archPrctl := h.archPrctl.mono hR

variable [IsPreorder Engine R]

theorem fatalDump {α : Type} (h : HookSteps k R) : Follows R (fatalDump : Eng α) :=
  .bind h.output fun _ => .bind h.dtor fun _ => .throw _

theorem doSyscall (h : HookSteps k R) {nr : Nat} {args : List Word} (hnr : nr ≠ NR_arch_prctl) :
    Follows R (doSyscall k nr args) := by
  unfold Dryadalis.doSyscall
  refine .bind .get fun e => .bind (h.setFsGs _ _) fun _ => .when h.fatalDump fun _ => ?_
  refine .bind (h.syscall _ hnr) fun _ => .bind (h.setRax _) fun _ => .bind .get fun e => ?_
  exact .bind (h.setFsGs _ _) fun _ => .ite h.fatalDump (.pure _)

theorem forward (h : HookSteps k R) {nr : Nat} {args : StateRtime → List Word}
    (hnr : nr ≠ NR_arch_prctl) : Follows R (forward k nr args) := by
  unfold Dryadalis.forward
  exact .bind .get fun e => .bind (h.doSyscall hnr) fun _ => .bind h.output fun _ => .pure _

theorem brk (h : HookSteps k R) : Follows R (hookBrk k) := by
  have hdone : ∀ base, Follows R (brkAnswer base) := fun base =>
    .bind (h.setRax _) fun _ => h.vbrk _
  refine .bind ?_ fun _ => .bind h.output fun _ => .pure _
  unfold brkMove
  refine .bind .get fun e => .ite (h.setRax _) (.ite (.throw _) (.ite ?_ (hdone _)))
  split
  · exact .bind h.output fun _ => .bind h.output fun _ => h.fatalDump
  · exact .bind (h.space _) fun _ => hdone _

theorem mmap (h : HookSteps k R) : Follows R (hookMmap k) := by
  unfold hookMmap
  refine .bind (h.forward (by decide)) fun _ => .bind .get fun e => ?_
  exact .when h.fatalDump fun _ => .pure _

theorem close (h : HookSteps k R) : Follows R (hookClose k) := by
  unfold hookClose
  refine .bind .get fun e => .ite ?_ (h.forward (by decide))
  exact .bind h.output fun _ => .bind (h.setRax _) fun _ => .bind h.output fun _ => .pure _

theorem runDtor (h : HookSteps k R) : Follows R runDtor :=
  .bind h.output fun _ => .bind h.dtor fun _ => .throw _

-- Keeps the unifier from opening the common body when it matches a hook against it.
attribute [local irreducible] Dryadalis.forward

/-- Every hook moves the state along `R`. -/
theorem hook (h : HookSteps k R) (s : Sys) : Follows R (s.hook k) := by
  cases s
  case brk => exact h.brk
  case archPrctl => exact h.archPrctl
  case mmap => exact h.mmap
  case close => exact h.close
  case exit => exact h.runDtor
  case exitGroup => exact h.runDtor
  all_goals
    refine (show Follows R (Dryadalis.forward k _ _) from h.forward ?_)
    decide

/-- So does the callback that `get_syscall_hook` returns. -/
theorem of_getSyscallHook (h : HookSteps k R) {n : BitVec 32} {callback : Eng Word}
    (hn : getSyscallHook k n = some callback) : Follows R callback := by
  rw [getSyscallHook, Option.map_eq_some_iff] at hn
  obtain ⟨s, -, rfl⟩ := hn
  exact h.hook s

end HookSteps

/-! ## Branch emulation -/

/-- The steps of `__eval_target` outside its system call case move the state along
`R`. -/
structure EvalSteps (R : Engine → Engine → Prop) : Prop where
  fatal : Follows R (fatalDump : Eng Bool)
  notFound : Follows R (emit .notFoundCflow)
  operand : Follows R (emit fun _ _ => .targetError)
  unhandled : ∀ a, Follows R (emit (.unhandledInsn a))
  push : ∀ size, Follows R (modify fun e => pushReturn e size : Eng Unit)
  pop : Follows R (modify popReturn : Eng Unit)

namespace EvalSteps

variable {k : Kernel} {R : Engine → Engine → Prop} [IsPreorder Engine R]

theorem isSet (flag : Word) : Follows R (isSet flag) := by
  intro e
  rw [isSet_eq]
  exact refl_of R e

theorem isJmpTaken (h : EvalSteps R) (id : InsnId) : Follows R (isJmpTaken id) := by
  have hone : ∀ (f : Word) (g : Bool → Bool),
      Follows R (do return g (← Dryadalis.isSet f) : Eng Bool) := fun f g =>
    .bind (isSet f) fun _ => .pure _
  have htwo : ∀ (f f' : Word) (g : Bool → Bool → Bool),
      Follows R (do return g (← Dryadalis.isSet f) (← Dryadalis.isSet f') : Eng Bool) :=
    fun f f' g => .bind (isSet f) fun a => hone f' (g a)
  have hthree : ∀ (f f' f'' : Word) (g : Bool → Bool → Bool → Bool),
      Follows R (do
        return g (← Dryadalis.isSet f) (← Dryadalis.isSet f') (← Dryadalis.isSet f'') : Eng Bool) :=
    fun f f' f'' g => .bind (isSet f) fun a => htwo f' f'' (g a)
  have hreg : ∀ r : X86Reg, Follows R (do return readReg r (← get).state == 0 : Eng Bool) :=
    fun _ => .bind .get fun _ => .pure _
  have hfail : Follows R (do emit .notFoundCflow; fatalDump : Eng Bool) :=
    .bind h.notFound fun _ => h.fatal
  cases id with
  | JE | JB | JO | JP | JS => exact isSet _
  | JNE | JAE | JNO | JNP | JNS => exact hone _ fun a => !a
  | JA => exact htwo _ _ fun a b => !a && !b
  | JBE => exact htwo _ _ fun a b => a || b
  | JCXZ | JECXZ | JRCXZ => exact hreg _
  | JG => exact hthree _ _ _ fun a b c => !a && b == c
  | JGE => exact htwo _ _ fun a b => a == b
  | JL => exact htwo _ _ fun a b => a != b
  | JLE => exact hthree _ _ _ fun a b c => a || b != c
  | JMP => exact .pure _
  | CALL | RET | SYSCALL | other => exact hfail

theorem evalOperand (h : EvalSteps R) (i : Insn) : Follows R (evalOperand i) := by
  unfold Dryadalis.evalOperand
  have hfail : Follows R (do emit fun _ _ => .targetError; return minusOne : Eng Word) :=
    .bind h.operand fun _ => .pure _
  refine .bind .get fun e => ?_
  split
  · exact .pure _
  · exact .pure _
  · split
    · exact .pure _
    · exact hfail
  · exact hfail

/-- The walk over the groups, with the system call case only where it is reached. -/
theorem evalGroups (h : EvalSteps R) {i : Insn} {a : Word} {gs : List Group}
    (hsys : gs.find? handled = some .INT → Follows R (evalSyscall k i a)) :
    Follows R (evalGroups k i a gs) := by
  have hjump : Follows R (do
      if ← Dryadalis.isJmpTaken i.id then Dryadalis.evalOperand i else return a + i.len) :=
    .bind (h.isJmpTaken _) fun _ => .ite (h.evalOperand i) (.pure _)
  induction gs with
  | nil => exact .bind (h.unhandled a) fun _ => .throw _
  | cons g gs ih =>
    cases g with
    | JUMP | BRANCH_RELATIVE => exact hjump
    | CALL => exact .bind (h.push _) fun _ => h.evalOperand i
    | RET => exact .bind h.pop fun _ => .bind .get fun _ => .pure _
    | INT => exact hsys rfl
    | IRET | PRIVILEGE | VM | other => exact ih hsys

end EvalSteps

section SyscallCase

variable {k : Kernel} {R : Engine → Engine → Prop} [IsPreorder Engine R]

/-- The system call case of `__eval_target` for a number that has a hook. -/
theorem HookSteps.callback (h : HookSteps k R) {callback : Eng Word}
    (hcallback : Follows R callback) (i : Insn) (a fs gs : Word) :
    Follows R (do
      if (← Dryadalis.setFsGs k fs gs) ≠ 0 then
        emit .output
      let ret ← callback
      let e ← get
      if (← Dryadalis.setFsGs k e.hostFs e.hostGs) ≠ 0 then
        Dryadalis.fatalDump
      if ret ≠ 0 then
        return ret
      return a + i.len : Eng Word) := by
  refine .bind (h.setFsGs _ _) fun _ => .when h.output fun _ => ?_
  refine .bind hcallback fun _ => .bind .get fun e => ?_
  refine .bind (h.setFsGs _ _) fun _ => .when h.fatalDump fun _ => ?_
  exact .ite (.pure _) (.pure _)

/-- The system call case of `__eval_target`, after the number has been looked up. -/
theorem HookSteps.afterLookup (h : HookSteps k R)
    (hflag : Follows R (modify fun e => { e with currSyscall := true } : Eng Unit)) (i : Insn)
    (a : Word) (e : Engine) :
    Follows R (match getSyscallHook k (e.state.rax.setWidth 32) with
      | some callback => do
        if (← Dryadalis.setFsGs k e.instrumentedFs e.instrumentedGs) ≠ 0 then
          emit .output
        let ret ← callback
        let e ← get
        if (← Dryadalis.setFsGs k e.hostFs e.hostGs) ≠ 0 then
          Dryadalis.fatalDump
        if ret ≠ 0 then
          return ret
        return a + i.len
      | none => do
        emit .output
        modify fun e => { e with currSyscall := true }
        return a : Eng Word) := by
  split
  · rename_i callback hcallback
    exact h.callback (h.of_getSyscallHook hcallback) i a _ _
  · exact .bind h.output fun _ => .bind hflag fun _ => .pure _

theorem HookSteps.evalSyscall (h : HookSteps k R)
    (hlookup : ∀ n, Follows R (emit fun _ _ => .lookup n))
    (hflag : Follows R (modify fun e => { e with currSyscall := true } : Eng Unit)) (i : Insn)
    (a : Word) : Follows R (evalSyscall k i a) :=
  .bind .get fun e => .bind (hlookup _) fun _ => h.afterLookup hflag i a e

end SyscallCase

/-! ## A system call -/

/-- A system call changes the memory, the bases and what was asked of the kernel. -/
theorem syscall_kept {k : Kernel} {τ : Type} {f : Engine → τ}
    (hf : ∀ e m rs fs gs, f { e with space := m, requests := rs, fs := fs, gs := gs } = f e)
    (nr : Nat) (args : List Word) : Follows (Kept f) (syscall k nr args) := by
  have hdone : ∀ code addr e, f (archPrctlDone code addr e) = f e := by
    intro code addr e
    unfold archPrctlDone
    split_ifs
    · exact hf e _ e.requests _ _
    · exact hf e _ e.requests _ _
    · exact hf e _ e.requests _ _
    · exact hf e _ e.requests _ _
    · rfl
  have hrequest : ∀ e r, f { e with requests := r :: e.requests } = f e := fun e r =>
    hf e _ _ _ _
  have hcall : Follows (Kept f) (kernelCall k nr args) := by
    unfold kernelCall
    refine .bind .get fun e => .ite (.bind ?_ fun _ => ?_) ?_
    · refine .bind (.modify fun e => ?_) fun _ => .pure _
      split
      · exact rfl
      · exact hdone _ _ e
    · exact .bind (.modify fun e => hrequest e _) fun _ => .pure _
    · exact .bind (.modify fun e => hf e _ _ e.fs e.gs) fun _ => .pure _
  exact .bind hcall fun _ => .pure _

/-! ## The hooks around a block -/

/-- What `f` reads is neither the address space nor the log. -/
structure LookBlind {τ : Type} (f : Engine → τ) : Prop where
  space : ∀ e m, f { e with space := m } = f e
  output : ∀ e, f { e with trace := .output e.fs e.gs :: e.trace } = f e
  dtor : ∀ e, f { e with trace := .dtor e.fs e.gs :: e.trace } = f e

namespace LookBlind

variable {τ : Type} {f : Engine → τ} {k : Kernel} {cs : Capstone}

theorem log (h : LookBlind f) : Follows (Kept f) (emit .output) := h.output

theorem fatalDump {α : Type} (h : LookBlind f) : Follows (Kept f) (fatalDump : Eng α) :=
  .bind h.log fun _ => .bind h.dtor fun _ => .throw _

theorem readMem (h : LookBlind f) (buf : Nat → Byte) (src size : Word) :
    Follows (Kept f) (readMem k buf src size) := by
  intro e
  unfold Dryadalis.readMem
  split
  · exact h.space e _
  · exact h.space e _

theorem writeMem (h : LookBlind f) (dst : Word) (buf : Nat → Byte) (size : Word) :
    Follows (Kept f) (writeMem k dst buf size) := by
  intro e
  unfold Dryadalis.writeMem
  split
  · exact h.space e _
  · exact h.space e _

theorem insnLen (h : LookBlind f) (target : Word) : Follows (Kept f) (insnLen k cs target) := by
  unfold Dryadalis.insnLen
  refine .when h.fatalDump fun _ => .bind (h.readMem _ _ _) fun r => ?_
  obtain ⟨ret, buf⟩ := r
  refine .when h.fatalDump fun _ => ?_
  split
  · exact .pure _
  · exact .bind h.log fun _ => .pure _

theorem orFatal (h : LookBlind f) (step : Space → Option Space) :
    Follows (Kept f) (orFatal step) := by
  unfold Dryadalis.orFatal
  refine .bind .get fun e => ?_
  split
  · exact h.fatalDump
  · exact .modify fun e => h.space e _

end LookBlind

/-- What `f` reads is not the two hooks either. -/
structure Blind {τ : Type} (f : Engine → τ) : Prop extends LookBlind f where
  hook : ∀ e which h, f (e.setHook which h) = f e

namespace Blind

variable {τ : Type} {f : Engine → τ} {k : Kernel} {cs : Capstone}

theorem mapHook (h : Blind f) (which : Which) : Follows (Kept f) (mapHook k which) := by
  unfold Dryadalis.mapHook
  refine .bind .get fun e => .ite ?_ (.ite ?_ (.pure _))
  · exact .bind (h.orFatal _) fun _ => .modify fun e => h.hook e _ _
  · exact .bind (h.orFatal _) fun _ => .modify fun e => h.hook e _ _

theorem makeExecutable (h : Blind f) (addr : Word) :
    Follows (Kept f) (makeExecutable k addr) := by
  unfold Dryadalis.makeExecutable
  split
  · exact .ite (.pure _) (h.orFatal _)
  · exact .pure _

theorem writeHook (h : Blind f) (which : Which) : Follows (Kept f) (writeHook k which) := by
  unfold Dryadalis.writeHook
  refine .bind (h.mapHook which) fun _ => .bind .get fun e => ?_
  refine .bind (h.readMem _ _ _) fun r => ?_
  obtain ⟨ret, buf⟩ := r
  refine .bind (.modify fun e => h.hook e _ _) fun _ => ?_
  refine .when h.fatalDump fun _ => .bind (h.writeMem _ _ _) fun _ => ?_
  exact .when h.fatalDump fun _ => .bind (h.makeExecutable _) fun _ => .pure _

theorem takeDown (h : Blind f) (which : Which) : Follows (Kept f) (takeDown k which) := by
  have hbytes : Follows (Kept f) (restoreBytes k which) := by
    unfold restoreBytes
    refine .bind .get fun e => .when h.fatalDump fun _ => ?_
    exact .bind (h.writeMem _ _ _) fun _ => .ite h.fatalDump (.pure _)
  unfold Dryadalis.takeDown
  refine .bind hbytes fun _ => .bind .get fun e => ?_
  exact .when (h.orFatal _) fun _ => .modify fun e => h.hook e _ _

theorem takeDownHooks (h : Blind f) : Follows (Kept f) (takeDownHooks k) := by
  unfold Dryadalis.takeDownHooks
  refine .bind .get fun e => .ite ?_ ?_
  · exact .bind (h.takeDown _) fun _ => h.takeDown _
  · exact .bind (.modify fun e => h.hook e .restore _) fun _ => h.takeDown _

/-- The scan for the end of a block sets the flag of an unknown system call. -/
theorem opcodesCflowAux (h : Blind f) (hflag : ∀ e b, f { e with currSyscall := b } = f e)
    (fuel : Nat) (addr : Word) (beg : Bool) :
    Follows (Kept f) (opcodesCflowAux k cs fuel addr beg) := by
  induction fuel generalizing addr beg with
  | zero => exact .throw _
  | succ fuel ih =>
    unfold Dryadalis.opcodesCflowAux
    refine .ite (.pure _) (.bind (h.readMem _ _ _) fun r => ?_)
    obtain ⟨saved, buf⟩ := r
    refine .when h.fatalDump fun _ => .bind .get fun e => ?_
    split
    · exact .throw _
    · exact .bind (.modify fun e => hflag e _) fun _ => .pure _
    · refine .bind (.modify fun e => hflag e _) fun _ => .ite ?_ h.fatalDump
      exact .bind (ih _ _) fun _ => .pure _

end Blind

/-- What `f` reads is not what is written when the hooks are put up around a block
either: the length of its last instruction, the address of the hook and `rip`. -/
structure PlaceBlind {τ : Type} (f : Engine → τ) : Prop extends Blind f where
  length : ∀ e n, f { e with lengthCflow := n } = f e
  currHook : ∀ e a, f { e with currHook := a } = f e
  rip : ∀ e a, f { e with state := { e.state with rip := a } } = f e

namespace PlaceBlind

variable {τ : Type} {f : Engine → τ} {k : Kernel} {cs : Capstone} {scan : Word → Eng Int}

theorem instrumentRequest (h : PlaceBlind f) (hscan : ∀ a, Follows (Kept f) (scan a))
    (base : Word) : Follows (Kept f) (instrumentRequest k cs scan base) := by
  have hbbl : Follows (Kept f) (instrumentBbl k cs scan base) := by
    unfold instrumentBbl
    refine .bind (hscan base) fun _ => .when h.fatalDump fun _ => ?_
    refine .bind (.modify fun e => h.hook e .dump _) fun _ => .bind (h.insnLen _) fun _ => ?_
    refine .bind (.modify fun e => h.length e _) fun _ => .bind (h.writeHook _) fun _ => ?_
    exact .when h.fatalDump fun _ => .pure _
  unfold Dryadalis.instrumentRequest
  refine .bind hbbl fun _ => .bind (.modify fun e => h.currHook e _) fun _ => ?_
  refine .bind (.modify fun e => ?_) fun _ => .bind (h.writeHook _) fun _ => ?_
  · have hhook := h.hook e .restore { e.restore with jmp := base - e.restore.length }
    exact (h.currHook (e.setHook .restore _) e.dump.jmp).trans hhook
  · exact .when h.fatalDump fun _ => .pure _

theorem instrumentAt (h : PlaceBlind f) (hscan : ∀ a, Follows (Kept f) (scan a))
    (base : Word) : Follows (Kept f) (instrumentAt k cs scan base) := by
  unfold Dryadalis.instrumentAt
  refine .when h.fatalDump fun _ => .bind (h.instrumentRequest hscan base) fun _ => ?_
  exact .when h.fatalDump fun _ => .modify fun e => h.rip e _

end PlaceBlind

/-- What `f` reads is none of what the system call hooks write either: the bases,
what was asked of the kernel, `rax` and the program break. -/
structure HookBlind {τ : Type} (f : Engine → τ) : Prop extends Blind f where
  kernel : ∀ e m rs fs gs, f { e with space := m, requests := rs, fs := fs, gs := gs } = f e
  cached : ∀ e fs gs, f { e with instrumentedFs := fs, instrumentedGs := gs } = f e
  rax : ∀ e v, f { e with state := { e.state with rax := v } } = f e
  vbrk : ∀ e b, f { e with vbrk := b } = f e

namespace HookBlind

variable {τ : Type} {f : Engine → τ} {k : Kernel}

theorem setFsGs (h : HookBlind f) (fs gs : Word) : Follows (Kept f) (setFsGs k fs gs) := by
  intro e
  obtain ⟨r, e', hset, -, fs', gs', he'⟩ := setFsGs_total k fs gs e
  rw [hset, he']
  exact h.kernel e e.space e.requests fs' gs'

theorem archPrctl (h : HookBlind f) : Follows (Kept f) (hookArchPrctl k) := by
  have hswitch : ∀ code addr, Follows (Kept f) (archPrctlSwitch code addr) := by
    intro code addr
    unfold archPrctlSwitch
    refine .ite (.modify fun e => ?_) (.ite (.modify fun e => ?_) (.ite h.log (.pure _)))
    · exact h.cached e addr e.instrumentedGs
    · exact h.cached e e.instrumentedFs addr
  unfold hookArchPrctl archPrctlBack
  refine .bind .get fun e => .bind (hswitch _ _) fun _ => .bind ?_ fun _ => ?_
  · exact syscall_kept h.kernel _ _
  refine .bind (.bind .get fun e => .ite ?_ (.pure _)) fun _ => ?_
  · exact .bind (h.setFsGs _ _) fun _ => .ite (.throw _) (.pure _)
  · exact .bind (.modify fun e => h.rax e _) fun _ => .bind h.log fun _ => .pure _

theorem hookSteps (h : HookBlind f) : HookSteps k (Kept f) where
  output := h.log
  dtor := .modify h.dtor
  setFsGs := h.setFsGs
  syscall args _ := syscall_kept h.kernel _ args
  setRax v := .modify fun e => h.rax e v
  space m := .modify fun e => h.space e m
  vbrk b := .modify fun e => h.vbrk e b
  archPrctl := h.archPrctl

end HookBlind

/-- The hooks log and run the destructor, add nothing else to the trace, and do not
touch `curr_syscall`. -/
theorem hookSteps_kept {k : Kernel} {τ : Type} {g : List Event → τ}
    (hlog : ∀ fs gs t, g (.output fs gs :: t) = g t)
    (hdtor : ∀ fs gs t, g (.dtor fs gs :: t) = g t) :
    HookSteps k (Kept fun e => (g e.trace, e.currSyscall)) := by
  have hblind : HookBlind fun e => (g e.trace, e.currSyscall) :=
    { space := fun _ _ => rfl
      hook := fun _ which _ => by cases which <;> rfl
      output := fun e => congrArg (·, e.currSyscall) (hlog e.fs e.gs e.trace)
      dtor := fun e => congrArg (·, e.currSyscall) (hdtor e.fs e.gs e.trace)
      kernel := fun _ _ _ _ _ => rfl
      cached := fun _ _ _ => rfl
      rax := fun _ _ => rfl
      vbrk := fun _ _ => rfl }
  exact hblind.hookSteps

end Dryadalis
