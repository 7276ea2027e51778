import Dryadalis.Scan
import Dryadalis.Syscalls

/-!
# Branch emulation

When the guest reaches the dump hook, the control-flow instruction under it has
not run.  `eval_target` decodes it and `__eval_target` emulates it on the saved
registers: it returns the address where the guest goes on, and changes `rsp` and
the stack for a call or a return.

`__eval_target` walks the groups of the instruction and acts on the first one it
knows (`handled`).  Three points of the source matter later.

* Capstone is asked to disassemble at address 0, so the immediate of a relative
  branch is `size + rel` and the saved `rip` is added to it.
* A call pushes its return address before its operand is evaluated.
* A register that cannot be read is told from one that can by the value `-1`.

The operand, the return address and the push are loads and stores of the instruction itself.
They are made without regard to the protections of the pages: where one of them faults in the
engine it would have faulted in the guest, and there is no next address to speak of.

`evalTargetInsn_of_lead` reduces the walk to the group that decides.  The spec
lemmas after it, one for each kind of instruction, are what the later files use.
-/

namespace Dryadalis

open ByteMem

/-! ## Conditions -/

def CF : Word := 0x1
def PF : Word := 0x4
def ZF : Word := 0x40
def SF : Word := 0x80
def OF : Word := 0x800

/-- `is_set` -/
def isSet (flag : Word) : Eng Bool := do
  let e ← get
  let eflags := readReg .EFLAGS e.state
  if eflags = minusOne then
    fatalDump
  return eflags &&& flag != 0

/-- `is_jmp_taken` -/
def isJmpTaken (id : InsnId) : Eng Bool := do
  match id with
  | .JE => isSet ZF
  | .JNE => return !(← isSet ZF)
  | .JA => return !(← isSet CF) && !(← isSet ZF)
  | .JAE => return !(← isSet CF)
  | .JB => isSet CF
  | .JBE => return (← isSet CF) || (← isSet ZF)
  | .JCXZ => return readReg .CX (← get).state == 0
  | .JECXZ => return readReg .ECX (← get).state == 0
  | .JRCXZ => return readReg .RCX (← get).state == 0
  | .JG => return !(← isSet ZF) && (← isSet SF) == (← isSet OF)
  | .JGE => return (← isSet SF) == (← isSet OF)
  | .JL => return (← isSet SF) != (← isSet OF)
  | .JLE => return (← isSet ZF) || (← isSet SF) != (← isSet OF)
  | .JO => isSet OF
  | .JNO => return !(← isSet OF)
  | .JP => isSet PF
  | .JNP => return !(← isSet PF)
  | .JS => isSet SF
  | .JNS => return !(← isSet SF)
  | .JMP => return true
  | _ =>
    emit .notFoundCflow
    fatalDump

/-! ## Operands -/

/-- The address of a memory operand, from the registers as `read_reg` returns
them.  `none` is the failure that the source reports.  The segment is not
looked at. -/
def memAddress (s : StateRtime) (m : MemOp) (size : Word) : Option Word :=
  let base := readReg m.base s
  let index := if m.index ≠ .INVALID then readReg m.index s else 0
  if base ≠ minusOne ∧ index ≠ minusOne then
    let base := if m.base = .RIP then base + size else base
    some (base + index * BitVec.ofInt 64 m.scale + m.disp)
  else
    none

/-- The switch on the operand type in `__eval_target`. -/
def evalOperand (i : Insn) : Eng Word := do
  let e ← get
  match i.operand with
  | .reg r => return readReg r e.state
  | .imm v => return v + e.state.rip
  | .mem m =>
    match memAddress e.state m i.len with
    | some a => return load64 e.space.byte a
    | none =>
      emit fun _ _ => .targetError
      return minusOne
  | .invalid =>
    emit fun _ _ => .targetError
    return minusOne

/-! ## The groups -/

/-- `is_ret` -/
def isRet (g : Group) : Bool := g = .RET

/-- `is_call` -/
def isCall (g : Group) : Bool := g = .CALL

/-- `is_syscall` -/
def isSyscall (g : Group) : Bool := g = .INT

/-- The push of a call: `rsp` goes down by 8 and the return address is stored
there. -/
def pushReturn (e : Engine) (size : Word) : Engine :=
  { e with
    state := { e.state with rsp := e.state.rsp - 8 }
    space := { e.space with
      byte := store64 e.space.byte (e.state.rsp - 8) (e.state.rip + size) } }

/-- The pop of a return. -/
def popReturn (e : Engine) : Engine :=
  { e with state := { e.state with rsp := e.state.rsp + 8 } }

/-- The system call case of `__eval_target`. -/
def evalSyscall (k : Kernel) (i : Insn) (instruction : Word) : Eng Word := do
  let e ← get
  emit fun _ _ => .lookup (e.state.rax.setWidth 32)
  match getSyscallHook k (e.state.rax.setWidth 32) with
  | some callback =>
    if (← setFsGs k e.instrumentedFs e.instrumentedGs) ≠ 0 then
      emit .output
    let ret ← callback
    let e ← get
    if (← setFsGs k e.hostFs e.hostGs) ≠ 0 then
      fatalDump
    if ret ≠ 0 then
      return ret
    return instruction + i.len
  | none =>
    emit .output
    modify fun e => { e with currSyscall := true }
    return instruction

/-- The loop of `__eval_target` over the groups.  The flag `achieve` of the source
is left out: it is set only on a path that returns. -/
def evalGroups (k : Kernel) (i : Insn) (instruction : Word) : List Group → Eng Word
  | [] => do
    emit (.unhandledInsn instruction)
    throw .exit
  | g :: gs => do
    if g = .JUMP || g = .BRANCH_RELATIVE || isCall g then
      if isCall g then
        modify fun e => pushReturn e i.len
        evalOperand i
      else if ← isJmpTaken i.id then
        evalOperand i
      else
        return instruction + i.len
    else if isRet g then
      modify popReturn
      let e ← get
      return load64 e.space.byte (readReg .RSP e.state - 8)
    else if isSyscall g then
      evalSyscall k i instruction
    else
      evalGroups k i instruction gs

/-- `__eval_target` -/
def evalTargetInsn (k : Kernel) (i : Insn) (instruction : Word) : Eng Word :=
  evalGroups k i instruction i.groups

/-! ## From addresses to instructions -/

/-- `INSTRUCTION_MAX_SZ` -/
def INSTRUCTION_MAX_SZ : Word := 16

/-- `insn_len` -/
def insnLen (k : Kernel) (cs : Capstone) (target : Word) : Eng Int := do
  if !isMappedRange target INSTRUCTION_MAX_SZ then
    fatalDump
  let (ret, buf) ← readMem k (fun _ => 0) target INSTRUCTION_MAX_SZ
  if ret = -1 then
    fatalDump
  match cs.disasm target ((List.range 16).map buf) with
  | some i => return i.size
  | none =>
    emit .output
    return -1

/-- `eval_target`.  When nothing decodes, Capstone leaves a null pointer that
`__eval_target` then follows. -/
def evalTarget (k : Kernel) (cs : Capstone) (instruction : Word) : Eng Word := do
  let (ret, buf) ← readMem k (fun _ => 0) instruction INSTRUCTION_MAX_SZ
  if ret = -1 then
    emit .output
    return minusOne
  match cs.disasm 0 ((List.range 16).map buf) with
  | none => throw .crash
  | some i => evalTargetInsn k i instruction

/-! ## The group that decides -/

/-- The groups that the loop of `__eval_target` acts on. -/
def handled : Group → Bool
  | .JUMP | .BRANCH_RELATIVE | .CALL | .RET | .INT => true
  | _ => false

/-- The first group that `__eval_target` acts on. -/
def Insn.lead (i : Insn) : Option Group := i.groups.find? handled

@[simp] theorem Insn.atAddr_lead (i : Insn) (addr : Word) : (i.atAddr addr).lead = i.lead := by
  rw [Insn.lead, Insn.atAddr_groups, Insn.lead]

/-- The groups before and after the first handled one do not matter. -/
theorem evalGroups_of_find {k : Kernel} {i : Insn} {a : Word} {g : Group} :
    ∀ {gs : List Group}, gs.find? handled = some g →
      evalGroups k i a gs = evalGroups k i a [g] := by
  intro gs
  induction gs with
  | nil =>
    intro h
    cases h
  | cons g' gs ih =>
    intro h
    rw [List.find?_cons] at h
    cases hg : handled g' with
    | true =>
      rw [hg] at h
      cases h
      cases g <;> first | rfl | cases hg
    | false =>
      rw [hg] at h
      have hskip : evalGroups k i a (g' :: gs) = evalGroups k i a gs := by
        cases g' <;> first | rfl | cases hg
      rw [hskip]
      exact ih h

section Lead

variable {k : Kernel} {i : Insn} {a : Word} {e : Engine}

theorem evalTargetInsn_of_lead {g : Group} (h : i.lead = some g) :
    evalTargetInsn k i a = evalGroups k i a [g] :=
  evalGroups_of_find h

/-- A call pushes and then evaluates its operand. -/
theorem evalTargetInsn_call (h : i.lead = some .CALL) :
    evalTargetInsn k i a e = evalOperand i (pushReturn e i.len) := by
  rw [evalTargetInsn_of_lead h]
  rfl

/-- A return pops.  The operand of the instruction is not read. -/
theorem evalTargetInsn_ret (h : i.lead = some .RET) :
    evalTargetInsn k i a e = .ok (load64 e.space.byte e.state.rsp) (popReturn e) := by
  have hpop : readReg .RSP (popReturn e).state - 8 = e.state.rsp := by
    rw [readReg_RSP]
    exact BitVec.add_sub_cancel _ _
  rw [evalTargetInsn_of_lead h, ← hpop]
  rfl

/-- A jump evaluates its operand when it is taken, and falls through otherwise. -/
theorem evalTargetInsn_jump {taken : Bool}
    (h : i.lead = some .JUMP ∨ i.lead = some .BRANCH_RELATIVE)
    (htaken : isJmpTaken i.id e = .ok taken e) :
    evalTargetInsn k i a e = if taken then evalOperand i e else .ok (a + i.len) e := by
  have hgroups : evalTargetInsn k i a =
      (do if ← isJmpTaken i.id then evalOperand i else return a + i.len) := by
    rcases h with h | h
    · rw [evalTargetInsn_of_lead h]
      rfl
    · rw [evalTargetInsn_of_lead h]
      rfl
  rw [hgroups, Exec.bind_of_ok htaken]
  cases taken <;> rfl

end Lead

/-! ## Flags -/

/-- `is_set` never fails, because `read_reg` masks the flags it returns. -/
theorem isSet_eq {e : Engine} (flag : Word) :
    isSet flag e = .ok (readReg .EFLAGS e.state &&& flag != 0) e := by
  rw [isSet, Exec.bind_of_ok (Exec.get_apply e)]
  simp only [if_neg (readReg_EFLAGS_ne e.state)]
  rfl

/-! ## Values of operands -/

section Operand

variable {i : Insn} {e : Engine}

theorem evalOperand_reg {g : Gpr} (h : i.operand = .reg g.reg64) :
    evalOperand i e = .ok (e.state.gpr g) e := by
  rw [evalOperand, Exec.bind_of_ok (Exec.get_apply e), h, ← readReg_reg64]
  rfl

theorem evalOperand_imm {v : Word} (h : i.operand = .imm v) :
    evalOperand i e = .ok (v + e.state.rip) e := by
  rw [evalOperand, Exec.bind_of_ok (Exec.get_apply e), h]
  rfl

theorem evalOperand_mem {m : MemOp} {a : Word} (h : i.operand = .mem m)
    (ha : memAddress e.state m i.len = some a) :
    evalOperand i e = .ok (load64 e.space.byte a) e := by
  rw [evalOperand, Exec.bind_of_ok (Exec.get_apply e), h]
  simp only [ha]
  rfl

/-- A failure to read a register is reported. -/
theorem evalOperand_mem_none {m : MemOp} (h : i.operand = .mem m)
    (ha : memAddress e.state m i.len = none) :
    evalOperand i e = .ok minusOne { e with trace := .targetError :: e.trace } := by
  rw [evalOperand, Exec.bind_of_ok (Exec.get_apply e), h]
  simp only [ha]
  rfl

end Operand

end Dryadalis
