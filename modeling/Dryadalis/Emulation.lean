import Dryadalis.Indirect
import Dryadalis.Native

/-!
# The emulation of a near branch is the branch

`evalTargetInsn_branch` compares the two meanings of a control-flow instruction:
`Insn.branch` on the processor of the guest, and `__eval_target` on the saved
registers.  For every kind of instruction that `Insn.branch` knows they agree on the
target, on the registers and on the memory.  The emulation leaves `rip` where it is.

What the comparison needs from Capstone is the order of the groups: the first group
that `__eval_target` acts on has to be the one that names the kind of the branch.
-/

namespace Dryadalis

open ByteMem Exec

/-- The first group that `__eval_target` acts on is the kind of the branch.  For a
direct call this is that `CALL` comes before `BRANCH_RELATIVE`. -/
structure Capstone.ListsBranches (cs : Capstone) : Prop where
  call : ∀ {bs i}, cs.decode bs = some i → i.id = .CALL → i.lead = some .CALL
  ret : ∀ {bs i}, cs.decode bs = some i → i.id = .RET → i.lead = some .RET
  jump : ∀ {bs i s t}, cs.decode bs = some i → i.id.taken s = some t →
    i.lead = some .JUMP ∨ i.lead = some .BRANCH_RELATIVE

/-! ## Conditions -/

section Conditions

variable {e : Engine}

/-- A flag that the mask of `read_reg` keeps. -/
theorem isSet_twoPow {n : Nat} (hmask : (0xFCFFFF : Word).getLsbD n = true) :
    isSet (BitVec.twoPow 64 n) e = .ok (e.state.flag n) e := by
  have hn : n < 64 := BitVec.lt_of_getLsbD hmask
  have hbit : (readReg .EFLAGS e.state).getLsbD n = e.state.flag n := by
    rw [readReg_EFLAGS, BitVec.getLsbD_and, hmask, Bool.and_true]
    rfl
  have hpow : (BitVec.twoPow 64 n != 0) = true := by
    rw [bne_iff_ne]
    intro hzero
    have hone := congrArg (fun v : Word => v.getLsbD n) hzero
    simp [hn] at hone
  rw [isSet_eq, BitVec.and_twoPow, hbit]
  cases e.state.flag n with
  | true =>
    rw [if_pos rfl, hpow]
  | false => rfl

theorem isSet_CF : isSet CF e = .ok (e.state.flag 0) e := isSet_twoPow (n := 0) (by decide)

theorem isSet_PF : isSet PF e = .ok (e.state.flag 2) e := isSet_twoPow (n := 2) (by decide)

theorem isSet_ZF : isSet ZF e = .ok (e.state.flag 6) e := isSet_twoPow (n := 6) (by decide)

theorem isSet_SF : isSet SF e = .ok (e.state.flag 7) e := isSet_twoPow (n := 7) (by decide)

theorem isSet_OF : isSet OF e = .ok (e.state.flag 11) e := isSet_twoPow (n := 11) (by decide)

theorem ECX_eq_zero (s : StateRtime) : (readReg .ECX s == 0) = (s.rcx.setWidth 32 == 0) := by
  rw [readReg_ECX, Bool.eq_iff_iff, beq_iff_eq, beq_iff_eq, ← BitVec.toNat_inj, ← BitVec.toNat_inj,
    BitVec.toNat_and, BitVec.toNat_setWidth]
  exact Iff.of_eq (congrArg (· = 0) (Nat.and_two_pow_sub_one_eq_mod s.rcx.toNat 32))

/-- `is_jmp_taken` decides the architectural condition. -/
theorem isJmpTaken_eq {id : InsnId} {t : Bool} (h : id.taken e.state = some t) :
    isJmpTaken id e = .ok t e := by
  unfold isJmpTaken
  cases id <;> cases h
  case JMP => rfl
  case JECXZ => exact congrArg (EStateM.Result.ok · e) (ECX_eq_zero e.state)
  case JRCXZ => exact congrArg (fun v : Word => EStateM.Result.ok (v == 0) e) (readReg_RCX e.state)
  all_goals
    simp only [isSet_CF, isSet_PF, isSet_ZF, isSet_SF, isSet_OF, bind_apply, pure_apply]

end Conditions

/-! ## Branches -/

/-- The engine after the emulation of a branch that leads to `c`. -/
def Engine.emulated (e : Engine) (c : Cpu) : Engine :=
  { e with
    state := { c.regs with rip := e.state.rip }
    space := { e.space with byte := c.mem } }

/-- The guest as the engine has saved it. -/
def Engine.cpu (e : Engine) : Cpu where
  regs := e.state
  mem := e.space.byte

theorem Gpr.reg64_of_ofReg64 {r : X86Reg} {g : Gpr} (h : Gpr.ofReg64 r = some g) : r = g.reg64 := by
  have hfound := List.find?_some h
  exact (of_decide_eq_true hfound).symm

section Branches

variable {k : Kernel} {i : Insn} {e : Engine} {c : Cpu}

theorem Insn.operand_atAddr {r : Word} (h : i.rel = some r) :
    (i.atAddr 0).operand = .imm (i.len + r) := by
  rw [Insn.atAddr, h]
  simp [Insn.operand]

/-- The immediate at address 0, added to `rip`, is the target. -/
theorem rel_target (i : Insn) (e : Engine) (r : Word) :
    i.len + r + e.state.rip = e.cpu.after i + r := by
  rw [Cpu.after, Engine.cpu, BitVec.add_comm, ← BitVec.add_assoc]

theorem Insn.atAddr_of_rel_none (h : i.rel = none) : i.atAddr 0 = i := by
  rw [Insn.atAddr, h]

/-- A direct call. -/
theorem evalTargetInsn_callRel {r : Word} (hlead : i.lead = some .CALL) (hrel : i.rel = some r) :
    evalTargetInsn k (i.atAddr 0) e.state.rip e =
      .ok (e.cpu.after i + r)
        (e.emulated (e.cpu.call (e.cpu.after i) (e.cpu.after i + r))) := by
  rw [evalTargetInsn_call (by rw [Insn.atAddr_lead, hlead]),
    evalOperand_imm (Insn.operand_atAddr hrel), Insn.atAddr_len]
  show EStateM.Result.ok (i.len + r + e.state.rip) (pushReturn e i.len) = _
  rw [rel_target]
  rfl

/-- A relative jump, taken or not. -/
theorem evalTargetInsn_jumpRel {r : Word} {t : Bool}
    (hlead : i.lead = some .JUMP ∨ i.lead = some .BRANCH_RELATIVE) (hrel : i.rel = some r)
    (ht : i.id.taken e.state = some t) :
    evalTargetInsn k (i.atAddr 0) e.state.rip e =
      .ok (if t then e.cpu.after i + r else e.cpu.after i) e := by
  have htaken : isJmpTaken (i.atAddr 0).id e = .ok t e := by
    rw [Insn.atAddr_id]
    exact isJmpTaken_eq ht
  rw [evalTargetInsn_jump (by rw [Insn.atAddr_lead]; exact hlead) htaken,
    evalOperand_imm (Insn.operand_atAddr hrel), Insn.atAddr_len, rel_target]
  cases t <;> rfl

/-- A jump through a register. -/
theorem evalTargetInsn_jmpReg {g : Gpr} (hid : i.id = .JMP)
    (hlead : i.lead = some .JUMP ∨ i.lead = some .BRANCH_RELATIVE)
    (hop : i.operand = .reg g.reg64) (a : Word) :
    evalTargetInsn k i a e = .ok (e.state.gpr g) e := by
  have htaken : isJmpTaken i.id e = .ok true e := by
    rw [hid]
    rfl
  rw [evalTargetInsn_jump hlead htaken, if_pos rfl, evalOperand_reg hop]

/-- A call through a register other than `rsp`. -/
theorem evalTargetInsn_callReg {g : Gpr} (hlead : i.lead = some .CALL)
    (hop : i.operand = .reg g.reg64) (hg : g ≠ .rsp) (a : Word) :
    evalTargetInsn k i a e =
      .ok (e.state.gpr g) (e.emulated (e.cpu.call (e.cpu.after i) (e.state.gpr g))) := by
  rw [evalTargetInsn_call hlead, evalOperand_reg hop, pushReturn_gpr, if_neg hg]
  rfl

/-- For every near branch, `__eval_target` returns the address where the processor
goes on, and leaves the registers and the memory that the processor leaves. -/
theorem evalTargetInsn_branch {cs : Capstone} {bs : List Byte} (hcs : cs.ListsBranches)
    (hi : cs.decode bs = some i) (hb : i.branch e.cpu = some c) :
    evalTargetInsn k (i.atAddr 0) e.state.rip e = .ok c.regs.rip (e.emulated c) := by
  unfold Insn.branch at hb
  cases hrel : i.rel with
  | some r =>
    simp only [hrel] at hb
    unfold Insn.branchRel at hb
    split at hb
    · rename_i hid
      cases hb
      exact evalTargetInsn_callRel (hcs.call hi hid) hrel
    · rw [Option.map_eq_some_iff] at hb
      obtain ⟨t, ht, rfl⟩ := hb
      exact evalTargetInsn_jumpRel (hcs.jump hi ht) hrel ht
  | none =>
    simp only [hrel] at hb
    rw [Insn.atAddr_of_rel_none hrel]
    split at hb
    · split at hb
      · rename_i hid
        cases hb
        rw [evalTargetInsn_ret (hcs.ret hi hid)]
        rfl
      · cases hb
    · rename_i r hops
      rw [Option.bind_eq_some_iff] at hb
      obtain ⟨g, hg, hb⟩ := hb
      have hop : i.operand = .reg g.reg64 := by
        rw [Insn.operand, hops, Gpr.reg64_of_ofReg64 hg]
        rfl
      unfold Insn.branchReg at hb
      split at hb
      · rename_i hid
        cases hb
        have hlead := hcs.jump (s := e.state) (t := true) hi (by rw [hid]; rfl)
        exact evalTargetInsn_jmpReg hid hlead hop _
      · rename_i hid
        split at hb
        · cases hb
        · rename_i hrsp
          cases hb
          exact evalTargetInsn_callReg (hcs.call hi hid) hop hrsp _
      · cases hb
    · cases hb

end Branches

end Dryadalis
