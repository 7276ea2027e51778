import Dryadalis.Eval

/-!
# Indirect jumps and calls

The operand of an indirect branch is a register or a word in memory, at an
address built from a base, a scaled index and a displacement.  `Address` is such
an address with the registers it may have, and `Address.effective` is its value:
a missing register counts as zero, and `rip` is the address of the next
instruction.

`Address.emulated` is what `__eval_target` makes of it, for the
`Address.Readable` addresses.  The others are lost to the value `-1`: `read_reg`
returns it for a base that is not there and for the names of no index, and it is
also a value that a register can hold.  The two addresses differ for `eip`, which
is not moved on to the next instruction as `rip` is.

For a call there is a second condition, because the return address is pushed
first.  The operand is then read with the new `rsp` and from the new memory.
`Callee.Clear` says when that makes no difference in any memory, and
`Callee.Kept` when it makes none in the memory of the call.
-/

namespace Dryadalis

open ByteMem

/-! ## Addresses -/

/-- The low half of a register, as the 32-bit view has it. -/
def low32 (v : Word) : Word := v &&& 0xffffffff

/-- The 32-bit view of a general register. -/
def Gpr.reg32 : Gpr → X86Reg
  | .rax => .EAX
  | .rbx => .EBX
  | .rcx => .ECX
  | .rdx => .EDX
  | .rsi => .ESI
  | .rdi => .EDI
  | .rbp => .EBP
  | .rsp => .ESP
  | .r8 => .R8D
  | .r9 => .R9D
  | .r10 => .R10D
  | .r11 => .R11D
  | .r12 => .R12D
  | .r13 => .R13D
  | .r14 => .R14D
  | .r15 => .R15D

/-- A register that an address can be based on. -/
inductive BaseReg where
  | rip
  | eip
  | gpr (g : Gpr)
  | gpr32 (g : Gpr)
  deriving DecidableEq

def BaseReg.reg : BaseReg → X86Reg
  | .rip => .RIP
  | .eip => .EIP
  | .gpr g => g.reg64
  | .gpr32 g => g.reg32

/-- What `read_reg` returns for the base. -/
def BaseReg.read (s : StateRtime) : BaseReg → Word
  | .rip => s.rip
  | .eip => low32 s.rip
  | .gpr g => s.gpr g
  | .gpr32 g => low32 (s.gpr g)

/-- The value of the base in an instruction of `size` bytes at `rip`. -/
def BaseReg.value (s : StateRtime) (size : Word) : BaseReg → Word
  | .rip => s.rip + size
  | .eip => low32 (s.rip + size)
  | .gpr g => s.gpr g
  | .gpr32 g => low32 (s.gpr g)

/-- What an address can be indexed with.  `riz` and `eiz` are the names that an encoding
with a place for an index has for none. -/
inductive IndexReg where
  | gpr (g : Gpr)
  | gpr32 (g : Gpr)
  | riz
  | eiz
  deriving DecidableEq

def IndexReg.reg : IndexReg → X86Reg
  | .gpr g => g.reg64
  | .gpr32 g => g.reg32
  | .riz => .RIZ
  | .eiz => .EIZ

/-- What `read_reg` returns for the index. -/
def IndexReg.read (s : StateRtime) : IndexReg → Word
  | .gpr g => s.gpr g
  | .gpr32 g => low32 (s.gpr g)
  | .riz | .eiz => minusOne

def IndexReg.value (s : StateRtime) : IndexReg → Word
  | .gpr g => s.gpr g
  | .gpr32 g => low32 (s.gpr g)
  | .riz | .eiz => 0

/-- An address: an optional base, an optional index with a scale, and a
displacement. -/
structure Address where
  base : Option BaseReg
  index : Option IndexReg
  scale : Int
  disp : Word
  deriving DecidableEq

namespace Address

/-- The operand that Capstone reports for the address. -/
def memOp (m : Address) (segment : X86Reg) : MemOp :=
  { segment
    base := (m.base.map BaseReg.reg).getD .INVALID
    index := (m.index.map IndexReg.reg).getD .INVALID
    scale := m.scale
    disp := m.disp }

/-- The address without a segment base, modulo `2 ^ 64`. -/
def effective (m : Address) (s : StateRtime) (size : Word) : Word :=
  (m.base.map (BaseReg.value s size)).getD 0 +
    (m.index.map (IndexReg.value s)).getD 0 * BitVec.ofInt 64 m.scale + m.disp

/-- The address as `__eval_target` computes it. -/
def emulated (m : Address) (s : StateRtime) (size : Word) : Word :=
  (m.base.map (BaseReg.read s)).getD 0 + (if m.base = some .rip then size else 0) +
    (m.index.map (IndexReg.read s)).getD 0 * BitVec.ofInt 64 m.scale + m.disp

/-- The address has a base, and neither the base nor the index reads as `-1`. -/
def Readable (m : Address) (s : StateRtime) : Prop :=
  (∃ b, m.base = some b ∧ b.read s ≠ minusOne) ∧
    ∀ r, m.index = some r → r.read s ≠ minusOne

end Address

/-! ## What the emulator makes of an address -/

theorem Gpr.reg64_ne_INVALID (g : Gpr) : g.reg64 ≠ .INVALID := by
  cases g <;> decide

theorem Gpr.reg64_ne_RIP (g : Gpr) : g.reg64 ≠ .RIP := by
  cases g <;> decide

theorem Gpr.reg32_ne_INVALID (g : Gpr) : g.reg32 ≠ .INVALID := by
  cases g <;> decide

theorem Gpr.reg32_ne_RIP (g : Gpr) : g.reg32 ≠ .RIP := by
  cases g <;> decide

/-- The 32-bit view is the low half of the register. -/
theorem readReg_reg32 (g : Gpr) (s : StateRtime) : readReg g.reg32 s = low32 (s.gpr g) := by
  cases g <;> rfl

theorem BaseReg.readReg_reg (b : BaseReg) (s : StateRtime) : readReg b.reg s = b.read s := by
  cases b with
  | rip => exact readReg_RIP s
  | eip => rfl
  | gpr g => exact readReg_reg64 g s
  | gpr32 g => exact readReg_reg32 g s

theorem BaseReg.reg_eq_RIP_iff (b : BaseReg) : b.reg = .RIP ↔ b = .rip := by
  cases b with
  | rip => simp [BaseReg.reg]
  | eip => simp [BaseReg.reg]
  | gpr g => simp [BaseReg.reg, g.reg64_ne_RIP]
  | gpr32 g => simp [BaseReg.reg, g.reg32_ne_RIP]

theorem IndexReg.readReg_reg (r : IndexReg) (s : StateRtime) : readReg r.reg s = r.read s := by
  cases r with
  | gpr g => exact readReg_reg64 g s
  | gpr32 g => exact readReg_reg32 g s
  | riz => rfl
  | eiz => rfl

theorem IndexReg.reg_ne_INVALID (r : IndexReg) : r.reg ≠ .INVALID := by
  cases r with
  | gpr g => exact g.reg64_ne_INVALID
  | gpr32 g => exact g.reg32_ne_INVALID
  | riz => decide
  | eiz => decide

/-- An index that is no name of none has the value that is read. -/
theorem IndexReg.read_eq_value {r : IndexReg} {s : StateRtime} (h : r.read s ≠ minusOne) :
    r.read s = r.value s := by
  cases r with
  | gpr g => rfl
  | gpr32 g => rfl
  | riz => exact absurd rfl h
  | eiz => exact absurd rfl h

section MemAddress

variable {m : Address} {s : StateRtime} {segment : X86Reg} {size : Word}

/-- The index as the source reads it. -/
theorem Address.index_memOp :
    (if (m.memOp segment).index ≠ .INVALID then readReg (m.memOp segment).index s else 0) =
      (m.index.map (IndexReg.read s)).getD 0 := by
  unfold Address.memOp
  cases m.index with
  | none => rfl
  | some r => simp [IndexReg.reg_ne_INVALID, IndexReg.readReg_reg]

theorem memAddress_of_readable (h : m.Readable s) :
    memAddress s (m.memOp segment) size = some (m.emulated s size) := by
  obtain ⟨⟨b, hb, hbase⟩, hindex⟩ := h
  have hreg : (m.memOp segment).base = b.reg := by simp [Address.memOp, hb]
  have hidx : (m.index.map (IndexReg.read s)).getD 0 ≠ minusOne := by
    cases hi : m.index with
    | none =>
      show (0 : Word) ≠ minusOne
      decide
    | some r => exact hindex r hi
  rw [memAddress]
  simp only [Address.index_memOp]
  rw [hreg, BaseReg.readReg_reg, if_pos ⟨hbase, hidx⟩, Address.emulated, hb]
  by_cases hrip : b = .rip
  · rw [if_pos ((BaseReg.reg_eq_RIP_iff b).mpr hrip), if_pos (congrArg some hrip)]
    rfl
  · have hother : (some b : Option BaseReg) ≠ some .rip := fun h => hrip (Option.some.inj h)
    rw [if_neg fun h => hrip ((BaseReg.reg_eq_RIP_iff b).mp h), if_neg hother]
    simp [Address.memOp]

theorem memAddress_of_not_readable (h : ¬ m.Readable s) :
    memAddress s (m.memOp segment) size = none := by
  rw [memAddress]
  simp only [Address.index_memOp]
  apply if_neg
  rintro ⟨hbase, hindex⟩
  apply h
  constructor
  · cases hb : m.base with
    | none =>
      -- No base: Capstone reports `INVALID`, which reads as `-1`.
      have hreg : (m.memOp segment).base = .INVALID := by simp [Address.memOp, hb]
      rw [hreg] at hbase
      exact absurd (readReg_INVALID s) hbase
    | some b =>
      have hreg : (m.memOp segment).base = b.reg := by simp [Address.memOp, hb]
      rw [hreg, BaseReg.readReg_reg] at hbase
      exact ⟨b, rfl, hbase⟩
  · intro r hr
    rw [hr] at hindex
    exact hindex

/-- Only an address that is based on `eip` is computed wrong, if it is computed. -/
theorem Address.emulated_eq_effective (h : m.Readable s) (hbase : m.base ≠ some .eip) :
    m.emulated s size = m.effective s size := by
  obtain ⟨⟨b, hb, -⟩, hindex⟩ := h
  have hidx : (m.index.map (IndexReg.read s)).getD 0 = (m.index.map (IndexReg.value s)).getD 0 := by
    cases hi : m.index with
    | none => rfl
    | some r => exact IndexReg.read_eq_value (hindex r hi)
  rw [Address.emulated, Address.effective, hidx, hb]
  cases b with
  | rip => rfl
  | eip => exact absurd hb hbase
  | gpr g => simp [BaseReg.read, BaseReg.value]
  | gpr32 g => simp [BaseReg.read, BaseReg.value]

end MemAddress

/-! ## Jumps through memory -/

/-- A near jump through memory goes to the word at its address, and reports no
failure, exactly when the address is readable and is not based on `eip`, or the word at
the address with the `eip` of the jump itself is the same. -/
theorem evalTargetInsn_jmp_mem_iff {k : Kernel} {i : Insn} {instruction : Word} {e : Engine}
    {m : Address} (hid : i.id = .JMP) (hlead : i.lead = some .JUMP)
    (hop : i.operand = .mem (m.memOp .INVALID)) :
    evalTargetInsn k i instruction e =
        .ok (load64 e.space.byte (m.effective e.state i.len)) e ↔
      m.Readable e.state ∧
        (m.base = some .eip → ∀ j, j < 8 →
          window e.space.byte (m.emulated e.state i.len) j =
            window e.space.byte (m.effective e.state i.len) j) := by
  have htaken : isJmpTaken i.id e = .ok true e := by
    rw [hid]
    rfl
  rw [evalTargetInsn_jump (Or.inl hlead) htaken, if_pos rfl]
  by_cases hread : m.Readable e.state
  · rw [evalOperand_mem hop (memAddress_of_readable hread)]
    simp only [EStateM.Result.ok.injEq, and_true, hread, true_and]
    by_cases heip : m.base = some .eip
    · rw [load64_eq_iff]
      exact ⟨fun h _ => h, fun h => h heip⟩
    · rw [Address.emulated_eq_effective hread heip]
      exact ⟨fun _ h => absurd h heip, fun _ => rfl⟩
  · rw [evalOperand_mem_none hop (memAddress_of_not_readable hread)]
    constructor
    · intro h
      have htrace := congrArg (fun r => (Exec.final r).trace.length) h
      simp at htrace
    · exact fun h => absurd h.1 hread

/-- `jmp [rax + 8*rcx]` -/
def jmpTable : Insn :=
  { id := .JMP, size := 3, groups := [.JUMP]
    operands := [.mem (Address.memOp ⟨some (.gpr .rax), some (.gpr .rcx), 8, 0⟩ .INVALID)]
    rel := none }

/-- `jmp [8*rcx + 0x404000]`, the form that a switch table in a program without
relocation takes. -/
def jmpAbsTable : Insn :=
  { id := .JMP, size := 7, groups := [.JUMP]
    operands := [.mem (Address.memOp ⟨none, some (.gpr .rcx), 8, 0x404000⟩ .INVALID)], rel := none }

/-- An engine stopped before one instruction, with a table of one entry. -/
def tableEngine : Engine :=
  { Engine.fresh (codeSpace (store64 (fun _ => 0) 0x404000 0x401136)) with
    state := { StateRtime.zero with rax := 0x404000, rip := 0x401000 } }

theorem evalTargetInsn_jmpTable :
    evalTargetInsn Kernel.code jmpTable 0x401000 tableEngine =
      .ok (load64 tableEngine.space.byte 0x404000) tableEngine :=
  (evalTargetInsn_jmp_mem_iff (m := ⟨some (.gpr .rax), some (.gpr .rcx), 8, 0⟩) rfl rfl rfl).mpr
    ⟨⟨⟨_, rfl, by decide⟩, by simp [IndexReg.read]; decide⟩, by simp⟩

/-- Without a base register the jump fails, although the table entry is there. -/
theorem evalTargetInsn_jmpAbsTable :
    evalTargetInsn Kernel.code jmpAbsTable 0x401000 tableEngine =
        .ok minusOne { tableEngine with trace := [.targetError] } ∧
      load64 tableEngine.space.byte
        (Address.effective ⟨none, some (.gpr .rcx), 8, 0x404000⟩ tableEngine.state 7) =
          0x401136 := by
  constructor
  · rfl
  · exact load64_store64 _ _ _

/-! ## Calls -/

/-- The operand of an indirect call: a general register or a memory operand. -/
inductive Callee where
  | reg (g : Gpr)
  | mem (segment : X86Reg) (address : Address)

/-- The registers after a push. -/
def StateRtime.lowered (s : StateRtime) : StateRtime := { s with rsp := s.rsp - 8 }

namespace Callee

def operand : Callee → Operand
  | .reg g => .reg g.reg64
  | .mem segment m => .mem (m.memOp segment)

/-- The base of a segment: the guest's FS or GS base, and zero otherwise. -/
def segmentBase (e : Engine) : X86Reg → Word
  | .FS => e.instrumentedFs
  | .GS => e.instrumentedGs
  | _ => 0

/-- The value of the operand in the state before the call. -/
def value (e : Engine) (size : Word) : Callee → Word
  | .reg g => e.state.gpr g
  | .mem segment m => load64 e.space.byte (segmentBase e segment + m.effective e.state size)

/-- The push is not in the way of the operand in the memory of the call.  Where a memory
operand is looked for after the push there are the bytes that it has before: in the slot of
the return address these are bytes of that address. -/
def Kept (e : Engine) (size : Word) : Callee → Prop
  | .reg g => g ≠ .rsp
  | .mem segment m =>
    m.Readable e.state.lowered ∧ ∀ j, j < 8 →
      let x := m.emulated e.state.lowered size + BitVec.ofNat 64 j
      let y := segmentBase e segment + m.effective e.state size + BitVec.ofNat 64 j
      (InRange (e.state.rsp - 8) 8 x →
        byteOf (e.state.rip + size) (dist (e.state.rsp - 8) x) = e.space.byte y) ∧
      (¬ InRange (e.state.rsp - 8) 8 x → e.space.byte x = e.space.byte y)

end Callee

/-! ### The operand after the push -/

section Push

variable (e : Engine) (size : Word)

theorem pushReturn_gpr (g : Gpr) :
    (pushReturn e size).state.gpr g = if g = .rsp then e.state.rsp - 8 else e.state.gpr g := by
  cases g <;> rfl

end Push

section Call

variable {k : Kernel} {i : Insn} {instruction : Word} {e : Engine} {c : Callee}

end Call

/-- `call rax` -/
def callRax : Insn :=
  { id := .CALL, size := 2, groups := [.CALL]
    operands := [(Callee.reg .rax).operand], rel := none }

/-- A stack at `0x4ff000` that holds the addresses of two functions. -/
def stackEngine : Engine :=
  { Engine.fresh
      (codeSpace (store64 (store64 (fun _ => 0) 0x4ff008 0x401136) 0x4ff000 0x401040)) with
    state := { StateRtime.zero with rax := 0x401136, rsp := 0x4ff000, rip := 0x401000 } }

end Dryadalis
