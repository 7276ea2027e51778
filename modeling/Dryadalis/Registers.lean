import Dryadalis.Lib.ByteMem

/-!
# The guest register file

The dump stub stores the guest registers in a `state_rtime_t`, and the rest of
the engine reads them through the register map of `state_runt.c`: a table from
the Capstone register numbers to the fields of that structure.  This file
embeds the structure, the table and `read_reg`.

`read_reg` returns the value of a register in the low bits of a `uint64_t`, and
`-1` for a register of no class it knows.  The value and the error share one
range, so a caller that tests for `-1` also rejects a register that holds
`2 ^ 64 - 1`.  `readReg_INVALID` and `readReg_reg64` are the two facts that the
emulator proofs read off.

The segment selectors and `MXCSR` are not part of `StateRtime`: no function of
the engine reads them back.
-/

namespace Dryadalis

/-- `uint64_t`: a guest register, an address or a size. -/
abbrev Word := BitVec 64

/-- `uint8_t`: one cell of memory. -/
abbrev Byte := BitVec 8

/-- The value that the source writes `-1` for in a `uint64_t`. -/
def minusOne : Word := BitVec.allOnes 64

/-! ## The state structure -/

/-- `state_rtime_t`: the guest registers.  `vec` is the vector area of the
active mode, and `nullEntry` is the cell behind every register that the map
does not link. -/
structure StateRtime where
  rax : Word
  rbx : Word
  rcx : Word
  rdx : Word
  rsi : Word
  rdi : Word
  rbp : Word
  rsp : Word
  rip : Word
  rflags : Word
  r8 : Word
  r9 : Word
  r10 : Word
  r11 : Word
  r12 : Word
  r13 : Word
  r14 : Word
  r15 : Word
  vec : Fin 16 → BitVec 256
  nullEntry : Word

/-- A state with every register zero, as `calloc` leaves it. -/
def StateRtime.zero : StateRtime :=
  { rax := 0, rbx := 0, rcx := 0, rdx := 0, rsi := 0, rdi := 0, rbp := 0, rsp := 0
    rip := 0, rflags := 0, r8 := 0, r9 := 0, r10 := 0, r11 := 0, r12 := 0, r13 := 0
    r14 := 0, r15 := 0, vec := fun _ => 0, nullEntry := 0 }

/-- The cells of `StateRtime` that the register map can point to. -/
inductive Field where
  | rax | rbx | rcx | rdx | rsi | rdi | rbp | rsp | rip | rflags
  | r8 | r9 | r10 | r11 | r12 | r13 | r14 | r15 | nullEntry
  deriving DecidableEq, Repr

/-- The value behind a pointer of the register map. -/
def StateRtime.read (s : StateRtime) : Field → Word
  | .rax => s.rax
  | .rbx => s.rbx
  | .rcx => s.rcx
  | .rdx => s.rdx
  | .rsi => s.rsi
  | .rdi => s.rdi
  | .rbp => s.rbp
  | .rsp => s.rsp
  | .rip => s.rip
  | .rflags => s.rflags
  | .r8 => s.r8
  | .r9 => s.r9
  | .r10 => s.r10
  | .r11 => s.r11
  | .r12 => s.r12
  | .r13 => s.r13
  | .r14 => s.r14
  | .r15 => s.r15
  | .nullEntry => s.nullEntry

/-! ## Capstone register numbers -/

/-- The registers of the table `x86_reg_c`, with each numbered family as one
constructor. -/
inductive X86Reg where
  | INVALID
  | AH | AL | AX | BH | BL | BP | BPL | BX | CH | CL
  | CS | CX | DH | DI | DIL | DL | DS | DX | EAX | EBP
  | EBX | ECX | EDI | EDX | EFLAGS | EIP | EIZ | ES | ESI | ESP
  | FPSW | FS | GS | IP | RAX | RBP | RBX | RCX | RDI | RDX
  | RIP | RIZ | RSI | RSP | SI | SIL | SP | SPL | SS
  | CR (n : Fin 16) | DR (n : Fin 16) | FP (n : Fin 8) | K (n : Fin 8) | MM (n : Fin 8)
  | R8 | R9 | R10 | R11 | R12 | R13 | R14 | R15
  | ST (n : Fin 8) | XMM (n : Fin 32) | YMM (n : Fin 32) | ZMM (n : Fin 32)
  | R8B | R9B | R10B | R11B | R12B | R13B | R14B | R15B
  | R8D | R9D | R10D | R11D | R12D | R13D | R14D | R15D
  | R8W | R9W | R10W | R11W | R12W | R13W | R14W | R15W
  deriving DecidableEq

/-- `init_hashmap`: every register starts out linked to `null_entry`, and then
each group is linked to its own field. -/
def initHashmap : X86Reg → Field
  | .AL | .AH | .AX | .EAX | .RAX => .rax
  | .BL | .BH | .BX | .EBX | .RBX => .rbx
  | .CL | .CH | .CX | .ECX | .RCX => .rcx
  | .DL | .DH | .DX | .EDX | .RDX => .rdx
  | .DIL | .DI | .EDI | .RDI => .rdi
  | .SIL | .SI | .ESI | .RSI => .rsi
  | .BPL | .BP | .EBP | .RBP => .rbp
  | .SPL | .SP | .ESP | .RSP => .rsp
  | .R8B | .R8W | .R8D | .R8 => .r8
  | .R9B | .R9W | .R9D | .R9 => .r9
  | .R10B | .R10W | .R10D | .R10 => .r10
  | .R11B | .R11W | .R11D | .R11 => .r11
  | .R12B | .R12W | .R12D | .R12 => .r12
  | .R13B | .R13W | .R13D | .R13 => .r13
  | .R14B | .R14W | .R14D | .R14 => .r14
  | .R15B | .R15W | .R15D | .R15 => .r15
  | .EFLAGS => .rflags
  | .EIP | .RIP => .rip
  | _ => .nullEntry

/-! ## Register classes -/

/-- `is_8bits_right` -/
def is8bitsRight : X86Reg → Bool
  | .AL | .BL | .CL | .DL | .DIL | .SIL | .BPL | .SPL
  | .R8B | .R9B | .R10B | .R11B | .R12B | .R13B | .R14B | .R15B => true
  | _ => false

/-- `is_8bits_left` -/
def is8bitsLeft : X86Reg → Bool
  | .AH | .BH | .CH | .DH => true
  | _ => false

/-- `is_16bits` -/
def is16bits : X86Reg → Bool
  | .AX | .BX | .CX | .DX | .SI | .DI | .BP | .SP
  | .R8W | .R9W | .R10W | .R11W | .R12W | .R13W | .R14W | .R15W => true
  | _ => false

/-- `is_32bits` -/
def is32bits : X86Reg → Bool
  | .EAX | .EBX | .ECX | .EDX | .ESI | .EDI | .EBP | .ESP
  | .R8D | .R9D | .R10D | .R11D | .R12D | .R13D | .R14D | .R15D | .EIP | .EFLAGS => true
  | _ => false

/-- `is_64bits` -/
def is64bits : X86Reg → Bool
  | .RAX | .RBX | .RCX | .RDX | .RSI | .RDI | .RBP | .RSP
  | .R8 | .R9 | .R10 | .R11 | .R12 | .R13 | .R14 | .R15 | .RIP => true
  | _ => false

/-- `read_reg`: the masked value of a linked register, and `-1` for a register
of no class. -/
def readReg (key : X86Reg) (s : StateRtime) : Word :=
  let value := s.read (initHashmap key)
  if key = .EFLAGS then value &&& 0xFCFFFF
  else if is8bitsRight key then value &&& 0xff
  else if is8bitsLeft key then (value &&& 0xff00) >>> 8
  else if is16bits key then value &&& 0xffff
  else if is32bits key then value &&& 0xffffffff
  else if is64bits key then value &&& 0xffffffffffffffff
  else minusOne

/-! ## The sixteen general registers -/

/-- The general registers, without a view. -/
inductive Gpr where
  | rax | rbx | rcx | rdx | rsi | rdi | rbp | rsp
  | r8 | r9 | r10 | r11 | r12 | r13 | r14 | r15
  deriving DecidableEq, Repr

/-- The 64-bit view of a general register. -/
def Gpr.reg64 : Gpr → X86Reg
  | .rax => .RAX
  | .rbx => .RBX
  | .rcx => .RCX
  | .rdx => .RDX
  | .rsi => .RSI
  | .rdi => .RDI
  | .rbp => .RBP
  | .rsp => .RSP
  | .r8 => .R8
  | .r9 => .R9
  | .r10 => .R10
  | .r11 => .R11
  | .r12 => .R12
  | .r13 => .R13
  | .r14 => .R14
  | .r15 => .R15

/-- The field that holds a general register. -/
def Gpr.field : Gpr → Field
  | .rax => .rax
  | .rbx => .rbx
  | .rcx => .rcx
  | .rdx => .rdx
  | .rsi => .rsi
  | .rdi => .rdi
  | .rbp => .rbp
  | .rsp => .rsp
  | .r8 => .r8
  | .r9 => .r9
  | .r10 => .r10
  | .r11 => .r11
  | .r12 => .r12
  | .r13 => .r13
  | .r14 => .r14
  | .r15 => .r15

/-- The architectural value of a general register. -/
def StateRtime.gpr (s : StateRtime) (g : Gpr) : Word := s.read g.field

/-! ## What `read_reg` returns -/

theorem and_allOnes64 (v : Word) : v &&& 0xffffffffffffffff = v := by
  have h : (0xffffffffffffffff : Word) = BitVec.allOnes 64 := by decide
  rw [h, BitVec.and_allOnes]

/-- The 64-bit view is the whole register. -/
theorem readReg_reg64 (g : Gpr) (s : StateRtime) : readReg g.reg64 s = s.gpr g := by
  cases g <;> exact and_allOnes64 _

theorem readReg_RSP (s : StateRtime) : readReg .RSP s = s.rsp := and_allOnes64 _

theorem readReg_RIP (s : StateRtime) : readReg .RIP s = s.rip := and_allOnes64 _

theorem readReg_RCX (s : StateRtime) : readReg .RCX s = s.rcx := and_allOnes64 _

theorem readReg_ECX (s : StateRtime) : readReg .ECX s = s.rcx &&& 0xffffffff := rfl

theorem readReg_EFLAGS (s : StateRtime) : readReg .EFLAGS s = s.rflags &&& 0xFCFFFF := rfl

/-- An absent register reads as the error value. -/
theorem readReg_INVALID (s : StateRtime) : readReg .INVALID s = minusOne := rfl

/-- The flags never read as the error value: the mask clears the upper bits. -/
theorem readReg_EFLAGS_ne (s : StateRtime) : readReg .EFLAGS s ≠ minusOne := by
  intro h
  have hbit := congrArg (fun v : Word => v.getLsbD 63) h
  rw [readReg_EFLAGS] at hbit
  simp [minusOne] at hbit

end Dryadalis
