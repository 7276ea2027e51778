import Dryadalis.Isolation
import Dryadalis.Lib.Blocks

/-!
# The text of the stubs

The two stubs and the two hooks are assembled from text that `engine.c` prints
with `sprintf`: a template with a `%p` or `0x%lx` for every address and, after
it, the addresses in a row.  Nothing but the position ties a slot to its
argument, so templates and arguments are kept apart here as they are there.

`Machine` is the processor as the stubs see it: the general and segment
registers, the flags, the vector registers, `MXCSR` and memory.  `step` is one
instruction and `run` a straight line of them.  Keystone is taken to assemble
each line to the instruction it names.

`rip` is the address that the last jump of a text went to.  The address of the
instruction in progress is not tracked: a text is run from its first line to
its last.
-/

namespace Dryadalis.Stub

open ByteMem

/-! ## The processor -/

/-- The general registers and the segment selectors. -/
inductive Reg where
  | rax | rbx | rcx | rdx | rsi | rdi | rbp | rsp
  | r8 | r9 | r10 | r11 | r12 | r13 | r14 | r15
  | cs | ss | gs | es | ds | fs
deriving DecidableEq, Repr

/-- The segment selectors, of sixteen bits each. -/
def Reg.isSegment : Reg → Bool
  | .cs | .ss | .gs | .es | .ds | .fs => true
  | _ => false

/-- The part of a word that a register holds. -/
def Reg.fit (r : Reg) (v : Word) : Word := if r.isSegment then v &&& 0xFFFF else v

/-- The flags that `popfq` loads at privilege level 3: `CF`, `PF`, `AF`, `ZF`,
`SF`, `TF`, `DF`, `OF`, `NT`, `AC` and `ID`. -/
def userFlags : Word := 0x244DD5

/-- `pushfq` stores the flags with `RF` and `VM` clear. -/
def pushedFlags : Word := 0xFCFFFF

/-- The flags register of a program in 64-bit mode, where `RF` and `VM` are
clear. -/
structure Flags where
  val : Word
  clear : val &&& pushedFlags = val
deriving DecidableEq

/-- `popfq`: the user flags come from the stack, the others stay. -/
def Flags.load (v : Word) (f : Flags) : Flags where
  val := (v &&& userFlags) ||| (f.val &&& ~~~userFlags)
  clear := by
    have huser : userFlags &&& pushedFlags = userFlags := by decide
    rw [BitVec.and_comm, BitVec.and_or_distrib_left, BitVec.and_comm pushedFlags,
      BitVec.and_assoc, huser, BitVec.and_comm pushedFlags, BitVec.and_assoc,
      BitVec.and_comm _ pushedFlags, ← BitVec.and_assoc, f.clear]

/-- The bits of a word that no `popfq` of the stubs can change. -/
def systemBits (v : Word) : Word := v &&& ~~~userFlags

/-- A selector is held zero-extended, as `mov rax, es` reads it. -/
structure Machine where
  reg : Reg → Word
  flags : Flags
  vec : Fin 16 → Fin 32 → Byte
  mxcsr : BitVec 32
  mem : Word → Byte
  rip : Word

def Machine.setReg (m : Machine) (r : Reg) (v : Word) : Machine :=
  { m with reg := Function.update m.reg r (r.fit v) }

def Machine.push (m : Machine) (v : Word) : Machine :=
  { m with
    reg := Function.update m.reg .rsp (m.reg .rsp - 8)
    mem := store64 m.mem (m.reg .rsp - 8) v }

/-- The word on top of the stack. -/
def Machine.top (m : Machine) : Word := load64 m.mem (m.reg .rsp)

/-- Drop the word on top of the stack. -/
def Machine.drop (m : Machine) : Machine :=
  { m with reg := Function.update m.reg .rsp (m.reg .rsp + 8) }

/-- The bytes of a vector register as a buffer. -/
def vecBytes (v : Fin 32 → Byte) : Nat → Byte := fun i => v (Fin.ofNat 32 i)

/-- The first `n` bytes of a vector register taken from a buffer. -/
def vecFill (n : Nat) (v : Fin 32 → Byte) (f : Nat → Byte) : Fin 32 → Byte :=
  fun j => if j.val < n then f j.val else v j

/-- The instructions of the stubs.  The memory operand of the vector moves is
`[rax]`, and the one of a `movabs` is an absolute address. -/
inductive Code where
  | mov (dst src : Reg)
  | movImm (dst : Reg) (v : Word)
  | movabsStore (a : Word)
  | movabsLoad (a : Word)
  | push (src : Reg)
  | pushImm (v : Word)
  | pop (dst : Reg)
  | pushfq
  | popfq
  | movaps (dst src : Fin 16)
  | movapsStore (src : Fin 16)
  | movapsLoad (dst : Fin 16)
  | vmovupsStore (src : Fin 16)
  | vmovupsLoad (dst : Fin 16)
  | call (r : Reg)
  | jmp (r : Reg)
  | ret

/-- The address in `rax` is a multiple of sixteen, as `movaps` wants it. -/
def Machine.Aligned (m : Machine) : Prop := (m.reg .rax).toNat % 16 = 0

instance (m : Machine) : Decidable m.Aligned :=
  inferInstanceAs (Decidable (_ = _))

section

-- what `call rax` does from the instruction to the one after it, by the address called
variable (callee : Word → Machine → Machine)

/-- One instruction.  A `movaps` at an address that is not aligned faults. -/
def step (m : Machine) : Code → Option Machine
  | .mov dst src => some (m.setReg dst (m.reg src))
  | .movImm dst v => some (m.setReg dst v)
  | .movabsStore a => some { m with mem := store64 m.mem a (m.reg .rax) }
  | .movabsLoad a => some (m.setReg .rax (load64 m.mem a))
  | .push src => some (m.push (m.reg src))
  | .pushImm v => some (m.push v)
  | .pop dst => some (m.drop.setReg dst m.top)
  | .pushfq => some (m.push m.flags.val)
  | .popfq => some { m.drop with flags := m.flags.load m.top }
  | .movaps dst src =>
    some { m with vec := Function.update m.vec dst (vecFill 16 (m.vec dst) (vecBytes (m.vec src))) }
  | .movapsStore src =>
    if m.Aligned then
      some { m with mem := patch m.mem (m.reg .rax) 0 16 (vecBytes (m.vec src)) }
    else
      none
  | .movapsLoad dst =>
    if m.Aligned then
      some { m with
        vec := Function.update m.vec dst (vecFill 16 (m.vec dst) (window m.mem (m.reg .rax))) }
    else
      none
  | .vmovupsStore src =>
    some { m with mem := patch m.mem (m.reg .rax) 0 32 (vecBytes (m.vec src)) }
  | .vmovupsLoad dst =>
    some { m with
      vec := Function.update m.vec dst (vecFill 32 (m.vec dst) (window m.mem (m.reg .rax))) }
  | .call r => some (callee (m.reg r) m)
  | .jmp r => some { m with rip := m.reg r }
  | .ret => some { m.drop with rip := m.top }

/-- A text, run from its first instruction to its last. -/
def run (m : Machine) (text : List Code) : Option Machine :=
  text.foldlM (step callee) m

end

/-! ## `sprintf` -/

/-- An instruction of a template, with the slot for its address still open. -/
inductive Template where
  | text (c : Code)
  | slot (f : Word → Code)

/-- Fill the slots of a template from left to right.  A slot without an
argument is undefined behaviour. -/
def sprintf : List Template → List Word → Option (List Code)
  | [], _ => some []
  | .text c :: ts, args => do
    let rest ← sprintf ts args
    return c :: rest
  | .slot _ :: _, [] => none
  | .slot f :: ts, a :: args => do
    let rest ← sprintf ts args
    return f a :: rest

/-! ## The addresses that are printed -/

/-- The fields of `state_rtime_t` up to the vector areas, in order. -/
inductive Field where
  | rax | rbx | rcx | rdx | rsi | rdi | rbp | rsp | rip | rflags
  | cs | ss | gs | es | ds | fs
  | r8 | r9 | r10 | r11 | r12 | r13 | r14 | r15
deriving DecidableEq, Repr

def Field.index : Field → Nat
  | .rax => 0 | .rbx => 1 | .rcx => 2 | .rdx => 3 | .rsi => 4 | .rdi => 5 | .rbp => 6
  | .rsp => 7 | .rip => 8 | .rflags => 9
  | .cs => 10 | .ss => 11 | .gs => 12 | .es => 13 | .ds => 14 | .fs => 15
  | .r8 => 16 | .r9 => 17 | .r10 => 18 | .r11 => 19
  | .r12 => 20 | .r13 => 21 | .r14 => 22 | .r15 => 23

/-- The vector area of the state: `parse_elf` allocates the one that fits the
processor and leaves the other two pointers null. -/
inductive Vectors where
  | none
  | sse (p : Word)
  | avx2 (p : Word)
  | avx512 (p : Word)
deriving DecidableEq, Repr

/-- The addresses that the stubs are crafted from.  `stack` is the mapping that
`map_stack` makes for the host, and `frame` the number of bytes that the two
`mxcsr` functions use of it, the return address included. -/
structure Handler where
  state : Word
  vectors : Vectors
  mxcsr : Word
  currHook : Word
  stack : Word
  sBinary : Word
  dispatcher : Word
  saveMxcsr : Word
  restoreMxcsr : Word
  frame : Nat

namespace Handler

variable (h : Handler)

/-- `host_rsp`: the pointer `r + 0x5000`, to words, that `map_stack` returns. -/
def hostRsp : Word := h.stack + 0x28000

/-- `&state->…`. -/
def field (f : Field) : Word := h.state + BitVec.ofNat 64 (8 * f.index)

end Handler

/-- `&sse->xmm…`. -/
def xmm (p : Word) (i : Fin 16) : Word := p + BitVec.ofNat 64 (16 * i.val)

/-- `&avx2->ymm…`. -/
def ymm (p : Word) (i : Fin 16) : Word := p + BitVec.ofNat 64 (32 * i.val)

/-! ## The hooks -/

/-- The trampoline at the hooked instruction. -/
def dumpHook (h : Handler) : Option (List Code) :=
  sprintf [.slot .movabsStore, .slot (.movImm .rax), .text (.jmp .rax)]
    [h.field .rax, STUB_ADDR_DUMP]

/-- The code in front of the next block. -/
def restoreHook (h : Handler) : Option (List Code) :=
  sprintf [.slot .movabsLoad] [h.field .rax]

/-! ## The dump stub -/

/-- The registers of the guest, through `rax`. -/
def dumpRegs (h : Handler) : Option (List Code) :=
  sprintf
    [.text (.mov .rax .rsp), .slot .movabsStore,
     .slot (.movImm .rsp),
     .text .pushfq, .text (.pop .rax), .slot .movabsStore,
     .text (.mov .rax .rbx), .slot .movabsStore,
     .text (.mov .rax .rcx), .slot .movabsStore,
     .text (.mov .rax .rdx), .slot .movabsStore,
     .text (.mov .rax .rsi), .slot .movabsStore,
     .text (.mov .rax .rdi), .slot .movabsStore,
     .text (.mov .rax .rbp), .slot .movabsStore,
     .text (.mov .rax .es), .slot .movabsStore,
     .text (.mov .rax .gs), .slot .movabsStore,
     .text (.mov .rax .fs), .slot .movabsStore,
     .text (.mov .rax .cs), .slot .movabsStore,
     .text (.mov .rax .ss), .slot .movabsStore,
     .text (.mov .rax .ds), .slot .movabsStore,
     .text (.mov .rax .r8), .slot .movabsStore,
     .text (.mov .rax .r9), .slot .movabsStore,
     .text (.mov .rax .r10), .slot .movabsStore,
     .text (.mov .rax .r11), .slot .movabsStore,
     .text (.mov .rax .r12), .slot .movabsStore,
     .text (.mov .rax .r13), .slot .movabsStore,
     .text (.mov .rax .r14), .slot .movabsStore,
     .text (.mov .rax .r15), .slot .movabsStore]
    [h.field .rsp, h.hostRsp, h.field .rflags, h.field .rbx, h.field .rcx,
     h.field .rdx, h.field .rsi, h.field .rdi,
     h.field .rbp,
     h.field .es, h.field .gs,
     h.field .fs, h.field .cs, h.field .ss,
     h.field .ds, h.field .r8, h.field .r9,
     h.field .r10, h.field .r11, h.field .r12,
     h.field .r13, h.field .r14, h.field .r15]

/-- The arguments `&sse->xmm0, …, &sse->xmm15` or `&avx2->ymm0, …, &avx2->ymm15`. -/
def vecArgs (at' : Fin 16 → Word) : List Word :=
  [at' 0, at' 1, at' 2, at' 3, at' 4, at' 5, at' 6, at' 7, at' 8, at' 9, at' 10, at' 11, at' 12,
   at' 13, at' 14, at' 15]

/-- The number of `xmm0` and `ymm0`. -/
def vec0 : Fin 16 := 0

/-- The registers `xmm1, …, xmm15`. -/
def highVecs : List (Fin 16) := [1, 2, 3, 4, 5, 6, 7, 8, 9, 10, 11, 12, 13, 14, 15]

/-- The registers `ymm0, …, ymm15`. -/
def allVecs : List (Fin 16) := vec0 :: highVecs

/-- On the SSE path every register but the first goes through `xmm0`. -/
def dumpXmms (p : Word) : Option (List Code) :=
  sprintf
    ([.slot (.movImm .rax), .text (.movapsStore vec0)] ++
      highVecs.flatMap fun i =>
        [.slot (.movImm .rax), .text (.movaps vec0 i), .text (.movapsStore vec0)])
    (vecArgs (xmm p))

/-- On the AVX2 path `save_mxcsr` is called before the registers are stored. -/
def dumpYmms (h : Handler) (p : Word) : Option (List Code) :=
  sprintf
    ([.slot (.movImm .rax), .text (.call .rax)] ++
      allVecs.flatMap fun i => [.slot (.movImm .rax), .text (.vmovupsStore i)])
    (h.saveMxcsr :: vecArgs (ymm p))

/-- The vector registers.  There is no text for a processor with AVX-512. -/
def dumpVecs (h : Handler) : Option (List Code) :=
  match h.vectors with
  | .sse p => dumpXmms p
  | .avx2 p => dumpYmms h p
  | .avx512 _ => none
  | .none => some []

/-- The jump to the dispatcher, with the descriptor as its argument. -/
def dumpExit (h : Handler) : Option (List Code) :=
  sprintf
    [.slot (.movImm .rdi),
     .slot (.movImm .rax),
     .text (.pushImm 0),
     .text (.push .rax),
     .slot .movabsLoad,
     .slot .movabsStore,
     .text .ret]
    [h.sBinary, h.dispatcher, h.currHook, h.field .rip]

/-- The stub that stores the guest in the state structure. -/
def craftHook (h : Handler) : Option (List Code) := do
  let regs ← dumpRegs h
  let vecs ← dumpVecs h
  let exit ← dumpExit h
  return regs ++ vecs ++ exit

/-! ## The restore stub -/

def restoreXmms (p : Word) : Option (List Code) :=
  sprintf (allVecs.flatMap fun i => [.slot (.movImm .rax), .text (.movapsLoad i)])
    (vecArgs (xmm p))

def restoreYmms (h : Handler) (p : Word) : Option (List Code) :=
  sprintf
    ((allVecs.flatMap fun i => [.slot (.movImm .rax), .text (.vmovupsLoad i)]) ++
      [.slot (.movImm .rax), .text (.call .rax)])
    (vecArgs (ymm p) ++ [h.restoreMxcsr])

def restoreVecs (h : Handler) : Option (List Code) :=
  match h.vectors with
  | .sse p => restoreXmms p
  | .avx2 p => restoreYmms h p
  | .avx512 _ => none
  | .none => some []

/-- The registers that are loaded through `rax`.  The selectors `cs`, `fs` and
`gs` are not among them. -/
def restoreRegs (h : Handler) : Option (List Code) :=
  sprintf
    [.slot .movabsLoad, .text (.mov .rbx .rax),
     .slot .movabsLoad, .text (.mov .rcx .rax),
     .slot .movabsLoad, .text (.mov .rdx .rax),
     .slot .movabsLoad, .text (.mov .rdi .rax),
     .slot .movabsLoad, .text (.mov .rsi .rax),
     .slot .movabsLoad, .text (.mov .rbp .rax),
     .slot .movabsLoad, .text (.mov .es .rax),
     .slot .movabsLoad, .text (.mov .ss .rax),
     .slot .movabsLoad, .text (.mov .ds .rax),
     .slot .movabsLoad, .text (.mov .r8 .rax),
     .slot .movabsLoad, .text (.mov .r9 .rax),
     .slot .movabsLoad, .text (.mov .r10 .rax),
     .slot .movabsLoad, .text (.mov .r11 .rax),
     .slot .movabsLoad, .text (.mov .r12 .rax),
     .slot .movabsLoad, .text (.mov .r13 .rax),
     .slot .movabsLoad, .text (.mov .r14 .rax),
     .slot .movabsLoad, .text (.mov .r15 .rax)]
    [h.field .rbx, h.field .rcx, h.field .rdx,
     h.field .rdi, h.field .rsi, h.field .rbp,
     h.field .es,
     h.field .ss, h.field .ds,
     h.field .r8, h.field .r9, h.field .r10,
     h.field .r11, h.field .r12, h.field .r13,
     h.field .r14, h.field .r15]

/-- The flags and the stack pointer come last, from the host stack, and `rax`
holds the address to go on at. -/
def restoreExit (h : Handler) : Option (List Code) :=
  sprintf
    [.slot .movabsLoad, .text (.push .rax),
     .slot .movabsLoad, .text (.push .rax),
     .text .popfq,
     .text (.pop .rsp),
     .slot .movabsLoad,
     .text (.jmp .rax)]
    [h.field .rsp, h.field .rflags, h.field .rip]

/-- The stub that loads the guest from the state structure. -/
def craftRestoreStub (h : Handler) : Option (List Code) := do
  let vecs ← restoreVecs h
  let regs ← restoreRegs h
  let exit ← restoreExit h
  return vecs ++ regs ++ exit

/-! ## From the guest to the dispatcher and back -/

section

variable (callee : Word → Machine → Machine)

/-- The dump hook, and the dump stub that it jumps to. -/
def dump (h : Handler) (m : Machine) : Option Machine := do
  let m ← run callee m (← dumpHook h)
  run callee m (← craftHook h)

/-- The restore stub, and the restore hook that it jumps to. -/
def restore (h : Handler) (m : Machine) : Option Machine := do
  let m ← run callee m (← craftRestoreStub h)
  run callee m (← restoreHook h)

end

end Dryadalis.Stub
