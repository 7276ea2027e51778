import Dryadalis.Scan

/-!
# The guest on its own processor

This is the meaning of a guest that no engine looks at.  A `Cpu` is a register file
and a byte memory.  `Insn.branch` is the architectural meaning of the near branches
that the engine emulates: direct jumps, conditional jumps and calls, jumps and calls
through a register, and returns.  What any other instruction does is the parameter
`exec`; it goes on with the next instruction.

A run is cut into blocks.  `BlockRun` is one block: the state at its first
instruction, the state at its control-flow instruction, which is the one that a
dispatch sees, and the state after it.

`Avoids` is what it means that an instruction does not touch a set of addresses.  It
is a statement about what `exec` depends on: other bytes at these addresses make no
difference to what it does, and it leaves them alone.
-/

namespace Dryadalis

open ByteMem

/-! ## Machine states -/

/-- The registers and the memory of the guest. -/
structure Cpu where
  regs : StateRtime
  mem : Word → Byte

/-- The guest goes on at `a`. -/
def Cpu.goto (c : Cpu) (a : Word) : Cpu := { c with regs := { c.regs with rip := a } }

/-- The address after an instruction. -/
def Cpu.after (c : Cpu) (i : Insn) : Word := c.regs.rip + i.len

/-- `ret` is pushed, and the guest goes on at `a`. -/
def Cpu.call (c : Cpu) (ret a : Word) : Cpu where
  regs := { c.regs with rsp := c.regs.rsp - 8, rip := a }
  mem := store64 c.mem (c.regs.rsp - 8) ret

/-- The guest goes on at the address on the stack, which is popped. -/
def Cpu.return (c : Cpu) : Cpu where
  regs := { c.regs with rsp := c.regs.rsp + 8, rip := load64 c.mem c.regs.rsp }
  mem := c.mem

/-! ## Near branches -/

/-- The bits of `rflags` that the conditions test. -/
def StateRtime.flag (s : StateRtime) (n : Nat) : Bool := s.rflags.getLsbD n

/-- Whether a relative jump is taken, by its instruction number. -/
def InsnId.taken (s : StateRtime) : InsnId → Option Bool
  | .JMP => some true
  | .JO => some (s.flag 11)
  | .JNO => some !s.flag 11
  | .JB => some (s.flag 0)
  | .JAE => some !s.flag 0
  | .JE => some (s.flag 6)
  | .JNE => some !s.flag 6
  | .JBE => some (s.flag 0 || s.flag 6)
  | .JA => some (!s.flag 0 && !s.flag 6)
  | .JS => some (s.flag 7)
  | .JNS => some !s.flag 7
  | .JP => some (s.flag 2)
  | .JNP => some !s.flag 2
  | .JL => some (s.flag 7 != s.flag 11)
  | .JGE => some (s.flag 7 == s.flag 11)
  | .JLE => some (s.flag 6 || s.flag 7 != s.flag 11)
  | .JG => some (!s.flag 6 && s.flag 7 == s.flag 11)
  | .JECXZ => some (s.rcx.setWidth 32 == 0)
  | .JRCXZ => some (s.rcx == 0)
  | .JCXZ | .CALL | .RET | .SYSCALL | .other _ => none

/-- The general register whose 64-bit view is `r`. -/
def Gpr.ofReg64 (r : X86Reg) : Option Gpr :=
  [.rax, .rbx, .rcx, .rdx, .rsi, .rdi, .rbp, .rsp,
    .r8, .r9, .r10, .r11, .r12, .r13, .r14, .r15].find? fun g => g.reg64 = r

/-- A jump or a call through a 64-bit register.  A call through `rsp` is left out. -/
def Insn.branchReg (i : Insn) (c : Cpu) (g : Gpr) : Option Cpu :=
  match i.id with
  | .JMP => some (c.goto (c.regs.gpr g))
  | .CALL => if g = .rsp then none else some (c.call (c.after i) (c.regs.gpr g))
  | _ => none

/-- A branch with a displacement. -/
def Insn.branchRel (i : Insn) (c : Cpu) (rel : Word) : Option Cpu :=
  match i.id with
  | .CALL => some (c.call (c.after i) (c.after i + rel))
  | id => (id.taken c.regs).map fun t => c.goto (if t then c.after i + rel else c.after i)

/-- What a near branch does.  `none` is every other control-flow instruction. -/
def Insn.branch (i : Insn) (c : Cpu) : Option Cpu :=
  match i.rel with
  | some rel => i.branchRel c rel
  | none =>
    match i.operands with
    | [] => if i.id = .RET then some c.return else none
    | [.reg r] => (Gpr.ofReg64 r).bind (i.branchReg c)
    | _ => none

/-! ## Steps -/

section Run

variable (cs : Capstone) (exec : Insn → Cpu → Cpu)

/-- An instruction that is not a branch. -/
def plain (i : Insn) (c : Cpu) : Cpu := (exec i c).goto (c.after i)

/-- One instruction of the guest. -/
def nativeStep (c : Cpu) : Option Cpu :=
  match cs.decodeAt c.mem c.regs.rip with
  | none => none
  | some i => if i.cflow then i.branch c else some (plain exec i c)

/-- The `d` bytes from `c` on are instructions that do not branch, and `c'` is the
state after them. -/
inductive Straight : Cpu → Nat → Cpu → Prop where
  | stop (c) : Straight c 0 c
  | step {c i d c'} (hi : cs.decodeAt c.mem c.regs.rip = some i) (hplain : i.cflow = false)
      (tail : Straight (plain exec i c) d c') : Straight c (i.size + d) c'

/-- One block of a run: its first state, its length up to the control-flow
instruction, the state there, that instruction, and the state after it. -/
structure BlockRun where
  start : Cpu
  len : Nat
  stop : Cpu
  insn : Insn
  next : Cpu

/-- The block is what the processor does. -/
structure BlockRun.Valid (b : BlockRun) : Prop where
  straight : Straight cs exec b.start b.len b.stop
  decodes : cs.decodeAt b.stop.mem b.stop.regs.rip = some b.insn
  cflow : b.insn.cflow = true
  branch : b.insn.branch b.stop = some b.next

/-- The native run from `c`, one block after another. -/
def NativeRun : Cpu → List BlockRun → Prop
  | _, [] => True
  | c, b :: bs => b.start = c ∧ b.Valid cs exec ∧ NativeRun b.next bs

/-! ## Staying away from addresses -/

/-- The instruction neither reads nor writes the addresses in `R`. -/
structure Avoids (i : Insn) (c : Cpu) (R : Word → Prop) : Prop where
  reads : ∀ m, (∀ x, ¬ R x → m x = c.mem x) →
    (exec i { c with mem := m }).regs = (exec i c).regs ∧
      ∀ x, ¬ R x → (exec i { c with mem := m }).mem x = (exec i c).mem x
  writes : ∀ m, (∀ x, ¬ R x → m x = c.mem x) →
    ∀ x, R x → (exec i { c with mem := m }).mem x = m x

/-- No instruction of the `d` bytes from `c` on touches `R`. -/
def StraightAvoids (c : Cpu) (d : Nat) (R : Word → Prop) : Prop :=
  ∀ j c' i, Straight cs exec c j c' → j < d → cs.decodeAt c'.mem c'.regs.rip = some i →
    Avoids exec i c' R

/-- The guest runs until it gets to the address `stop`. -/
inductive RunsTo (stop : Word) : Cpu → Cpu → Prop where
  | there {c} (h : c.regs.rip = stop) : RunsTo stop c c
  | step {c c₁ c'} (h : c.regs.rip ≠ stop) (hstep : nativeStep cs exec c = some c₁)
      (tail : RunsTo stop c₁ c') : RunsTo stop c c'

end Run

/-! ## A block in its own memory -/

section Block

variable {cs : Capstone} {exec : Insn → Cpu → Cpu} {c c' : Cpu} {d : Nat} {R : Word → Prop}

/-- There is one way to get to `stop`. -/
theorem RunsTo.unique {stop : Word} {c₁ c₂ : Cpu} (h₁ : RunsTo cs exec stop c c₁)
    (h₂ : RunsTo cs exec stop c c₂) : c₁ = c₂ := by
  induction h₁ with
  | there h =>
    cases h₂ with
    | there _ => rfl
    | step hne _ _ => exact absurd h hne
  | step hne hstep _ ih =>
    cases h₂ with
    | there h => exact absurd h hne
    | step _ hstep₂ tail₂ =>
      rw [hstep] at hstep₂
      cases hstep₂
      exact ih tail₂

@[simp] theorem plain_rip (i : Insn) (c : Cpu) :
    (plain exec i c).regs.rip = c.regs.rip + i.len := rfl

@[simp] theorem plain_mem (i : Insn) (c : Cpu) : (plain exec i c).mem = (exec i c).mem := rfl

/-- Offsets past an instruction. -/
theorem plain_rip_add (i : Insn) (c : Cpu) (j : Nat) :
    (plain exec i c).regs.rip + BitVec.ofNat 64 j = c.regs.rip + BitVec.ofNat 64 (i.size + j) := by
  rw [plain_rip, Insn.len, BitVec.add_assoc, ← BitVec.ofNat_add]

theorem Straight.rip (h : Straight cs exec c d c') :
    c'.regs.rip = c.regs.rip + BitVec.ofNat 64 d := by
  induction h with
  | stop c => simp
  | step hi hplain tail ih => rw [ih, plain_rip_add]

/-- What is true of the first instruction, and of the ones after it. -/
theorem StraightAvoids.head {i : Insn} (h : StraightAvoids cs exec c (i.size + d) R)
    (hi : cs.decodeAt c.mem c.regs.rip = some i) : Avoids exec i c R :=
  h 0 c i (.stop c) (Nat.lt_of_lt_of_le (cs.size_pos hi) (Nat.le_add_right _ _)) hi

theorem StraightAvoids.tail {i : Insn} (h : StraightAvoids cs exec c (i.size + d) R)
    (hi : cs.decodeAt c.mem c.regs.rip = some i) (hplain : i.cflow = false) :
    StraightAvoids cs exec (plain exec i c) d R := by
  intro j c' i' hs hj hi'
  exact h (i.size + j) c' i' (.step hi hplain hs) (by omega) hi'

/-- An instruction leaves the bytes it avoids alone. -/
theorem Avoids.plain_mem {i : Insn} (h : Avoids exec i c R) {x : Word} (hx : R x) :
    (plain exec i c).mem x = c.mem x :=
  h.writes c.mem (fun _ _ => rfl) x hx

/-- A block leaves the bytes it avoids alone. -/
theorem Straight.mem_eq (h : Straight cs exec c d c') (hav : StraightAvoids cs exec c d R) :
    ∀ x, R x → c'.mem x = c.mem x := by
  induction h with
  | stop c => exact fun _ _ => rfl
  | step hi hplain tail ih =>
    intro x hx
    rw [ih (hav.tail hi hplain) x hx, (hav.head hi).plain_mem hx]

/-- The scan of the memory at the start of a block finds the end of the block, when
the block does not write its own code. -/
theorem Straight.firstCflow {m : Word → Byte} {i : Insn} (h : Straight cs exec c d c')
    (hav : StraightAvoids cs exec c d R) (hi : cs.decodeAt c'.mem c'.regs.rip = some i)
    (hc : i.cflow = true) (hm : ∀ x, R x → c.mem x = m x)
    (hcode : ∀ j, j < d + i.size → R (c.regs.rip + BitVec.ofNat 64 j)) :
    FirstCflow cs m c.regs.rip false d := by
  induction h with
  | stop c =>
    refine .here (cs.decodeAt_congr hi fun j hj => ?_) hc
    exact (hm _ (hcode j (by omega))).symm
  | @step c i₀ d c' hi₀ hplain tail ih =>
    refine .next (cs.decodeAt_congr hi₀ fun j hj => ?_) (Or.inr hplain) ?_
    · exact (hm _ (hcode j (by omega))).symm
    · apply ih (hav.tail hi₀ hplain) hi
      · intro x hx
        rw [(hav.head hi₀).plain_mem hx, hm x hx]
      · intro j hj
        rw [plain_rip_add]
        exact hcode _ (by omega)

/-! ## A block in a patched memory -/

/-- `p` replaces the bytes at `P`, by bytes that do not depend on the memory. -/
structure Patcher (p : (Word → Byte) → Word → Byte) (P : Word → Prop) : Prop where
  outside : ∀ m x, ¬ P x → p m x = m x
  inside : ∀ m m' x, P x → p m x = p m' x

variable {p : (Word → Byte) → Word → Byte} {P : Word → Prop}

/-- An instruction that avoids the patched bytes does the same in both memories. -/
theorem plain_patched {i : Insn} (hp : Patcher p P) (hPR : ∀ x, P x → R x)
    (hav : Avoids exec i c R) :
    plain exec i { c with mem := p c.mem } =
      { plain exec i c with mem := p (plain exec i c).mem } := by
  have hagree : ∀ x, ¬ R x → p c.mem x = c.mem x := fun x hx =>
    hp.outside _ x fun hP => hx (hPR x hP)
  obtain ⟨hregs, hmem⟩ := hav.reads (p c.mem) hagree
  have hsame : (exec i { c with mem := p c.mem }).mem = p (exec i c).mem := by
    funext x
    by_cases hP : P x
    · rw [hav.writes (p c.mem) hagree x (hPR x hP)]
      exact hp.inside _ _ x hP
    · rw [hp.outside _ x hP]
      by_cases hR : R x
      · rw [hav.writes (p c.mem) hagree x hR, hp.outside _ x hP]
        exact (hav.plain_mem hR).symm
      · exact hmem x hR
  rw [plain, Cpu.goto, hsame, hregs]
  rfl

/-- A block that avoids the patched bytes does the same in both memories, and gets to
its end without branching. -/
theorem Straight.runsTo {stop : Word} (hp : Patcher p P) (hPR : ∀ x, P x → R x)
    (h : Straight cs exec c d c') (hav : StraightAvoids cs exec c d R)
    (hcode : ∀ j, j < d → ¬ P (c.regs.rip + BitVec.ofNat 64 j)) (hd : d < 2 ^ 64)
    (hstop : stop = c.regs.rip + BitVec.ofNat 64 d) :
    RunsTo cs exec stop { c with mem := p c.mem } { c' with mem := p c'.mem } := by
  induction h with
  | stop c => exact .there (by simp [hstop])
  | @step c i d c' hi hplain tail ih =>
    have hpos := cs.size_pos hi
    have hdecode : cs.decodeAt (p c.mem) c.regs.rip = some i :=
      cs.decodeAt_congr hi fun j hj => hp.outside _ _ (hcode j (by omega))
    have hne : c.regs.rip ≠ stop := by
      intro heq
      have hdist := dist_add (a := c.regs.rip) hd
      rw [← hstop, ← heq, dist_self] at hdist
      omega
    have hstep : nativeStep cs exec { c with mem := p c.mem } =
        some { plain exec i c with mem := p (plain exec i c).mem } := by
      rw [nativeStep]
      simp only [hdecode, hplain, Bool.false_eq_true, if_false]
      rw [plain_patched hp hPR (hav.head hi)]
    refine .step hne hstep (ih (hav.tail hi hplain) ?_ (by omega) ?_)
    · intro j hj
      rw [plain_rip_add]
      exact hcode _ (by omega)
    · rw [plain_rip_add]
      exact hstop

end Block

end Dryadalis
