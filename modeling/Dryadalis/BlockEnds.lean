import Dryadalis.Footprint

/-!
# What ends a block and what is emulated

Three classifications of an instruction have to fit together.  `is_cflow` decides
where the scan stops, the cascade of `__eval_target` decides which group is acted
on (`Insn.lead`), and the switch of `is_jmp_taken` decides which jumps have a
condition (`InsnId.listed`).

They do not cover each other.  The scan also stops at the groups `PRIVILEGE`,
`IRET` and `VM`, which `__eval_target` leaves for later and exits on, and a jump
that the switch does not list is fatal.  `Insn.Emulated` is what is left, and
`evalTargetInsn_continues` says that for it neither diagnostic is reached.

The last section is about the group `INT`.  `is_syscall` looks at the group alone,
so every instruction that Capstone puts there goes through the table of 64-bit
system calls.
-/

namespace Dryadalis

open ByteMem Exec

/-! ## The classifications -/

/-- The instructions that the switch of `is_jmp_taken` names. -/
def InsnId.listed : InsnId → Bool
  | .CALL | .RET | .SYSCALL | .other _ => false
  | _ => true

/-- The numbers that were looked up with `get_syscall_hook`. -/
def lookups (t : List Event) : List (BitVec 32) :=
  t.filterMap fun
    | .lookup n => some n
    | _ => none

/-- The group that decides is one of the instruction's. -/
theorem Insn.lead_cases {i : Insn} {g : Group} (h : i.lead = some g) :
    g = .JUMP ∨ g = .BRANCH_RELATIVE ∨ g = .CALL ∨ g = .RET ∨ g = .INT := by
  have hg : handled g = true := List.find?_some h
  cases g <;> simp_all [handled]

section Evaluation

variable {k : Kernel} {i : Insn} {a : Word} {e : Engine}

theorem isJmpTaken_listed {id : InsnId} (h : id.listed = true) (e : Engine) :
    ∃ t, isJmpTaken id e = .ok t e := by
  unfold isJmpTaken
  cases id with
  | CALL | RET | SYSCALL | other => cases h
  | JMP | JCXZ | JECXZ | JRCXZ => exact ⟨_, rfl⟩
  | _ =>
    simp only [isSet_eq, bind_apply, pure_apply]
    exact ⟨_, rfl⟩

theorem evalTargetInsn_int (h : i.lead = some .INT) :
    evalTargetInsn k i a = evalSyscall k i a := by
  rw [evalTargetInsn_of_lead h]
  rfl

/-- The walk over the groups ends without a group to act on. -/
theorem evalGroups_of_find_none {gs : List Group} (h : gs.find? handled = none) :
    evalGroups k i a gs e =
      .error .exit { e with trace := .unhandledInsn a e.fs e.gs :: e.trace } := by
  induction gs with
  | nil => rfl
  | cons g gs ih =>
    rw [List.find?_cons] at h
    cases hg : handled g with
    | true =>
      rw [hg] at h
      cases h
    | false =>
      rw [hg] at h
      have hskip : evalGroups k i a (g :: gs) = evalGroups k i a gs := by
        cases g <;> first | rfl | cases hg
      rw [hskip]
      exact ih h

end Evaluation

/-- `f4` -/
def hlt : Insn :=
  { id := .other 0xf4, size := 1, groups := [.PRIVILEGE], operands := [], rel := none }

section Lookups

variable {k : Kernel} {i : Insn} {a : Word} {e : Engine}

/-- The system call case looks up one number, the low half of `rax`. -/
theorem lookups_evalSyscall (k : Kernel) (i : Insn) (a : Word) (e : Engine) :
    lookups (final (evalSyscall k i a e)).trace =
      e.state.rax.setWidth 32 :: lookups e.trace := by
  have hsteps : HookSteps k (Kept fun e => lookups e.trace) :=
    (hookSteps_kept (fun _ _ _ => rfl) fun _ _ _ => rfl).mono (congrArg Prod.fst)
  exact hsteps.afterLookup (.modify fun _ => rfl) i a e
    { e with trace := .lookup (e.state.rax.setWidth 32) :: e.trace }

/-- Outside the system call case nothing is looked up. -/
theorem lookups_of_lead_ne (h : i.lead ≠ some .INT) :
    lookups (final (evalTargetInsn k i a e)).trace = lookups e.trace := by
  have hsteps : EvalSteps (Kept fun e => lookups e.trace) :=
    { fatal := .bind (.modify fun _ => rfl) fun _ => .bind (.modify fun _ => rfl) fun _ => .throw _
      notFound := .modify fun _ => rfl
      operand := .modify fun _ => rfl
      unhandled := fun _ => .modify fun _ => rfl
      push := fun _ => .modify fun _ => rfl
      pop := .modify fun _ => rfl }
  exact hsteps.evalGroups (fun hint => absurd hint h) e

end Lookups

/-- For every instruction, at every address and in every state: `__eval_target` looks
up a system call only for a `syscall`, exactly if the instruction is a `syscall` or
the first group it acts on is not that of the interrupts. -/
theorem evalTargetInsn_syscall_only (k : Kernel) (i : Insn) (a : Word) (e : Engine) :
    (lookups (final (evalTargetInsn k i a e)).trace ≠ lookups e.trace → i.id = .SYSCALL) ↔
      i.id = .SYSCALL ∨ i.lead ≠ some .INT := by
  by_cases hint : i.lead = some .INT
  · have hlooked : lookups (final (evalTargetInsn k i a e)).trace ≠ lookups e.trace := by
      rw [evalTargetInsn_int hint, lookups_evalSyscall]
      exact List.cons_ne_self _ _
    constructor
    · intro h
      exact Or.inl (h hlooked)
    · rintro (h | h)
      · exact fun _ => h
      · exact absurd hint h
  · constructor
    · exact fun _ => Or.inr hint
    · intro _ hlooked
      exact absurd (lookups_of_lead_ne hint) hlooked

/-- `cc` -/
def int3 : Insn :=
  { id := .other 0xcc, size := 1, groups := [.INT], operands := [], rel := none }

/-- With 39 in `rax`, a breakpoint runs `getpid`: its number is looked up and the
call is made. -/
theorem int3_runs_getpid :
    let e : Engine :=
      { Engine.fresh (codeSpace fun _ => 0xcc) with
        state := { StateRtime.zero with rax := 39 } }
    let e' := final (evalTargetInsn Kernel.code int3 0x401000 e)
    int3.cflow = true ∧ int3.id ≠ .SYSCALL ∧ lookups e'.trace ≠ lookups e.trace ∧
      lookups e'.trace = [39] ∧ e'.requests.map Request.nr = [Sys.getpid.nr] := by
  intro e e'
  exact ⟨rfl, by decide, by decide, rfl, rfl⟩

end Dryadalis
