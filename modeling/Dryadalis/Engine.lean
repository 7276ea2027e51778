import Dryadalis.Lib.Exec
import Dryadalis.Memory

/-!
# The engine state

`Engine` is what the functions of `engine.c`, `analysis.c` and `syscall_hook.c`
share through `mdata_binary_t`, the file-scope variables and the processor: the
saved guest registers, the address space, the two hooks, the FS and GS bases and
the program break.  An engine function is an `Eng` program.  It ends with a
value or stops for a `Halt` reason, and keeps the state in both cases.

Two fields are not variables of the source.  `requests` lists the system calls
that were made for the guest, newest first, and `trace` lists the moments at
which the source calls out of the engine, each with the bases that were active.

The base switches are at the end.  `set_fs_gs` joins two results of
`arch_prctl` with `||`, so it returns 0 or 1 and never the -1 that most of its
callers test for.
-/

namespace Dryadalis

open ByteMem

/-! ## The state -/

/-- `hook_t`.  `origBytes` is the backup of the bytes under the hook. -/
structure Hook where
  code : Nat → Byte
  origBytes : Nat → Byte
  length : Word
  jmp : Word
  toUnmap : Word

/-- A call out of the engine, with the FS and GS bases active at that moment.
`output` is a write to a stream, `dtor` the destructor, `callback` the user
handler, `resume` the jump back to the guest in `continue_exec`.  Three diagnostics
have an event of their own: `targetError` of `__eval_target` for an operand it cannot
evaluate, `notFoundCflow` of `is_jmp_taken` (`not found cflow`), and `unhandledInsn` at
the end of `__eval_target` (`unhandled instruction`).  `lookup` is a call of
`get_syscall_hook` with the guest's number. -/
inductive Event where
  | output (fs gs : Word)
  | dtor (fs gs : Word)
  | callback (fs gs : Word)
  | resume (fs gs : Word)
  | targetError
  | notFoundCflow (fs gs : Word)
  | unhandledInsn (instruction fs gs : Word)
  | lookup (number : BitVec 32)
  deriving DecidableEq

/-- The state of the engine.  `fs` and `gs` are the bases of the processor. -/
structure Engine where
  state : StateRtime
  space : Space
  dump : Hook
  restore : Hook
  currHook : Word
  currSyscall : Bool
  takeCallback : Bool
  lengthCflow : Int
  hostFs : Word
  hostGs : Word
  instrumentedFs : Word
  instrumentedGs : Word
  fs : Word
  gs : Word
  vbrk : Word
  requests : List Request
  trace : List Event

/-- A hook that has not been compiled. -/
def Hook.empty : Hook :=
  { code := fun _ => 0, origBytes := fun _ => 0, length := 0, jmp := 0, toUnmap := 0 }

/-- The engine before anything has been instrumented, over an address space. -/
def Engine.fresh (space : Space) : Engine :=
  { state := .zero, space, dump := .empty, restore := .empty, currHook := 0
    currSyscall := false, takeCallback := false, lengthCflow := 0
    hostFs := 0, hostGs := 0, instrumentedFs := 0, instrumentedGs := 0
    fs := 0, gs := 0, vbrk := 0, requests := [], trace := [] }

/-- Which of the two hooks. -/
inductive Which where
  | dump
  | restore
  deriving DecidableEq, Repr

def Engine.hook (e : Engine) : Which → Hook
  | .dump => e.dump
  | .restore => e.restore

def Engine.setHook (e : Engine) : Which → Hook → Engine
  | .dump, h => { e with dump := h }
  | .restore, h => { e with restore := h }

/-- An engine function. -/
abbrev Eng := EStateM Halt Engine

/-! ## Calls out of the engine -/

/-- Record a call out of the engine. -/
def emit (mk : Word → Word → Event) : Eng Unit :=
  modify fun e => { e with trace := mk e.fs e.gs :: e.trace }

/-- `fatal_dump`: log the registers and call the destructor, which exits. -/
def fatalDump {α : Type} : Eng α := do
  emit .output
  emit .dtor
  throw .fatal

/-- `fatal_dump` stops the run and leaves the address space alone. -/
theorem fatalDump_stops {α : Type} (e : Engine) : ∃ e' : Engine,
    (fatalDump : Eng α) e = .error .fatal e' ∧ e'.space = e.space := ⟨_, rfl, rfl⟩

/-- `mem_read` on the engine's address space. -/
def readMem (k : Kernel) (buf : Nat → Byte) (src size : Word) : Eng (Int × (Nat → Byte)) :=
  fun e =>
    match memRead k src size ⟨buf, e.space⟩ with
    | .error h s => .error h { e with space := s.space }
    | .ok r s => .ok (r, s.buf) { e with space := s.space }

/-- `mem_write` on the engine's address space. -/
def writeMem (k : Kernel) (dst : Word) (buf : Nat → Byte) (size : Word) : Eng Int :=
  fun e =>
    match memWrite k dst buf size e.space with
    | .error h m => .error h { e with space := m }
    | .ok r m => .ok r { e with space := m }

/-! ## System calls -/

def ARCH_SET_GS : BitVec 32 := 0x1001
def ARCH_SET_FS : BitVec 32 := 0x1002
def ARCH_GET_FS : BitVec 32 := 0x1003
def ARCH_GET_GS : BitVec 32 := 0x1004

/-- The effect of an `arch_prctl` that the kernel accepts: on the bases, or on the
eight bytes at `addr`. -/
def archPrctlDone (code : BitVec 32) (addr : Word) (e : Engine) : Engine :=
  if code = ARCH_SET_FS then { e with fs := addr }
  else if code = ARCH_SET_GS then { e with gs := addr }
  else if code = ARCH_GET_FS then
    { e with space := { e.space with byte := store64 e.space.byte addr e.fs } }
  else if code = ARCH_GET_GS then
    { e with space := { e.space with byte := store64 e.space.byte addr e.gs } }
  else e

/-- The `arch_prctl` system call, with the raw answer of the kernel. -/
def kernelArchPrctl (k : Kernel) (code : BitVec 32) (addr : Word) : Eng Word := do
  let raw := k.archPrctl code addr
  modify fun e => if isError raw then e else archPrctlDone code addr e
  return raw

/-- `__NR_arch_prctl` -/
def NR_arch_prctl : Nat := 158

/-- The kernel's side of a system call made for the guest. -/
def kernelCall (k : Kernel) (nr : Nat) (args : List Word) : Eng Word := do
  let e ← get
  if nr = NR_arch_prctl then
    let raw ← kernelArchPrctl k ((args.getD 0 0).setWidth 32) (args.getD 1 0)
    modify fun e => { e with requests := ⟨nr, args, raw⟩ :: e.requests }
    return raw
  else
    let r := k.sys e.requests nr args e.space
    modify fun e => { e with space := r.2, requests := ⟨nr, args, r.1⟩ :: e.requests }
    return r.1

/-- `syscall` of the C library. -/
def syscall (k : Kernel) (nr : Nat) (args : List Word) : Eng Word := do
  let raw ← kernelCall k nr args
  return libcRet raw

/-! ## The FS and GS bases -/

/-- `arch_prctl` with a code that sets a base.  The `long` of `syscall` is
truncated to `int`. -/
def archPrctl (k : Kernel) (code : BitVec 32) (base : Word) : Eng Int := do
  let raw ← kernelArchPrctl k code base
  return ((libcRet raw).setWidth 32).toInt

/-- `set_fs_gs`: the C `||` of the two calls. -/
def setFsGs (k : Kernel) (fs gs : Word) : Eng Int := do
  if (← archPrctl k ARCH_SET_FS fs) ≠ 0 then
    return 1
  if (← archPrctl k ARCH_SET_GS gs) ≠ 0 then
    return 1
  return 0

/-- `save_fs_gs`: read both bases into variables of the engine.  `none` is the
return value -1. -/
def saveFsGs (k : Kernel) : Eng (Option (Word × Word)) := do
  let e ← get
  if isError (k.archPrctlGet ARCH_GET_FS) || isError (k.archPrctlGet ARCH_GET_GS) then
    return none
  return some (e.fs, e.gs)

/-! ## What a switch does -/

section Switch

variable {k : Kernel} {e : Engine}

theorem archPrctl_setFs (k : Kernel) (base : Word) (e : Engine) :
    archPrctl k ARCH_SET_FS base e =
      .ok ((libcRet (k.archPrctl ARCH_SET_FS base)).setWidth 32).toInt
        (if isError (k.archPrctl ARCH_SET_FS base) then e else { e with fs := base }) := by
  rfl

theorem archPrctl_setGs (k : Kernel) (base : Word) (e : Engine) :
    archPrctl k ARCH_SET_GS base e =
      .ok ((libcRet (k.archPrctl ARCH_SET_GS base)).setWidth 32).toInt
        (if isError (k.archPrctl ARCH_SET_GS base) then e else { e with gs := base }) := by
  rfl

/-- `set_fs_gs` always returns, changes nothing but the two bases, and never
returns -1. -/
theorem setFsGs_total (k : Kernel) (fs gs : Word) (e : Engine) :
    ∃ r e', setFsGs k fs gs e = .ok r e' ∧ r ≠ -1 ∧
      ∃ fs' gs', e' = { e with fs := fs', gs := gs' } := by
  rw [setFsGs, Exec.bind_of_ok (archPrctl_setFs k fs e)]
  have hfs : ∃ fs', (if isError (k.archPrctl ARCH_SET_FS fs) then e else { e with fs := fs }) =
      { e with fs := fs' } := by
    split
    · exact ⟨e.fs, rfl⟩
    · exact ⟨fs, rfl⟩
  obtain ⟨fs', hfs'⟩ := hfs
  rw [hfs']
  split
  · exact ⟨1, _, rfl, by decide, fs', e.gs, rfl⟩
  · rw [Exec.bind_of_ok (archPrctl_setGs k gs _)]
    have hgs : ∃ gs', (if isError (k.archPrctl ARCH_SET_GS gs) then { e with fs := fs' }
        else { e with fs := fs', gs := gs }) = { e with fs := fs', gs := gs' } := by
      split
      · exact ⟨e.gs, rfl⟩
      · exact ⟨gs, rfl⟩
    obtain ⟨gs', hgs'⟩ := hgs
    rw [hgs']
    split
    · exact ⟨1, _, rfl, by decide, fs', gs', rfl⟩
    · exact ⟨0, _, rfl, by decide, fs', gs', rfl⟩

/-- `set_fs_gs` with a kernel that accepts both calls. -/
theorem setFsGs_of_ok {fs gs : Word} (hfs : k.archPrctl ARCH_SET_FS fs = 0)
    (hgs : k.archPrctl ARCH_SET_GS gs = 0) :
    setFsGs k fs gs e = .ok 0 { e with fs, gs } := by
  rw [setFsGs, Exec.bind_of_ok (archPrctl_setFs k fs e), hfs, if_neg (by decide),
    Exec.bind_of_ok (archPrctl_setGs k gs _), hgs]
  rfl

/-- The kernel sets and reads the two bases whenever it is asked to. -/
structure Kernel.SetsBases (k : Kernel) : Prop where
  setFs : ∀ a, k.archPrctl ARCH_SET_FS a = 0
  setGs : ∀ a, k.archPrctl ARCH_SET_GS a = 0
  getFs : k.archPrctlGet ARCH_GET_FS = 0
  getGs : k.archPrctlGet ARCH_GET_GS = 0

theorem code_setsBases : Kernel.code.SetsBases := ⟨fun _ => rfl, fun _ => rfl, rfl, rfl⟩

section SetsBases

variable (hk : k.SetsBases)

include hk

/-- `set_fs_gs` when the kernel sets the bases. -/
theorem setFsGs_eq (fs gs : Word) : setFsGs k fs gs e = .ok 0 { e with fs, gs } :=
  setFsGs_of_ok (hk.setFs fs) (hk.setGs gs)

theorem saveFsGs_eq (e : Engine) : saveFsGs k e = .ok (some (e.fs, e.gs)) e := by
  rw [saveFsGs, Exec.bind_of_ok (Exec.get_apply e), hk.getFs, hk.getGs]
  rfl

end SetsBases

end Switch

end Dryadalis
