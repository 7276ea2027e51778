import Dryadalis.Syscalls

/-!
# What the kernel sees of a guest system call

Every hook but those of `brk`, `exit`, `exit_group` and the close of the standard
output makes one system call for the guest (`Sys.Forwards`).  This file compares
that call with the one the guest would have made itself, in both directions.

* The result.  The C library turns every error into `-1`, so the guest sees the
  kernel's `rax` only when it is not an error, or when it is the error number 1.
  `hook_mmap` stops the engine on an error.
* The arguments.  The system call convention passes them in `rdi`, `rsi`, `rdx`,
  `r10`, `r8`, `r9`.  `Sys.arity` is the number that each call takes, and
  `Sys.Passed` says when the hook passes all of them, unchanged and under the
  guest's own number.

`forward_spec` describes the common body of the hooks, and `Sys.hook_served` goes
through the hooks once for both results.
-/

namespace Dryadalis

open ByteMem

/-! ## The calls -/

/-- The registers of the x86-64 system call convention, in order. -/
def abiArgs (s : StateRtime) : List Word := [s.rdi, s.rsi, s.rdx, s.r10, s.r8, s.r9]

/-- The number of arguments that the system call takes on x86-64 Linux. -/
def Sys.arity : Sys → Nat
  | .getuid | .geteuid | .getegid | .getgid | .getpid | .gettid | .getppid | .vfork
  | .getpgrp => 0
  | .brk | .exit | .exitGroup | .close | .setTidAddress | .uname | .time | .epollCreate1 | .chdir
  | .umask => 1
  | .archPrctl | .access | .fstat | .munmap | .setRobustList | .statfs | .stat | .sigaltstack
  | .setpgid | .gettimeofday | .lstat | .clockGetres | .clockGettime | .eventfd2 | .pipe2
  | .getcwd | .mkdir | .listen | .shutdown => 2
  | .writev | .read | .mprotect | .tgkill | .socket | .connect | .write | .ioctl | .execve
  | .fcntl | .getdents64 | .readlink | .setitimer | .readv | .lseek | .seccomp | .ioSubmit
  | .bind | .poll | .shmat => 3
  | .openat | .pread64 | .rtSigaction | .rtSigprocmask | .prlimit64 | .newfstatat | .lgetxattr
  | .fadvise64 | .wait4 | .msgsnd | .accept4 => 4
  | .statx | .clone | .fanotifyMark | .setsockopt => 5
  | .mmap | .futex => 6

/-- The hook makes the system call for the guest. -/
def Sys.Forwards (s : Sys) (st : StateRtime) : Prop :=
  s ≠ .brk ∧ s ≠ .exit ∧ s ≠ .exitGroup ∧ (s = .close → st.rdi ≠ 1)

instance (s : Sys) (st : StateRtime) : Decidable (s.Forwards st) :=
  inferInstanceAs (Decidable (_ ∧ _ ∧ _ ∧ (_ → _)))

/-- The kernel is asked for this number when the hook of a system call makes a request.
`vfork` is run as `fork`, and `getppid` shares the hook of `getpid`. -/
def Sys.asked : Sys → Nat
  | .vfork => NR_fork
  | .getppid => Sys.getpid.nr
  | s => s.nr

/-- The arguments that the hook passes. -/
def Sys.passes (s : Sys) (st : StateRtime) : List Word :=
  match s with
  | .archPrctl => [intArg st.rdi, st.rsi]
  | .access => [st.rdi, intArg st.rsi]
  | .mmap => mmapArgs st
  | .getuid | .geteuid | .getegid | .getgid => (abiArgs st).take 1
  | .fadvise64 | .fanotifyMark => (abiArgs st).take 2
  | .futex => (abiArgs st).take 3
  | .clone => (abiArgs st).take 4
  | .newfstatat => (abiArgs st).take 5
  | s => (abiArgs st).take s.arity

/-- The request is the guest's own: its number, and in every position that the call
takes the register of that position. -/
def Sys.Faithful (s : Sys) (st : StateRtime) (req : Request) : Prop :=
  req.nr = s.nr ∧ req.args.take s.arity = (abiArgs st).take s.arity

/-- The registers for which the hook passes the guest's own request. -/
def Sys.Passed (s : Sys) (st : StateRtime) : Prop :=
  match s with
  | .getppid | .futex | .fadvise64 | .clone | .fanotifyMark => False
  | .mmap =>
    st.rdx.toNat < 2 ^ 32 ∧ st.r10 = intArg st.rcx ∧ st.r8.toNat < 2 ^ 32 ∧ st.r9.toNat < 2 ^ 32
  | .access => st.rsi.toNat < 2 ^ 32
  | .archPrctl => st.rdi.toNat < 2 ^ 32
  | _ => True

/-- The value that the guest finds in `rax` is the kernel's, and the run goes on. -/
def Transparent (k : Kernel) (s : Sys) (e : Engine) (req : Request) : Prop :=
  ∃ e', s.hook k e = .ok 0 e' ∧ e'.state.rax = req.rax

/-- The kernel's answers that get through to the guest. -/
def Sys.PassedBack (s : Sys) (rax : Word) : Prop :=
  isError rax = false ∨ rax = minusOne ∧ s ≠ .mmap

theorem intArg_eq_self_iff (v : Word) : intArg v = v ↔ v.toNat < 2 ^ 32 := by
  rw [← BitVec.toNat_inj, intArg, BitVec.toNat_setWidth, BitVec.toNat_setWidth]
  omega

theorem isError_minusOne : isError minusOne = true := by decide

/-! ## The common body -/

theorem archPrctlDone_requests (code : BitVec 32) (addr : Word) (e : Engine) :
    (archPrctlDone code addr e).requests = e.requests := by
  unfold archPrctlDone
  split_ifs <;> rfl

/-- The kernel answers every call and the call is recorded once. -/
theorem kernelCall_total (k : Kernel) (nr : Nat) (args : List Word) (e : Engine) :
    ∃ raw e', kernelCall k nr args e = .ok raw e' ∧
      e'.requests = ⟨nr, args, raw⟩ :: e.requests := by
  rw [kernelCall, Exec.bind_of_ok (Exec.get_apply e)]
  split
  · refine ⟨_, _, rfl, ?_⟩
    simp only
    split
    · rfl
    · rw [archPrctlDone_requests]
  · exact ⟨_, _, rfl, rfl⟩

theorem syscall_total (k : Kernel) (nr : Nat) (args : List Word) (e : Engine) :
    ∃ raw e', syscall k nr args e = .ok (libcRet raw) e' ∧
      e'.requests = ⟨nr, args, raw⟩ :: e.requests := by
  obtain ⟨raw, e', hcall, hreq⟩ := kernelCall_total k nr args e
  refine ⟨raw, e', ?_, hreq⟩
  rw [syscall, Exec.bind_of_ok hcall]
  rfl

/-- `do_syscall` never takes its fatal branches, because `set_fs_gs` never returns
-1. -/
theorem doSyscall_spec (k : Kernel) (nr : Nat) (args : List Word) (e : Engine) :
    ∃ raw e', doSyscall k nr args e = .ok () e' ∧
      e'.requests = ⟨nr, args, raw⟩ :: e.requests ∧ e'.state.rax = libcRet raw := by
  obtain ⟨r₁, e₁, hset₁, hr₁, fs₁, gs₁, he₁⟩ :=
    setFsGs_total k e.instrumentedFs e.instrumentedGs e
  obtain ⟨raw, e₂, hcall, hreq⟩ := syscall_total k nr args e₁
  obtain ⟨r₃, e₃, hset₃, hr₃, fs₃, gs₃, he₃⟩ := setFsGs_total k e₂.hostFs e₂.hostGs
    { e₂ with state := { e₂.state with rax := libcRet raw } }
  refine ⟨raw, e₃, ?_, ?_, ?_⟩
  · rw [doSyscall, Exec.bind_of_ok (Exec.get_apply e), Exec.bind_of_ok hset₁]
    simp only [if_neg hr₁]
    rw [Exec.bind_of_ok hcall, Exec.bind_of_ok (setRax_apply _ _),
      Exec.bind_of_ok (Exec.get_apply _), Exec.bind_of_ok hset₃, if_neg hr₃]
    rfl
  · rw [he₃, hreq, he₁]
  · rw [he₃]

/-- The hooks of the family return 0, and leave the C library's view of the
kernel's answer in `rax`. -/
theorem forward_spec (k : Kernel) (nr : Nat) (args : StateRtime → List Word) (e : Engine) :
    ∃ raw e', forward k nr args e = .ok 0 e' ∧
      e'.requests = ⟨nr, args e.state, raw⟩ :: e.requests ∧ e'.state.rax = libcRet raw := by
  obtain ⟨raw, e', hcall, hreq, hrax⟩ := doSyscall_spec k nr (args e.state) e
  refine ⟨raw, { e' with trace := .output e'.fs e'.gs :: e'.trace }, ?_, hreq, hrax⟩
  rw [forward, Exec.bind_of_ok (Exec.get_apply e), Exec.bind_of_ok hcall]
  rfl

/-! ## All the hooks -/

/-- The request is the one that the hook makes from these registers. -/
def Sys.Asks (s : Sys) (st : StateRtime) (req : Request) : Prop :=
  req.nr = s.asked ∧ req.args = s.passes st

/-- What a hook does for the guest: one request, whose answer gets through and
whose arguments are the guest's exactly in the cases described. -/
structure Served (k : Kernel) (s : Sys) (e : Engine) (req : Request) : Prop where
  once : (Exec.final (s.hook k e)).requests = req :: e.requests
  asks : s.Asks e.state req
  answer : Transparent k s e req ↔ s.PassedBack req.rax
  arguments : s ≠ .vfork → (s.Faithful e.state req ↔ s.Passed e.state)

section Served

-- Keeps the unifier from opening the common body when it matches a hook against it.
attribute [local irreducible] forward

variable {k : Kernel} {s : Sys} {e : Engine}

/-- A hook that returns 0 with the C library's view of the answer in `rax`. -/
theorem served_of_ok {req : Request} {e' : Engine} (hs : s ≠ .mmap)
    (hrun : s.hook k e = .ok 0 e') (hreq : e'.requests = req :: e.requests)
    (hasks : s.Asks e.state req) (hrax : e'.state.rax = libcRet req.rax)
    (hargs : s ≠ .vfork → (s.Faithful e.state req ↔ s.Passed e.state)) :
    Served k s e req where
  once := by
    rw [hrun]
    exact hreq
  asks := hasks
  answer := by
    rw [Sys.PassedBack, and_iff_left hs, ← libcRet_eq_self_iff, ← hrax]
    constructor
    · rintro ⟨e'', hrun', hrax'⟩
      rw [hrun] at hrun'
      cases hrun'
      exact hrax'
    · intro h
      exact ⟨e', hrun, h⟩
  arguments := hargs

theorem served_of_forward {nr : Nat} {args : StateRtime → List Word} (hs : s ≠ .mmap)
    (hhook : s.hook k e = forward k nr args e) (hnr : nr = s.asked)
    (hpasses : args e.state = s.passes e.state)
    (hargs : s ≠ .vfork → ∀ raw,
      (s.Faithful e.state ⟨nr, args e.state, raw⟩ ↔ s.Passed e.state)) :
    ∃ req, Served k s e req := by
  obtain ⟨raw, e', hrun, hreq, hrax⟩ := forward_spec k nr args e
  exact ⟨_, served_of_ok hs (hhook.trans hrun) hreq ⟨hnr, hpasses⟩ hrax fun hv => hargs hv raw⟩

/-- Too few arguments are never the guest's own. -/
theorem Sys.not_faithful_of_length {st : StateRtime} {req : Request}
    (h : req.args.length < s.arity) (hsix : s.arity ≤ 6) : ¬ s.Faithful st req := by
  rintro ⟨-, hargs⟩
  have hlen := congrArg List.length hargs
  rw [List.length_take, List.length_take] at hlen
  simp only [abiArgs, List.length_cons, List.length_nil] at hlen
  omega

theorem archPrctlSwitch_total (code : BitVec 32) (addr : Word) (e : Engine) :
    ∃ e', archPrctlSwitch code addr e = .ok () e' ∧ e'.requests = e.requests := by
  unfold archPrctlSwitch
  split_ifs <;> exact ⟨_, rfl, rfl⟩

theorem archPrctlBack_total (k : Kernel) (code : BitVec 32) (e : Engine) :
    ∃ e', archPrctlBack k code e = .ok () e' ∧ e'.requests = e.requests := by
  rw [archPrctlBack, Exec.bind_of_ok (Exec.get_apply e)]
  split
  · obtain ⟨r, e', hset, hr, fs, gs, he'⟩ := setFsGs_total k e.hostFs e.hostGs e
    refine ⟨e', ?_, by rw [he']⟩
    rw [Exec.bind_of_ok hset, if_neg hr]
    rfl
  · exact ⟨e, rfl, rfl⟩

/-- `hook_arch_prctl` passes its code through an `int`. -/
theorem archPrctl_served : ∃ req, Served k .archPrctl e req := by
  let code : BitVec 32 := e.state.rdi.setWidth 32
  obtain ⟨e₁, hswitch, hreq₁⟩ := archPrctlSwitch_total code e.state.rsi e
  obtain ⟨raw, e₂, hcall, hreq₂⟩ :=
    syscall_total k Sys.archPrctl.nr [intArg e.state.rdi, e.state.rsi] e₁
  obtain ⟨e₃, hback, hreq₃⟩ := archPrctlBack_total k code e₂
  have hrun : Sys.archPrctl.hook k e = .ok 0
      { e₃ with
        state := { e₃.state with rax := libcRet raw }
        trace := .output e₃.fs e₃.gs :: e₃.trace } := by
    show hookArchPrctl k e = _
    rw [hookArchPrctl, Exec.bind_of_ok (Exec.get_apply e)]
    simp only
    rw [Exec.bind_of_ok hswitch, Exec.bind_of_ok hcall, Exec.bind_of_ok hback]
    rfl
  refine ⟨⟨Sys.archPrctl.nr, [intArg e.state.rdi, e.state.rsi], raw⟩,
    served_of_ok (by decide) hrun ?_ ⟨rfl, rfl⟩ rfl ?_⟩
  · rw [hreq₃, hreq₂, hreq₁]
  · intro _
    rw [Sys.Passed, ← intArg_eq_self_iff]
    simp [Sys.Faithful, Sys.arity, abiArgs]

/-- `hook_mmap` stops the engine on every error. -/
theorem mmap_served : ∃ req, Served k .mmap e req := by
  obtain ⟨raw, e', hrun, hreq, hrax⟩ := forward_spec k Sys.mmap.nr mmapArgs e
  have hhook : Sys.hook k .mmap e =
      (if libcRet raw = minusOne then fatalDump else pure 0 : Eng Word) e' := by
    show hookMmap k e = _
    rw [hookMmap, Exec.bind_of_ok hrun, Exec.bind_of_ok (Exec.get_apply e'), hrax]
    split <;> rfl
  refine ⟨⟨Sys.mmap.nr, mmapArgs e.state, raw⟩, ?_, ⟨rfl, rfl⟩, ?_, fun _ => ?_⟩
  · rw [hhook, ← hreq]
    split <;> rfl
  · simp only [Transparent, Sys.PassedBack, ne_eq, not_true_eq_false, and_false, or_false]
    rw [hhook, libcRet]
    cases herr : isError raw with
    | true =>
      constructor
      · rintro ⟨e'', hok, -⟩
        cases hok
      · intro h
        cases h
    | false =>
      have hne : raw ≠ minusOne := by
        rintro rfl
        rw [isError_minusOne] at herr
        cases herr
      simp only [Bool.false_eq_true, if_false, if_neg hne, iff_true]
      refine ⟨e', rfl, ?_⟩
      rw [hrax, libcRet, herr]
      rfl
  · rw [Sys.Passed, ← intArg_eq_self_iff, ← intArg_eq_self_iff, ← intArg_eq_self_iff,
      eq_comm (a := e.state.r10)]
    simp [Sys.Faithful, Sys.arity, abiArgs, mmapArgs]

/-- Every forwarding hook makes one request. -/
theorem Sys.hook_served (hf : s.Forwards e.state) : ∃ req, Served k s e req := by
  obtain ⟨hbrk, hexit, hgroup, hclose⟩ := hf
  cases s
  case brk => exact absurd rfl hbrk
  case exit => exact absurd rfl hexit
  case exitGroup => exact absurd rfl hgroup
  case archPrctl => exact archPrctl_served
  case mmap => exact mmap_served
  case close =>
    have hhook : Sys.hook k .close e = forward k Sys.close.nr (fun s => [s.rdi]) e := by
      show hookClose k e = _
      rw [hookClose, Exec.bind_of_ok (Exec.get_apply e), if_neg (hclose rfl)]
    exact served_of_forward (by decide) hhook rfl rfl fun _ _ => iff_of_true ⟨rfl, rfl⟩ trivial
  case access =>
    refine served_of_forward (by decide) (congrFun (hookAccess.eq_1 k) e) rfl rfl
      fun _ _ => ?_
    rw [Sys.Passed, ← intArg_eq_self_iff]
    simp [Sys.Faithful, Sys.arity, abiArgs]
  case getppid =>
    -- The switch has `hook_getpid` here.
    exact served_of_forward (by decide) (congrFun (hookGetpid.eq_1 k) e) rfl rfl fun _ _ =>
      iff_of_false (fun h => absurd h.1 (show ¬ 39 = 110 by decide)) id
  case futex =>
    exact served_of_forward (by decide) (congrFun (hookFutex.eq_1 k) e) rfl rfl fun _ _ =>
      iff_of_false (Sys.not_faithful_of_length (show 3 < 6 by decide) (by decide)) id
  case fadvise64 =>
    exact served_of_forward (by decide) (congrFun (hookFadvise64.eq_1 k) e) rfl rfl fun _ _ =>
      iff_of_false (Sys.not_faithful_of_length (show 2 < 4 by decide) (by decide)) id
  case clone =>
    exact served_of_forward (by decide) (congrFun (hookClone.eq_1 k) e) rfl rfl fun _ _ =>
      iff_of_false (Sys.not_faithful_of_length (show 4 < 5 by decide) (by decide)) id
  case fanotifyMark =>
    exact served_of_forward (by decide) (congrFun (hookFanotifyMark.eq_1 k) e) rfl rfl fun _ _ =>
      iff_of_false (Sys.not_faithful_of_length (show 2 < 5 by decide) (by decide)) id
  case vfork =>
    exact served_of_forward (by decide) (congrFun (hookVfork.eq_1 k) e) rfl rfl
      fun h _ => absurd rfl h
  all_goals
    exact served_of_forward (by decide) (congrFun (show Sys.hook k _ = forward k _ _ from rfl) e)
      rfl rfl fun _ _ => iff_of_true ⟨rfl, rfl⟩ trivial

/-- `hook_brk` asks the kernel for no system call of the guest. -/
theorem hookBrk_requests (k : Kernel) (e : Engine) :
    (Exec.final (hookBrk k e)).requests = e.requests := by
  have hsteps : Exec.Follows (Exec.Kept fun e : Engine => e.requests) (hookBrk k) := by
    have hanswer : ∀ base, Exec.Follows (Exec.Kept fun e : Engine => e.requests) (brkAnswer base) :=
      fun base => .bind (.modify fun _ => rfl) fun _ => .modify fun _ => rfl
    refine .bind ?_ fun _ => .bind (.modify fun _ => rfl) fun _ => .pure _
    unfold brkMove
    refine .bind .get fun e => .ite (.modify fun _ => rfl) (.ite (.throw _) (.ite ?_ (hanswer _)))
    split
    · exact .bind (.modify fun _ => rfl) fun _ => .bind (.modify fun _ => rfl) fun _ _ => rfl
    · exact .bind (.modify fun _ => rfl) fun _ => hanswer _
  exact hsteps e

/-- The hooks that do not forward a call make no request. -/
theorem Sys.hook_silent (k : Kernel) (hf : ¬ s.Forwards e.state) :
    (Exec.final (s.hook k e)).requests = e.requests := by
  cases s
  case brk => exact hookBrk_requests k e
  case exit => rfl
  case exitGroup => rfl
  case close =>
    have hout : e.state.rdi = 1 := by
      by_contra hne
      exact hf ⟨by decide, by decide, by decide, fun _ => hne⟩
    show (Exec.final (hookClose k e)).requests = e.requests
    rw [hookClose, Exec.bind_of_ok (Exec.get_apply e), if_pos hout]
    rfl
  all_goals exact absurd ⟨by decide, by decide, by decide, fun h => by cases h⟩ hf

end Served

/-! ## The two directions -/

section Guest

variable {k : Kernel} {s : Sys} {e : Engine}

theorem Sys.nr_of_ofNr {n : Nat} (h : Sys.ofNr n = some s) : s.nr = n := by
  have hfound := List.find?_some h
  simpa using hfound

/-- The hook of a forwarded call makes one request, and the guest finds the
kernel's answer in `rax` exactly when it is not an error, or is the error number 1
and the call is not `mmap`. -/
theorem getSyscallHook_answer_iff (hs : Sys.ofNr (e.state.rax.setWidth 32).toNat = some s)
    (hf : s.Forwards e.state) :
    ∃ hook req, getSyscallHook k (e.state.rax.setWidth 32) = some hook ∧
      (Exec.final (hook e)).requests = req :: e.requests ∧
      ((∃ e', hook e = .ok 0 e' ∧ e'.state.rax = req.rax) ↔
        isError req.rax = false ∨ req.rax = minusOne ∧ s ≠ .mmap) := by
  obtain ⟨req, hserved⟩ := Sys.hook_served (k := k) hf
  refine ⟨s.hook k, req, ?_, hserved.once, hserved.answer⟩
  rw [getSyscallHook, hs]
  rfl

end Guest

/-- The guest writes three bytes to the standard output. -/
def writeEngine : Engine :=
  { Engine.fresh (codeSpace fun _ => 0) with
    state := { StateRtime.zero with rax := 1, rdi := 1, rsi := 0x404000, rdx := 3 } }

theorem getSyscallHook_answer_write :
    ∃ hook req, getSyscallHook Kernel.code 1 = some hook ∧
      (Exec.final (hook writeEngine)).requests = req :: [] ∧
      ((∃ e', hook writeEngine = .ok 0 e' ∧ e'.state.rax = req.rax) ↔
        isError req.rax = false ∨ req.rax = minusOne ∧ Sys.write ≠ .mmap) :=
  getSyscallHook_answer_iff (k := Kernel.code) (s := .write) (e := writeEngine)
    (by decide) ⟨by decide, by decide, by decide, by decide⟩

/-- A kernel that refuses every call with the error number 2. -/
def Kernel.refusing : Kernel :=
  { Kernel.code with sys := fun _ _ _ m => (BitVec.ofInt 64 (-2), m) }

/-- The error number 2 reaches the guest as the error number 1. -/
theorem hookWrite_refused :
    ∃ e', hookWrite Kernel.refusing writeEngine = .ok 0 e' ∧
      e'.requests = [⟨1, [1, 0x404000, 3], BitVec.ofInt 64 (-2)⟩] ∧
      e'.state.rax = BitVec.ofInt 64 (-1) :=
  ⟨_, rfl, rfl, rfl⟩

section Guest

variable {k : Kernel} {s : Sys} {e : Engine}

/-- The hook of a forwarded call other than `vfork` makes one request, and it is
the guest's own exactly in the cases of `Sys.Passed`. -/
theorem getSyscallHook_request_iff (hs : Sys.ofNr (e.state.rax.setWidth 32).toNat = some s)
    (hf : s.Forwards e.state) (hv : s ≠ .vfork) :
    ∃ hook req, getSyscallHook k (e.state.rax.setWidth 32) = some hook ∧
      (Exec.final (hook e)).requests = req :: e.requests ∧
      (req.nr = (e.state.rax.setWidth 32).toNat ∧
          req.args.take s.arity = (abiArgs e.state).take s.arity ↔
        s.Passed e.state) := by
  obtain ⟨req, hserved⟩ := Sys.hook_served (k := k) hf
  refine ⟨s.hook k, req, ?_, hserved.once, ?_⟩
  · rw [getSyscallHook, hs]
    rfl
  · rw [← Sys.nr_of_ofNr hs]
    exact hserved.arguments hv

end Guest

theorem getSyscallHook_request_write :
    ∃ hook req, getSyscallHook Kernel.code 1 = some hook ∧
      (Exec.final (hook writeEngine)).requests = req :: [] ∧
      (req.nr = 1 ∧ req.args.take 3 = [1, 0x404000, 3] ↔ True) :=
  getSyscallHook_request_iff (k := Kernel.code) (s := .write) (e := writeEngine)
    (by decide) ⟨by decide, by decide, by decide, by decide⟩ (by decide)

/-- The guest maps one anonymous private page.  `rcx` holds what the last system
call left there. -/
def mmapEngine : Engine :=
  { Engine.fresh (codeSpace fun _ => 0) with
    state := { StateRtime.zero with
      rax := 9, rsi := 0x1000, rdx := 3, rcx := 0x401050, r10 := 0x22, r8 := minusOne } }

/-- The kernel is given `rcx` as the flags, and a file descriptor cut to 32 bits. -/
theorem hookMmap_request :
    ∃ e', hookMmap Kernel.code mmapEngine = .ok 0 e' ∧
      e'.requests = [⟨9, [0, 0x1000, 3, 0x401050, 0xffffffff, 0], 0⟩] ∧
      abiArgs mmapEngine.state = [0, 0x1000, 3, 0x22, 0xffffffffffffffff, 0] :=
  ⟨_, rfl, rfl, rfl⟩

end Dryadalis
