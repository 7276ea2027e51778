import Dryadalis.Engine

/-!
# The system call hooks

A guest system call does not run in the guest.  `__eval_target` looks its number
up with `get_syscall_hook` and runs the hook, which makes the call itself through
`do_syscall` and writes the result to the saved `rax`.

Most hooks are one line: the number and the registers to pass.  They are the
family `forward`.  The hooks with a body of their own are

* `hookBrk`, which moves the emulated break and maps the pages;
* `hookArchPrctl`, which keeps the cached guest bases up to date and runs the call
  with the bases that `__eval_target` installed;
* `hookAccess` and `hookMmap`, which narrow some arguments to `int` first;
* `hookExit`, `hookExitGrp` and `hookClose`, which do not always make the call.

A hook writes one line to the log after the call, because `DEBUG` has the bit
`LOG_SYSCALL` set.  The text of the line is not modelled, only the moment.
-/

namespace Dryadalis

open ByteMem

/-! ## System call numbers -/

/-- The system calls that the switch of `get_syscall_hook` names. -/
inductive Sys where
  | brk | archPrctl | access | mmap | writev | exit | exitGroup | openat | fstat | close | read
  | mprotect | pread64 | munmap | setTidAddress | setRobustList | rtSigaction | rtSigprocmask
  | prlimit64 | statfs | stat | getuid | geteuid | getegid | getgid | futex | getpid | gettid
  | tgkill | socket | connect | write | sigaltstack | newfstatat | getppid | ioctl | execve
  | vfork | uname | fcntl | getpgrp | setpgid | getdents64 | statx | lgetxattr | fadvise64
  | readlink | setitimer | readv | lseek | gettimeofday | clone | wait4 | lstat | fanotifyMark
  | msgsnd | seccomp | ioSubmit | time | clockGetres | clockGettime | epollCreate1 | eventfd2
  | pipe2 | getcwd | chdir | umask | mkdir | bind | listen | setsockopt | accept4 | poll | shmat
  | shutdown
  deriving DecidableEq, Repr

/-- The `__NR_` constants of x86-64. -/
def Sys.nr : Sys → Nat
  | .brk => 12
  | .archPrctl => 158
  | .access => 21
  | .mmap => 9
  | .writev => 20
  | .exit => 60
  | .exitGroup => 231
  | .openat => 257
  | .fstat => 5
  | .close => 3
  | .read => 0
  | .mprotect => 10
  | .pread64 => 17
  | .munmap => 11
  | .setTidAddress => 218
  | .setRobustList => 273
  | .rtSigaction => 13
  | .rtSigprocmask => 14
  | .prlimit64 => 302
  | .statfs => 137
  | .stat => 4
  | .getuid => 102
  | .geteuid => 107
  | .getegid => 108
  | .getgid => 104
  | .futex => 202
  | .getpid => 39
  | .gettid => 186
  | .tgkill => 234
  | .socket => 41
  | .connect => 42
  | .write => 1
  | .sigaltstack => 131
  | .newfstatat => 262
  | .getppid => 110
  | .ioctl => 16
  | .execve => 59
  | .vfork => 58
  | .uname => 63
  | .fcntl => 72
  | .getpgrp => 111
  | .setpgid => 109
  | .getdents64 => 217
  | .statx => 332
  | .lgetxattr => 192
  | .fadvise64 => 221
  | .readlink => 89
  | .setitimer => 38
  | .readv => 19
  | .lseek => 8
  | .gettimeofday => 96
  | .clone => 56
  | .wait4 => 61
  | .lstat => 6
  | .fanotifyMark => 301
  | .msgsnd => 69
  | .seccomp => 317
  | .ioSubmit => 209
  | .time => 201
  | .clockGetres => 229
  | .clockGettime => 228
  | .epollCreate1 => 291
  | .eventfd2 => 290
  | .pipe2 => 293
  | .getcwd => 79
  | .chdir => 80
  | .umask => 95
  | .mkdir => 83
  | .bind => 49
  | .listen => 50
  | .setsockopt => 54
  | .accept4 => 288
  | .poll => 7
  | .shmat => 30
  | .shutdown => 48

def NR_fork : Nat := 57

def Sys.all : List Sys :=
  [.brk, .archPrctl, .access, .mmap, .writev, .exit, .exitGroup, .openat, .fstat, .close, .read,
   .mprotect, .pread64, .munmap, .setTidAddress, .setRobustList, .rtSigaction, .rtSigprocmask,
   .prlimit64, .statfs, .stat, .getuid, .geteuid, .getegid, .getgid, .futex, .getpid, .gettid,
   .tgkill, .socket, .connect, .write, .sigaltstack, .newfstatat, .getppid, .ioctl, .execve,
   .vfork, .uname, .fcntl, .getpgrp, .setpgid, .getdents64, .statx, .lgetxattr, .fadvise64,
   .readlink, .setitimer, .readv, .lseek, .gettimeofday, .clone, .wait4, .lstat, .fanotifyMark,
   .msgsnd, .seccomp, .ioSubmit, .time, .clockGetres, .clockGettime, .epollCreate1, .eventfd2,
   .pipe2, .getcwd, .chdir, .umask, .mkdir, .bind, .listen, .setsockopt, .accept4, .poll, .shmat,
   .shutdown]

/-- The system call with a number, when the switch has a case for it. -/
def Sys.ofNr (n : Nat) : Option Sys := Sys.all.find? fun s => s.nr == n

/-! ## The hooks -/

section Hooks

variable (k : Kernel)

/-- Write the saved `rax`. -/
def setRax (v : Word) : Eng Unit :=
  modify fun e => { e with state := { e.state with rax := v } }

@[simp] theorem setRax_apply (v : Word) (e : Engine) :
    setRax v e = .ok () { e with state := { e.state with rax := v } } := rfl

/-- The macro `do_syscall`. -/
def doSyscall (nr : Nat) (args : List Word) : Eng Unit := do
  let e ← get
  if (← setFsGs k e.instrumentedFs e.instrumentedGs) = -1 then
    fatalDump
  let ret ← syscall k nr args
  setRax ret
  let e ← get
  if (← setFsGs k e.hostFs e.hostGs) = -1 then
    fatalDump

/-- The body that most hooks share: pass some registers on and log the call. -/
def forward (nr : Nat) (args : StateRtime → List Word) : Eng Word := do
  let e ← get
  doSyscall k nr (args e.state)
  emit .output
  return 0

/-- An `int` argument in a variadic call: the low half of the word, with the upper
half clear. -/
def intArg (v : Word) : Word := (v.setWidth 32).setWidth 64

/-- The length that `hook_brk` maps, `PAGE_ROUND(_brk_size) + 1` in `uint32_t`. -/
def brkLength (size : BitVec 32) : BitVec 32 := (size &&& ~~~0xfff) + 0xfff + 1

/-- The end of `hook_brk` for a request other than zero: the new break is the
answer. -/
def brkAnswer (base : Word) : Eng Unit := do
  setRax base
  modify fun e => { e with vbrk := base }

/-- The body of `hook_brk`, up to the log line. -/
def brkMove : Eng Unit := do
  let e ← get
  let base := e.vbrk
  let size : BitVec 32 := (e.state.rdi - base).setWidth 32
  if e.state.rdi = 0 then
    setRax base
  else if e.state.rdi ≤ base then
    throw .assertion
  else if PAGE_SZ < size.setWidth 64 + pageOfft base then
    match k.mmapFixed e.space (pageAlign base) ((brkLength size).setWidth 64)
        ⟨true, true, false⟩ with
    | none =>
      emit .output
      emit .output
      fatalDump
    | some m =>
      modify fun e => { e with space := m }
      brkAnswer e.state.rdi
  else
    brkAnswer base

/-- `hook_brk` -/
def hookBrk : Eng Word := do
  brkMove k
  emit .output
  return 0

/-- The codes of `arch_prctl` that the switch of `hook_arch_prctl` names. -/
def archPrctlCodes : List (BitVec 32) :=
  [0x1011, ARCH_GET_FS, ARCH_GET_GS, 0x1012, ARCH_SET_FS, ARCH_SET_GS,
   0x2002, 0x2003, 0x2001, 0x3001]

/-- The switch of `hook_arch_prctl`: keep the cached base of the guest up to date,
before the kernel has been asked. -/
def archPrctlSwitch (code : BitVec 32) (addr : Word) : Eng Unit :=
  if code = ARCH_SET_FS then
    modify fun e => { e with instrumentedFs := addr }
  else if code = ARCH_SET_GS then
    modify fun e => { e with instrumentedGs := addr }
  else if code ∉ archPrctlCodes then
    emit .output
  else
    pure ()

/-- The way back to the bases of the host, only after `ARCH_SET_FS`. -/
def archPrctlBack (code : BitVec 32) : Eng Unit := do
  let e ← get
  if code = ARCH_SET_FS then
    if (← setFsGs k e.hostFs e.hostGs) = -1 then
      throw .exit

/-- `hook_arch_prctl`.  It makes the call with the bases that `__eval_target`
installed. -/
def hookArchPrctl : Eng Word := do
  let e ← get
  let code : BitVec 32 := e.state.rdi.setWidth 32
  let addr := e.state.rsi
  archPrctlSwitch code addr
  let ret ← syscall k Sys.archPrctl.nr [intArg e.state.rdi, addr]
  archPrctlBack k code
  setRax ret
  emit .output
  return 0

/-- `hook_access` -/
def hookAccess : Eng Word := forward k Sys.access.nr fun s => [s.rdi, intArg s.rsi]

/-- The variables of `hook_mmap`, four of which are `int`.  The flags come from
`rcx`. -/
def mmapArgs (s : StateRtime) : List Word :=
  [s.rdi, s.rsi, intArg s.rdx, intArg s.rcx, intArg s.r8, intArg s.r9]

/-- `hook_mmap`.  A failure is fatal. -/
def hookMmap : Eng Word := do
  let ret ← forward k Sys.mmap.nr mmapArgs
  let e ← get
  if e.state.rax = minusOne then
    fatalDump
  return ret

/-- The destructor, which exits. -/
def runDtor : Eng Word := do
  emit .output
  emit .dtor
  throw .guestExit

def hookExit : Eng Word := runDtor

def hookExitGrp : Eng Word := runDtor

/-- `hook_close`: the guest cannot close the standard output. -/
def hookClose : Eng Word := do
  let e ← get
  if e.state.rdi = 1 then
    emit .output
    setRax 0
    emit .output
    return 0
  else
    forward k Sys.close.nr fun s => [s.rdi]

def hookWritev : Eng Word := forward k Sys.writev.nr fun s => [s.rdi, s.rsi, s.rdx]

def hookOpenat : Eng Word := forward k Sys.openat.nr fun s => [s.rdi, s.rsi, s.rdx, s.r10]

def hookFstat : Eng Word := forward k Sys.fstat.nr fun s => [s.rdi, s.rsi]

def hookRead : Eng Word := forward k Sys.read.nr fun s => [s.rdi, s.rsi, s.rdx]

def hookMprotect : Eng Word := forward k Sys.mprotect.nr fun s => [s.rdi, s.rsi, s.rdx]

def hookPread64 : Eng Word := forward k Sys.pread64.nr fun s => [s.rdi, s.rsi, s.rdx, s.r10]

def hookMunmap : Eng Word := forward k Sys.munmap.nr fun s => [s.rdi, s.rsi]

def hookSetTidAddress : Eng Word := forward k Sys.setTidAddress.nr fun s => [s.rdi]

def hookSetRobustList : Eng Word := forward k Sys.setRobustList.nr fun s => [s.rdi, s.rsi]

def hookRtSigaction : Eng Word := forward k Sys.rtSigaction.nr fun s => [s.rdi, s.rsi, s.rdx, s.r10]

def hookRtSigprocmask : Eng Word :=
  forward k Sys.rtSigprocmask.nr fun s => [s.rdi, s.rsi, s.rdx, s.r10]

def hookPrlimit64 : Eng Word := forward k Sys.prlimit64.nr fun s => [s.rdi, s.rsi, s.rdx, s.r10]

def hookStatfs : Eng Word := forward k Sys.statfs.nr fun s => [s.rdi, s.rsi]

def hookStat : Eng Word := forward k Sys.stat.nr fun s => [s.rdi, s.rsi]

def hookGetuid : Eng Word := forward k Sys.getuid.nr fun s => [s.rdi]

def hookGeteuid : Eng Word := forward k Sys.geteuid.nr fun s => [s.rdi]

def hookGetegid : Eng Word := forward k Sys.getegid.nr fun s => [s.rdi]

def hookGetgid : Eng Word := forward k Sys.getgid.nr fun s => [s.rdi]

def hookFutex : Eng Word := forward k Sys.futex.nr fun s => [s.rdi, s.rsi, s.rdx]

def hookGetpid : Eng Word := forward k Sys.getpid.nr fun _ => []

def hookGettid : Eng Word := forward k Sys.gettid.nr fun _ => []

def hookTgkill : Eng Word := forward k Sys.tgkill.nr fun s => [s.rdi, s.rsi, s.rdx]

def hookSocket : Eng Word := forward k Sys.socket.nr fun s => [s.rdi, s.rsi, s.rdx]

def hookConnect : Eng Word := forward k Sys.connect.nr fun s => [s.rdi, s.rsi, s.rdx]

def hookWrite : Eng Word := forward k Sys.write.nr fun s => [s.rdi, s.rsi, s.rdx]

def hookSigaltstack : Eng Word := forward k Sys.sigaltstack.nr fun s => [s.rdi, s.rsi]

def hookNewfstatat : Eng Word :=
  forward k Sys.newfstatat.nr fun s => [s.rdi, s.rsi, s.rdx, s.r10, s.r8]

def hookGetppid : Eng Word := forward k Sys.getppid.nr fun _ => []

def hookIoctl : Eng Word := forward k Sys.ioctl.nr fun s => [s.rdi, s.rsi, s.rdx]

def hookExecve : Eng Word := forward k Sys.execve.nr fun s => [s.rdi, s.rsi, s.rdx]

def hookVfork : Eng Word := forward k NR_fork fun _ => []

def hookUname : Eng Word := forward k Sys.uname.nr fun s => [s.rdi]

def hookFcntl : Eng Word := forward k Sys.fcntl.nr fun s => [s.rdi, s.rsi, s.rdx]

def hookGetpgrp : Eng Word := forward k Sys.getpgrp.nr fun _ => []

def hookSetpgid : Eng Word := forward k Sys.setpgid.nr fun s => [s.rdi, s.rsi]

def hookGetdents64 : Eng Word := forward k Sys.getdents64.nr fun s => [s.rdi, s.rsi, s.rdx]

def hookStatx : Eng Word := forward k Sys.statx.nr fun s => [s.rdi, s.rsi, s.rdx, s.r10, s.r8]

def hookLgetxattr : Eng Word := forward k Sys.lgetxattr.nr fun s => [s.rdi, s.rsi, s.rdx, s.r10]

def hookFadvise64 : Eng Word := forward k Sys.fadvise64.nr fun s => [s.rdi, s.rsi]

def hookReadlink : Eng Word := forward k Sys.readlink.nr fun s => [s.rdi, s.rsi, s.rdx]

def hookSetitimer : Eng Word := forward k Sys.setitimer.nr fun s => [s.rdi, s.rsi, s.rdx]

def hookReadv : Eng Word := forward k Sys.readv.nr fun s => [s.rdi, s.rsi, s.rdx]

def hookLseek : Eng Word := forward k Sys.lseek.nr fun s => [s.rdi, s.rsi, s.rdx]

def hookGettimeofday : Eng Word := forward k Sys.gettimeofday.nr fun s => [s.rdi, s.rsi]

def hookClone : Eng Word := forward k Sys.clone.nr fun s => [s.rdi, s.rsi, s.rdx, s.r10]

def hookWait4 : Eng Word := forward k Sys.wait4.nr fun s => [s.rdi, s.rsi, s.rdx, s.r10]

def hookLstat : Eng Word := forward k Sys.lstat.nr fun s => [s.rdi, s.rsi]

def hookFanotifyMark : Eng Word := forward k Sys.fanotifyMark.nr fun s => [s.rdi, s.rsi]

def hookMsgsnd : Eng Word := forward k Sys.msgsnd.nr fun s => [s.rdi, s.rsi, s.rdx, s.r10]

def hookSeccomp : Eng Word := forward k Sys.seccomp.nr fun s => [s.rdi, s.rsi, s.rdx]

def hookIoSubmit : Eng Word := forward k Sys.ioSubmit.nr fun s => [s.rdi, s.rsi, s.rdx]

def hookTime : Eng Word := forward k Sys.time.nr fun s => [s.rdi]

def hookClockGetres : Eng Word := forward k Sys.clockGetres.nr fun s => [s.rdi, s.rsi]

def hookClockGettime : Eng Word := forward k Sys.clockGettime.nr fun s => [s.rdi, s.rsi]

def hookEpollCreate1 : Eng Word := forward k Sys.epollCreate1.nr fun s => [s.rdi]

def hookEventfd2 : Eng Word := forward k Sys.eventfd2.nr fun s => [s.rdi, s.rsi]

def hookPipe2 : Eng Word := forward k Sys.pipe2.nr fun s => [s.rdi, s.rsi]

def hookGetcwd : Eng Word := forward k Sys.getcwd.nr fun s => [s.rdi, s.rsi]

def hookChdir : Eng Word := forward k Sys.chdir.nr fun s => [s.rdi]

def hookUmask : Eng Word := forward k Sys.umask.nr fun s => [s.rdi]

def hookMkdir : Eng Word := forward k Sys.mkdir.nr fun s => [s.rdi, s.rsi]

def hookBind : Eng Word := forward k Sys.bind.nr fun s => [s.rdi, s.rsi, s.rdx]

def hookListen : Eng Word := forward k Sys.listen.nr fun s => [s.rdi, s.rsi]

def hookSetsockopt : Eng Word :=
  forward k Sys.setsockopt.nr fun s => [s.rdi, s.rsi, s.rdx, s.r10, s.r8]

def hookAccept4 : Eng Word := forward k Sys.accept4.nr fun s => [s.rdi, s.rsi, s.rdx, s.r10]

def hookPoll : Eng Word := forward k Sys.poll.nr fun s => [s.rdi, s.rsi, s.rdx]

def hookShmat : Eng Word := forward k Sys.shmat.nr fun s => [s.rdi, s.rsi, s.rdx]

def hookShutdown : Eng Word := forward k Sys.shutdown.nr fun s => [s.rdi, s.rsi]

/-! ## The switch -/

/-- The switch of `get_syscall_hook`. -/
def Sys.hook : Sys → Eng Word
  | .brk => hookBrk k
  | .archPrctl => hookArchPrctl k
  | .access => hookAccess k
  | .mmap => hookMmap k
  | .writev => hookWritev k
  | .exit => hookExit
  | .exitGroup => hookExitGrp
  | .openat => hookOpenat k
  | .fstat => hookFstat k
  | .close => hookClose k
  | .read => hookRead k
  | .mprotect => hookMprotect k
  | .pread64 => hookPread64 k
  | .munmap => hookMunmap k
  | .setTidAddress => hookSetTidAddress k
  | .setRobustList => hookSetRobustList k
  | .rtSigaction => hookRtSigaction k
  | .rtSigprocmask => hookRtSigprocmask k
  | .prlimit64 => hookPrlimit64 k
  | .statfs => hookStatfs k
  | .stat => hookStat k
  | .getuid => hookGetuid k
  | .geteuid => hookGeteuid k
  | .getegid => hookGetegid k
  | .getgid => hookGetgid k
  | .futex => hookFutex k
  | .getpid => hookGetpid k
  | .gettid => hookGettid k
  | .tgkill => hookTgkill k
  | .socket => hookSocket k
  | .connect => hookConnect k
  | .write => hookWrite k
  | .sigaltstack => hookSigaltstack k
  | .newfstatat => hookNewfstatat k
  | .getppid => hookGetpid k
  | .ioctl => hookIoctl k
  | .execve => hookExecve k
  | .vfork => hookVfork k
  | .uname => hookUname k
  | .fcntl => hookFcntl k
  | .getpgrp => hookGetpgrp k
  | .setpgid => hookSetpgid k
  | .getdents64 => hookGetdents64 k
  | .statx => hookStatx k
  | .lgetxattr => hookLgetxattr k
  | .fadvise64 => hookFadvise64 k
  | .readlink => hookReadlink k
  | .setitimer => hookSetitimer k
  | .readv => hookReadv k
  | .lseek => hookLseek k
  | .gettimeofday => hookGettimeofday k
  | .clone => hookClone k
  | .wait4 => hookWait4 k
  | .lstat => hookLstat k
  | .fanotifyMark => hookFanotifyMark k
  | .msgsnd => hookMsgsnd k
  | .seccomp => hookSeccomp k
  | .ioSubmit => hookIoSubmit k
  | .time => hookTime k
  | .clockGetres => hookClockGetres k
  | .clockGettime => hookClockGettime k
  | .epollCreate1 => hookEpollCreate1 k
  | .eventfd2 => hookEventfd2 k
  | .pipe2 => hookPipe2 k
  | .getcwd => hookGetcwd k
  | .chdir => hookChdir k
  | .umask => hookUmask k
  | .mkdir => hookMkdir k
  | .bind => hookBind k
  | .listen => hookListen k
  | .setsockopt => hookSetsockopt k
  | .accept4 => hookAccept4 k
  | .poll => hookPoll k
  | .shmat => hookShmat k
  | .shutdown => hookShutdown k

/-- `get_syscall_hook`.  The number is the low half of `rax`, an `int`. -/
def getSyscallHook (n : BitVec 32) : Option (Eng Word) := (Sys.ofNr n.toNat).map (Sys.hook k)

end Hooks

end Dryadalis
