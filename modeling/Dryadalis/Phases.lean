import Dryadalis.BlockEnds
import Dryadalis.Forwarding
import Dryadalis.Lib.Contract
import Dryadalis.WritePages

/-!
# The phases of a dispatch

A dispatch goes through a few phases: it starts while the guest is running, calls
the user handler, takes the hooks down, may look one system call up, makes that
call, finds the next block, puts the hooks up and jumps back.  `Phases` says what a
property of the engine has to do in each phase, in terms of the few steps that are
visible from outside: a line of the log, the callback, the lookup, a request to the
kernel, the destructor and the jump back.  Everything else that the engine writes
leaves the `Engine.record` alone.

`Phases.dispatcher` is the rule that is used for whole dispatches: from the phase in
which the guest runs, a dispatch ends in that phase or stops with `S`.
-/

namespace Dryadalis

open ByteMem Exec

/-! ## What can be seen from outside -/

/-- The registers that neither the emulation nor the move to the next block writes. -/
def StateRtime.rest (s : StateRtime) : StateRtime := { s with rax := 0, rsp := 0, rip := 0 }

/-- What most steps of the engine leave alone: the trace, what was asked of the kernel,
whether there is a callback, the registers but `rax`, `rsp` and `rip`, and the lengths of
the hooks. -/
def Engine.record (e : Engine) :
    List Event × List Request × Bool × StateRtime × Word × Word :=
  (e.trace, e.requests, e.takeCallback, e.state.rest, e.dump.length, e.restore.length)

/-- The hooks have these lengths. -/
def Engine.HasLengths (n : Which → Word) (e : Engine) : Prop :=
  ∀ which, (e.hook which).length = n which

theorem Engine.HasLengths.of_record {n : Which → Word} {e e' : Engine} (h : e.HasLengths n)
    (heq : e'.record = e.record) : e'.HasLengths n := by
  simp only [Engine.record, Prod.mk.injEq] at heq
  obtain ⟨-, -, -, -, hdump, hrestore⟩ := heq
  rintro (_ | _)
  · exact hdump.trans (h .dump)
  · exact hrestore.trans (h .restore)

/-- The engine after a call out of it. -/
def Engine.after (e : Engine) (mk : Word → Word → Event) : Engine :=
  { e with trace := mk e.fs e.gs :: e.trace }

/-- The system calls that are answered without a request to the kernel, or may be. -/
def Sys.silent : Sys → Bool
  | .brk | .exit | .exitGroup | .close => true
  | _ => false

/-- The system calls whose hook makes a request to the kernel, or may make one. -/
def Sys.asks : Sys → Bool
  | .brk | .exit | .exitGroup => false
  | _ => true

/-! ## The steps that can be taken in every phase -/

/-- `P` reads the record only, and a line of the log does not matter to it. -/
structure Logged (P : Engine → Prop) : Prop where
  record : ∀ {e e'}, P e → e'.record = e.record → P e'
  log : ∀ {e}, P e → P (e.after .output)

/-- The engine may also stop with `fatal_dump`. -/
structure Fatal (P : Engine → Prop) (S : Halt → Engine → Prop) : Prop extends Logged P where
  fatal : ∀ {e}, P e → S .fatal (e.after .dtor)

/-- Or it may die at a page that it cannot read or write. -/
structure Stoppable (P : Engine → Prop) (S : Halt → Engine → Prop) : Prop extends Fatal P S where
  crash : ∀ {e}, P e → S .crash e

/-- The lengths of the hooks are fixed, and each is a positive `int` or zero. -/
structure Steady (P : Engine → Prop) (S : Halt → Engine → Prop) : Prop
    extends Stoppable P S where
  lengths : ∃ n : Which → Word, (∀ which, (n which).toNat < 2 ^ 31) ∧
    ∀ {e}, P e → e.HasLengths n

section Logged

variable {k : Kernel} {P : Engine → Prop} {S : Halt → Engine → Prop}

theorem Logged.output (h : Logged P) : Meets P (emit .output) (fun _ => P) S :=
  .modify fun _ => h.log

theorem Logged.modify (h : Logged P) {g : Engine → Engine} (hg : ∀ e, (g e).record = e.record) :
    Meets P (modify g : Eng Unit) (fun _ => P) S :=
  .modify fun _ he => h.record he (hg _)

/-- `set_fs_gs` never returns -1, which most of its callers test for. -/
theorem Logged.setFsGs (h : Logged P) (fs gs : Word) :
    Meets P (setFsGs k fs gs) (fun r e => r ≠ -1 ∧ P e) S := by
  refine .of_run fun e he => ?_
  obtain ⟨r, e', hset, hr, fs', gs', rfl⟩ := setFsGs_total k fs gs e
  exact ⟨r, _, hset, hr, h.record he rfl⟩

/-- A switch of the bases whose failure is tested with -1. -/
theorem Logged.switch {α : Type} (h : Logged P) {Q : α → Engine → Prop} {fs gs : Word}
    {onFail rest : Eng α} (hrest : Meets P rest Q S) :
    Meets P (do if (← Dryadalis.setFsGs k fs gs) = -1 then onFail else rest) Q S := by
  refine .bind (h.setFsGs fs gs) fun r => .of_imp fun hr => ?_
  rw [if_neg hr]
  exact hrest

end Logged

/-- The loop of the scan over one buffer takes fewer rounds than its bound, because every
instruction has a size. -/
theorem scanLoop_error {cs : Capstone} {buf : Nat → Byte} {addr : Word} {saved : Nat} {h : Halt} :
    ∀ {fuel n size : Nat} {beg flag : Bool},
      scanLoop cs buf addr saved fuel n size beg flag = .error h → fuel ≤ size := by
  intro fuel
  induction fuel with
  | zero =>
    intro n size beg flag _
    exact Nat.zero_le size
  | succ fuel ih =>
    intro n size beg flag hloop
    unfold scanLoop at hloop
    split at hloop
    · split at hloop
      · cases hloop
      · rename_i i hi
        split at hloop
        · cases hloop
        · obtain ⟨j, hdecode, rfl⟩ := Option.map_eq_some_iff.mp hi
          have hpos := cs.size_pos hdecode
          have hfits := cs.size_fits hdecode
          rw [List.length_map, List.length_range] at hfits
          have hrest := ih hloop
          rw [Insn.atAddr_size] at hrest
          omega
    · cases hloop

theorem Fatal.fatalDump {P : Engine → Prop} {S : Halt → Engine → Prop} {α : Type}
    (h : Fatal P S) {Q : α → Engine → Prop} : Meets P (fatalDump : Eng α) Q S :=
  .bind h.output fun _ => .bind (.modify fun _ => h.fatal) fun _ => .throw fun _ hS => hS

namespace Stoppable

variable {k : Kernel} {cs : Capstone} {P : Engine → Prop} {S : Halt → Engine → Prop}

theorem readMem (h : Stoppable P S) (buf : Nat → Byte) (src size : Word) :
    Meets P (readMem k buf src size) (fun _ => P) S := by
  refine ⟨fun e he => ?_⟩
  rcases memRead_total k src size ⟨buf, e.space⟩ with
    ⟨r, s', hread, -, -⟩ | ⟨s', i, hread, -, -⟩
  · simp only [Dryadalis.readMem, hread]
    exact .ok (h.record he rfl)
  · simp only [Dryadalis.readMem, hread]
    exact .error (h.crash (h.record he rfl))

theorem insnLen (h : Stoppable P S) (target : Word) :
    Meets P (insnLen k cs target) (fun _ => P) S := by
  unfold Dryadalis.insnLen
  refine .when (fun _ => h.fatalDump) fun _ => .bind (h.readMem _ _ _) fun r => ?_
  obtain ⟨ret, buf⟩ := r
  refine .when (fun _ => h.fatalDump) fun _ => ?_
  split
  · exact .pure fun _ he => he
  · exact .bind h.output fun _ => .pure fun _ he => he

theorem orFatal (h : Stoppable P S) (step : Space → Option Space) :
    Meets P (orFatal step) (fun _ => P) S := by
  unfold Dryadalis.orFatal
  refine .bind .get fun e => ?_
  split
  · exact h.fatalDump
  · exact h.modify fun _ => rfl

/-- The scan for the end of a block, when it is also allowed not to end. -/
theorem opcodesCflowAux (h : Stoppable P S) (hdiv : ∀ e, P e → S .diverge e) (fuel : Nat)
    (addr : Word) (beg : Bool) : Meets P (opcodesCflowAux k cs fuel addr beg) (fun _ => P) S := by
  induction fuel generalizing addr beg with
  | zero => exact .throw hdiv
  | succ fuel ih =>
    unfold Dryadalis.opcodesCflowAux
    refine .ite (fun _ => .pure fun _ he => he) fun _ => .bind (h.readMem _ _ _) fun r => ?_
    obtain ⟨saved, buf⟩ := r
    refine .when (fun _ => h.fatalDump) fun _ => .bind .get fun e => ?_
    split
    · rename_i hloop
      exact absurd (scanLoop_error hloop) (by decide)
    · exact .bind (h.modify fun _ => rfl) fun _ => .pure fun _ he => he
    · refine .bind (h.modify fun _ => rfl) fun _ => .ite (fun _ => ?_) fun _ => h.fatalDump
      exact .bind (ih _ _) fun _ => .pure fun _ he => he

theorem opcodesCflow (h : Stoppable P S) (hdiv : ∀ e, P e → S .diverge e) (addr : Word) :
    Meets P (opcodesCflow k cs addr true) (fun _ => P) S :=
  h.opcodesCflowAux hdiv _ addr true

end Stoppable

namespace Steady

variable {k : Kernel} {cs : Capstone} {P : Engine → Prop} {S : Halt → Engine → Prop}

theorem setHook_record {e : Engine} {which : Which} {hook : Hook}
    (h : hook.length = (e.hook which).length) : (e.setHook which hook).record = e.record := by
  cases which with
  | dump =>
    exact congrArg (fun n => (e.trace, e.requests, e.takeCallback, e.state.rest, n,
      e.restore.length)) h
  | restore =>
    exact congrArg (fun n => (e.trace, e.requests, e.takeCallback, e.state.rest,
      e.dump.length, n)) h

/-- A hook that has the length that it had at another point of the run. -/
theorem setHook (h : Steady P S) {e₀ : Engine} (he₀ : P e₀) (which : Which) {hook : Hook}
    (hlength : hook.length = (e₀.hook which).length) :
    Meets P (modify fun e => e.setHook which hook : Eng Unit) (fun _ => P) S := by
  obtain ⟨n, -, hn⟩ := h.lengths
  refine .modify fun e he => h.record he (setHook_record ?_)
  rw [hlength, hn he₀ which, hn he which]

/-- `mem_write` of as many bytes as a hook has. -/
theorem writeMem (h : Steady P S) {e₀ : Engine} (he₀ : P e₀) (which : Which) (dst : Word)
    (buf : Nat → Byte) :
    Meets P (writeMem k dst buf (e₀.hook which).length) (fun _ => P) S := by
  obtain ⟨n, hshort, hn⟩ := h.lengths
  refine ⟨fun e he => ?_⟩
  have hlen : (e₀.hook which).length.toNat < 2 ^ 31 := by
    rw [hn he₀ which]
    exact hshort which
  obtain ⟨m', -, ⟨r, hwrite⟩ | hwrite⟩ := memWrite_total k e.space dst buf hlen
  · simp only [Dryadalis.writeMem, hwrite]
    exact .ok (h.record he rfl)
  · simp only [Dryadalis.writeMem, hwrite]
    exact .error (h.crash (h.record he rfl))

theorem mapHook (h : Steady P S) (which : Which) :
    Meets P (mapHook k which) (fun _ => P) S := by
  unfold Dryadalis.mapHook
  refine .get_bind fun e he => Meets.pre ?_ fun _ heq => heq ▸ he
  refine .ite (fun _ => ?_) fun _ => .ite (fun _ => ?_) fun _ => ?_
  · exact .bind (h.orFatal _) fun _ => h.setHook he which rfl
  · exact .bind (h.orFatal _) fun _ => h.setHook he which rfl
  · exact .pure fun _ he => he

theorem makeExecutable (h : Steady P S) (addr : Word) :
    Meets P (makeExecutable k addr) (fun _ => P) S := by
  unfold Dryadalis.makeExecutable
  split
  · exact .ite (fun _ => .pure fun _ he => he) fun _ => h.orFatal _
  · exact .pure fun _ he => he

theorem writeHook (h : Steady P S) (which : Which) :
    Meets P (writeHook k which) (fun _ => P) S := by
  unfold Dryadalis.writeHook
  refine .bind (h.mapHook which) fun _ => .get_bind fun e he => Meets.pre ?_ fun _ heq => heq ▸ he
  refine .bind (h.readMem _ _ _) fun r => ?_
  obtain ⟨ret, buf⟩ := r
  refine .bind (h.setHook he which rfl) fun _ => ?_
  refine .when (fun _ => h.fatalDump) fun _ => .bind (h.writeMem he which _ _) fun _ => ?_
  refine .when (fun _ => h.fatalDump) fun _ => .bind (h.makeExecutable _) fun _ => ?_
  exact .pure fun _ he => he

theorem takeDown (h : Steady P S) (which : Which) :
    Meets P (takeDown k which) (fun _ => P) S := by
  have hbytes : Meets P (restoreBytes k which) (fun _ => P) S := by
    unfold restoreBytes
    refine .get_bind fun e he => Meets.pre ?_ fun _ heq => heq ▸ he
    refine .when (fun _ => h.fatalDump) fun _ => .bind (h.writeMem he which _ _) fun _ => ?_
    exact .ite (fun _ => h.fatalDump) fun _ => .pure fun _ he => he
  unfold Dryadalis.takeDown
  refine .bind hbytes fun _ => .bind .get fun e => .when (fun _ => h.orFatal _) fun _ => ?_
  exact h.modify fun e => setHook_record rfl

theorem takeDownHooks (h : Steady P S) : Meets P (takeDownHooks k) (fun _ => P) S := by
  unfold Dryadalis.takeDownHooks
  refine .bind .get fun e => .ite (fun _ => ?_) fun _ => ?_
  · exact .bind (h.takeDown _) fun _ => h.takeDown _
  · exact .bind (h.modify fun _ => rfl) fun _ => h.takeDown _

section Scan

variable {scan : Word → Eng Int} (hscan : ∀ addr, Meets P (scan addr) (fun _ => P) S)

include hscan

theorem instrumentRequest (h : Steady P S) (base : Word) :
    Meets P (instrumentRequest k cs scan base) (fun _ => P) S := by
  have hbbl : Meets P (instrumentBbl k cs scan base) (fun _ => P) S := by
    unfold instrumentBbl
    refine .bind (hscan base) fun _ => .when (fun _ => h.fatalDump) fun _ => ?_
    refine .bind (h.modify fun _ => rfl) fun _ => .bind (h.insnLen _) fun _ => ?_
    refine .bind (h.modify fun _ => rfl) fun _ => .bind (h.writeHook _) fun _ => ?_
    exact .when (fun _ => h.fatalDump) fun _ => .pure fun _ he => he
  unfold Dryadalis.instrumentRequest
  refine .bind hbbl fun _ => .bind (h.modify fun _ => rfl) fun _ => ?_
  refine .bind (h.modify fun _ => rfl) fun _ => .bind (h.writeHook _) fun _ => ?_
  exact .when (fun _ => h.fatalDump) fun _ => .pure fun _ he => he

theorem instrumentAt (h : Steady P S) (base : Word) :
    Meets P (instrumentAt k cs scan base) (fun _ => P) S := by
  unfold Dryadalis.instrumentAt
  refine .when (fun _ => h.fatalDump) fun _ => .bind (h.instrumentRequest hscan base) fun _ => ?_
  exact .when (fun _ => h.fatalDump) fun _ => h.modify fun _ => rfl

end Scan

theorem saveFsGs_meets : Meets P (saveFsGs k) (fun _ => P) S := by
  unfold saveFsGs
  exact .bind .get fun _ => .ite (fun _ => .pure fun _ he => he) fun _ => .pure fun _ he => he

theorem enterHost (h : Steady P S) : Meets P (enterHost k) (fun _ => P) S := by
  unfold Dryadalis.enterHost
  refine .bind saveFsGs_meets fun r => ?_
  split
  · exact h.fatalDump
  · refine .bind (h.modify fun _ => rfl) fun _ => .bind .get fun e => ?_
    exact h.switch (.pure fun _ he => he)

theorem leaveHost (h : Steady P S) : Meets P (leaveHost k) (fun _ => P) S := by
  unfold Dryadalis.leaveHost
  refine .bind saveFsGs_meets fun r => ?_
  split
  · exact h.fatalDump
  · refine .bind (h.modify fun _ => rfl) fun _ => .bind .get fun e => ?_
    exact .ite (fun _ => h.switch (.pure fun _ he => he)) fun _ => .pure fun _ he => he

end Steady

/-! ## The phases -/

/-- What a property has to do in each phase of a dispatch.  `G` holds while the guest runs,
`H` from the callback on, `L s` between the lookup of a system call and its request to the
kernel, `D` after that, and `F` once the emulation has found that it cannot go on.  `S` is
what has to hold where the engine stops. -/
structure Phases (G H : Engine → Prop) (L : Sys → Engine → Prop) (D F : Engine → Prop)
    (S : Halt → Engine → Prop) : Prop where
  guest : Steady G S
  host : Steady H S
  looked : ∀ s, Logged (L s)
  done : Steady D S
  failed : Fatal F S
  callback : ∀ {e}, G e → e.takeCallback = true → H (e.after .callback)
  noCallback : ∀ {e}, G e → e.takeCallback = false → H e
  lookup : ∀ {e n s}, H e → Sys.ofNr n.toNat = some s → L s (e.after fun _ _ => .lookup n)
  unknown : ∀ {e n}, H e → Sys.ofNr n.toNat = none → D (e.after fun _ _ => .lookup n)
  request : ∀ {e s} args rax, s.asks = true → L s e →
    D { e with requests := ⟨s.asked, args, rax⟩ :: e.requests }
  silent : ∀ {e s}, s.silent = true → L s e → D e
  guestExit : ∀ {e}, D e → S .guestExit (e.after .dtor)
  assertion : ∀ {e}, D e → S .assertion e
  targetError : ∀ {e}, H e → F (e.after fun _ _ => .targetError)
  notFound : ∀ {e}, H e → F (e.after .notFoundCflow)
  unhandled : ∀ {e} a, H e → S .exit (e.after (.unhandledInsn a))
  crash : ∀ {e}, H e → S .crash e
  resume : ∀ {e}, H e ∨ D e → G (e.after .resume)

namespace Phases

variable {k : Kernel} {cs : Capstone} {G H : Engine → Prop} {L : Sys → Engine → Prop}
  {D F : Engine → Prop} {S : Halt → Engine → Prop}

/-! ### The system call hooks -/

/-- The request itself.  The kernel answers, and only then is it on the record. -/
theorem syscall (h : Phases G H L D F S) (s : Sys) (hs : s.asks = true) (args : List Word) :
    Meets (L s) (syscall k s.asked args) (fun _ => D) S := by
  have hdone : ∀ {e : Engine} {code addr}, L s e → L s (archPrctlDone code addr e) := by
    intro e code addr he
    refine (h.looked s).record he ?_
    unfold archPrctlDone
    split_ifs <;> rfl
  have hcall : Meets (L s) (kernelCall k s.asked args) (fun _ => D) S := by
    unfold kernelCall
    refine .bind .get fun e => .ite (fun _ => ?_) fun _ => ?_
    · refine .bind (Q := fun _ => L s) ?_ fun raw => ?_
      · refine .bind (Q := fun _ => L s) (.modify fun e he => ?_) fun _ => .pure fun _ he => he
        split
        · exact he
        · exact hdone he
      · exact .bind (.modify fun e he => h.request args raw hs he) fun _ => .pure fun _ he => he
    · refine .bind (.modify fun e' he => ?_) fun _ => .pure fun _ he => he
      exact h.done.record (h.request args _ hs he) rfl
  exact .bind hcall fun _ => .pure fun _ he => he

theorem setRax (h : Phases G H L D F S) (v : Word) :
    Meets D (setRax v) (fun _ => D) S :=
  h.done.modify fun _ => rfl

theorem forward (h : Phases G H L D F S) (s : Sys) (hs : s.asks = true)
    (args : StateRtime → List Word) :
    Meets (L s) (forward k s.asked args) (fun _ => D) S := by
  have hcall : ∀ args, Meets (L s) (doSyscall k s.asked args) (fun _ => D) S := by
    intro args
    unfold doSyscall
    refine .bind .get fun e => (h.looked s).switch ?_
    refine .bind (h.syscall s hs args) fun ret => .bind (h.setRax ret) fun _ => ?_
    refine .bind .get fun e => ?_
    exact h.done.switch (.pure fun _ he => he)
  unfold Dryadalis.forward
  refine .bind .get fun e => .bind (hcall _) fun _ => ?_
  exact .bind h.done.output fun _ => .pure fun _ he => he

theorem brk (h : Phases G H L D F S) :
    Meets (L .brk) (hookBrk k) (fun _ => D) S := by
  have hanswer : ∀ base, Meets D (brkAnswer base) (fun _ => D) S := fun base =>
    .bind (h.setRax _) fun _ => h.done.modify fun _ => rfl
  have hmove : Meets D (brkMove k) (fun _ => D) S := by
    unfold brkMove
    refine .bind .get fun e => .ite (fun _ => h.setRax _) fun _ => ?_
    refine .ite (fun _ => .throw fun _ => h.assertion) fun _ => ?_
    refine .ite (fun _ => ?_) fun _ => hanswer _
    split
    · exact .bind h.done.output fun _ => .bind h.done.output fun _ => h.done.fatalDump
    · exact .bind (h.done.modify fun _ => rfl) fun _ => hanswer _
  refine Meets.pre ?_ fun _ => h.silent rfl
  exact .bind hmove fun _ => .bind h.done.output fun _ => .pure fun _ he => he

theorem archPrctl (h : Phases G H L D F S) :
    Meets (L .archPrctl) (hookArchPrctl k) (fun _ => D) S := by
  have hswitch : ∀ code addr, Meets (L .archPrctl) (archPrctlSwitch code addr)
      (fun _ => L .archPrctl) S := by
    intro code addr
    unfold archPrctlSwitch
    refine .ite (fun _ => (h.looked _).modify fun _ => rfl) fun _ => ?_
    refine .ite (fun _ => (h.looked _).modify fun _ => rfl) fun _ => ?_
    exact .ite (fun _ => (h.looked _).output) fun _ => .pure fun _ he => he
  have hback : ∀ code, Meets D (archPrctlBack k code) (fun _ => D) S := by
    intro code
    unfold archPrctlBack
    refine .bind .get fun e => .ite (fun _ => ?_) fun _ => .pure fun _ he => he
    exact h.done.switch (.pure fun _ he => he)
  unfold hookArchPrctl
  refine .bind .get fun e => .bind (hswitch _ _) fun _ => ?_
  refine .bind (h.syscall .archPrctl rfl _) fun ret => ?_
  refine .bind (hback _) fun _ => .bind (h.setRax _) fun _ => .bind h.done.output fun _ => ?_
  exact .pure fun _ he => he

theorem mmap (h : Phases G H L D F S) :
    Meets (L .mmap) (hookMmap k) (fun _ => D) S := by
  unfold hookMmap
  refine .bind (h.forward .mmap rfl _) fun ret => .bind .get fun e => ?_
  exact .when (fun _ => h.done.fatalDump) fun _ => .pure fun _ he => he

theorem close (h : Phases G H L D F S) :
    Meets (L .close) (hookClose k) (fun _ => D) S := by
  unfold hookClose
  refine .bind .get fun e => .ite (fun _ => ?_) fun _ => h.forward .close rfl _
  refine Meets.pre ?_ fun _ => h.silent rfl
  refine .bind h.done.output fun _ => .bind (h.setRax _) fun _ => ?_
  exact .bind h.done.output fun _ => .pure fun _ he => he

theorem runDtor (h : Phases G H L D F S) {s : Sys} (hs : s.silent = true) :
    Meets (L s) runDtor (fun _ => D) S := by
  refine Meets.pre ?_ fun _ => h.silent hs
  exact .bind h.done.output fun _ => .bind (.modify fun _ => h.guestExit) fun _ =>
    .throw fun _ hS => hS

-- Keeps the unifier from opening the common body when it matches a hook against it.
attribute [local irreducible] Dryadalis.forward

/-- Every hook takes the phase of its lookup to the one after it. -/
theorem hook (h : Phases G H L D F S) (s : Sys) :
    Meets (L s) (s.hook k) (fun _ => D) S := by
  cases s
  case brk => exact h.brk
  case archPrctl => exact h.archPrctl
  case mmap => exact h.mmap
  case close => exact h.close
  case exit => exact h.runDtor rfl
  case exitGroup => exact h.runDtor rfl
  all_goals exact h.forward _ rfl _

/-! ### Branch emulation -/

/-- A number with a hook is looked up, and then its hook runs. -/
theorem evalSyscall (h : Phases G H L D F S) (i : Insn) (a : Word) :
    Meets H (evalSyscall k i a) (fun _ => D) S := by
  unfold Dryadalis.evalSyscall
  refine .bind .get fun e => ?_
  cases hs : Sys.ofNr (e.state.rax.setWidth 32).toNat with
  | none =>
    simp only [getSyscallHook, hs, Option.map_none]
    refine .bind (.modify fun e' he => h.unknown he hs) fun _ => .bind h.done.output fun _ => ?_
    exact .bind (h.done.modify fun _ => rfl) fun _ => .pure fun _ he => he
  | some s =>
    simp only [getSyscallHook, hs, Option.map_some]
    refine .bind (Q := fun _ => L s) (.modify fun e' he => h.lookup he hs) fun _ => ?_
    have hrest : Meets (L s) (do
        let ret ← s.hook k
        let e ← get
        if (← Dryadalis.setFsGs k e.hostFs e.hostGs) ≠ 0 then
          Dryadalis.fatalDump
        if ret ≠ 0 then
          return ret
        return a + i.len : Eng Word) (fun _ => D) S := by
      refine .bind (h.hook s) fun ret => .bind .get fun e => ?_
      refine .bind ((h.done.setFsGs _ _).post fun _ _ he => he.2) fun _ => ?_
      refine .when (fun _ => h.done.fatalDump) fun _ => ?_
      exact .ite (fun _ => .pure fun _ he => he) fun _ => .pure fun _ he => he
    refine .bind (((h.looked s).setFsGs _ _).post fun _ _ he => he.2) fun _ => ?_
    exact .when (fun _ => (h.looked s).output) fun _ => hrest

/-- What the emulation comes back with: an address, or -1 if it cannot go on. -/
def Found (H D F : Engine → Prop) (target : Word) (e : Engine) : Prop :=
  (H e ∨ D e) ∨ F e ∧ target = minusOne

theorem isJmpTaken (h : Phases G H L D F S) (id : InsnId) :
    Meets H (isJmpTaken id) (fun _ => H) S := by
  cases hid : id.listed with
  | true =>
    refine .of_run fun e he => ?_
    obtain ⟨t, ht⟩ := isJmpTaken_listed hid e
    exact ⟨t, e, ht, he⟩
  | false =>
    have hfail : Meets H (do emit .notFoundCflow; Dryadalis.fatalDump : Eng Bool)
        (fun _ => H) S :=
      .bind (.modify fun _ => h.notFound) fun _ => h.failed.fatalDump
    cases id with
    | CALL | RET | SYSCALL | other => exact hfail
    | _ => cases hid

theorem evalOperand (h : Phases G H L D F S) (i : Insn) :
    Meets H (evalOperand i) (Found H D F) S := by
  have hvalue : ∀ v, Meets H (pure v : Eng Word) (Found H D F) S := fun v =>
    .pure fun _ he => Or.inl (Or.inl he)
  have herror : Meets H (do emit fun _ _ => .targetError; return minusOne : Eng Word)
      (Found H D F) S :=
    .bind (.modify fun _ => h.targetError) fun _ => .pure fun _ he => Or.inr ⟨he, rfl⟩
  unfold Dryadalis.evalOperand
  refine .bind .get fun e => ?_
  split
  · exact hvalue _
  · exact hvalue _
  · split
    · exact hvalue _
    · exact herror
  · exact herror

theorem evalTargetInsn (h : Phases G H L D F S) (i : Insn) (a : Word) :
    Meets H (evalTargetInsn k i a) (Found H D F) S := by
  have hjump : Meets H (do
      if ← Dryadalis.isJmpTaken i.id then Dryadalis.evalOperand i else return a + i.len)
      (Found H D F) S :=
    .bind (h.isJmpTaken _) fun _ => .ite (fun _ => h.evalOperand i) fun _ =>
      .pure fun _ he => Or.inl (Or.inl he)
  cases hlead : i.lead with
  | none =>
    refine ⟨fun e he => ?_⟩
    rw [Dryadalis.evalTargetInsn, evalGroups_of_find_none hlead]
    exact .error (h.unhandled a he)
  | some g =>
    rw [evalTargetInsn_of_lead hlead]
    obtain rfl | rfl | rfl | rfl | rfl := Insn.lead_cases hlead
    · exact hjump
    · exact hjump
    · exact .bind (h.host.modify fun _ => rfl) fun _ => h.evalOperand i
    · refine .bind (h.host.modify fun _ => rfl) fun _ => .bind .get fun _ => ?_
      exact .pure fun _ he => Or.inl (Or.inl he)
    · exact (h.evalSyscall i a).post fun _ _ he => Or.inl (Or.inr he)

/-- The next block is found before or after a system call, or the engine stops. -/
theorem getBblBase (h : Phases G H L D F S) :
    Meets H (getBblBase k cs) (fun _ e => H e ∨ D e) S := by
  have htarget : ∀ a, Meets H (evalTarget k cs a) (Found H D F) S := by
    intro a
    unfold evalTarget
    refine .bind (h.host.readMem _ _ _) fun r => ?_
    obtain ⟨ret, buf⟩ := r
    refine .ite (fun _ => ?_) fun _ => ?_
    · exact .bind h.host.output fun _ => .pure fun _ he => Or.inl (Or.inl he)
    · split
      · exact .throw fun _ => h.crash
      · exact h.evalTargetInsn _ a
  have hfatal : ∀ target, Meets (Found H D F target) (Dryadalis.fatalDump : Eng Unit)
      (fun _ e => H e ∨ D e) S := fun target =>
    .or_pre (.or_pre h.host.fatalDump h.done.fatalDump) (h.failed.fatalDump.pre fun _ he => he.1)
  unfold Dryadalis.getBblBase brEmulation
  refine .bind .get fun e => .bind (htarget _) fun target => .ite (fun _ => ?_) fun hne => ?_
  · exact .bind (hfatal target) fun _ => .pure fun _ he => he
  · exact .pure fun _ he => he.resolve_right fun hfailed => hne hfailed.2

/-! ### A whole dispatch -/

theorem userCallback (h : Phases G H L D F S) : Meets G userCallback (fun _ => H) S := by
  unfold Dryadalis.userCallback
  refine .get_bind fun e₀ he₀ => .ite (fun hcall => ?_) fun hcall => ?_
  · exact .modify fun e he => he ▸ h.callback he₀ hcall
  · exact .pure fun e he => he ▸ h.noCallback he₀ (by simpa using hcall)

/-- The dispatch up to the point where both hooks are down. -/
theorem enter (h : Phases G H L D F S) :
    Meets G (do enterHost k; Dryadalis.userCallback; takeDownHooks k : Eng Unit) (fun _ => H) S :=
  .bind h.guest.enterHost fun _ => .bind h.userCallback fun _ => h.host.takeDownHooks

theorem continueExec (h : Phases G H L D F S) :
    Meets (fun e => H e ∨ D e) (continueExec k) (fun _ => G) S := by
  have hresume : ∀ {P : Engine → Prop}, Logged P → (∀ e, P e → H e ∨ D e) →
      Meets P (Dryadalis.continueExec k) (fun _ => G) S := by
    intro P hP hcase
    unfold Dryadalis.continueExec
    refine .bind .get fun e => .bind ((hP.setFsGs _ _).post fun _ _ he => he.2) fun _ => ?_
    exact .when (fun _ => hP.output) fun _ => .modify fun e he => h.resume (hcase e he)
  exact .or_pre (hresume h.host.toLogged fun _ => Or.inl) (hresume h.done.toLogged fun _ => Or.inr)

section Scan

variable (hhost : ∀ a, Meets H (opcodesCflow k cs a true) (fun _ => H) S)
  (hdone : ∀ a, Meets D (opcodesCflow k cs a true) (fun _ => D) S)

include hhost hdone

theorem instrumentAt (h : Phases G H L D F S) (base : Word) :
    Meets (fun e => H e ∨ D e)
      (instrumentAt k cs (fun base => opcodesCflow k cs base true) base)
      (fun _ e => H e ∨ D e) S :=
  .or_pre ((h.host.instrumentAt hhost base).post fun _ _ => Or.inl)
    ((h.done.instrumentAt hdone base).post fun _ _ => Or.inr)

/-- The rule for a whole dispatch. -/
theorem dispatcher (h : Phases G H L D F S) : Meets G (dispatcher k cs) (fun _ => G) S := by
  unfold Dryadalis.dispatcher dispatcherWith moveHooks
  refine .bind h.guest.enterHost fun _ => .bind h.userCallback fun _ => ?_
  refine .bind (.bind h.host.takeDownHooks fun _ => ?_) fun _ => h.continueExec
  exact .bind h.getBblBase fun base => h.instrumentAt hhost hdone base

end Scan

/-- The rule for the start of a run. -/
theorem instrument (h : Phases G H L D F S)
    (hguest : ∀ a, Meets G (opcodesCflow k cs a true) (fun _ => G) S) (entry : Word) :
    Meets (fun e => G { e with takeCallback := true }) (instrument k cs entry) (fun _ => G) S := by
  unfold Dryadalis.instrument
  refine .bind (Q := fun _ => G) (.modify fun _ he => he) fun _ => ?_
  refine .bind (h.guest.instrumentRequest hguest _) fun _ => ?_
  refine .when (fun _ => h.guest.fatalDump) fun _ => .bind (h.guest.modify fun _ => rfl) fun _ => ?_
  exact h.guest.leaveHost

end Phases

end Dryadalis
