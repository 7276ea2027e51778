import Dryadalis.Bases
import Dryadalis.BlockEnds
import Dryadalis.Lifecycle
import Dryadalis.Transparency

/-!
# System calls that the guest runs itself

A system call that `get_syscall_hook` does not know is left to the guest:
`__eval_target` returns the address of the `syscall` itself and sets the global
`curr_syscall`, and the scan of `instrument_request` then steps over the first
instruction of the block and clears the flag.

A flag that is set in one function and cleared in another is only right if nothing
comes between.  `Point` names the places of a dispatch, `Visits` is the set of
states in which a run can be at each of them, and `Visits.flag` says that the flag
is set at one place only: after `_get_bbl_base` has come back with the address of
an unknown `syscall`.

The distance to the next control-flow instruction is an `int`, as for any block, so
the dump hook is put there exactly if it is less than `2 ^ 31` bytes away.
-/

namespace Dryadalis

open ByteMem Exec

/-! ## The flag -/

theorem currSyscall_blind : Blind fun e => e.currSyscall where
  space _ _ := rfl
  hook _ which _ := by cases which <;> rfl
  output _ := rfl
  dtor _ := rfl

section Flag

variable {k : Kernel} {cs : Capstone} {e e' : Engine} {a : Word}

/-- The value of `curr_syscall` that the loop over a buffer ends with. -/
def ScanEnd.flag : ScanEnd → Bool
  | .found _ flag | .ended _ flag => flag

section Loop

variable {buf : Nat → Byte} {addr : Word} {saved : Nat} {r : ScanEnd}

/-- A flag that is not set stays so. -/
theorem scanLoop_clear : ∀ {fuel n size : Nat} {beg : Bool},
    scanLoop cs buf addr saved fuel n size beg false = .ok r → r.flag = false := by
  intro fuel
  induction fuel with
  | zero =>
    intro n size beg h
    cases h
  | succ fuel ih =>
    intro n size beg h
    unfold scanLoop at h
    split at h
    · split at h
      · cases h
        rfl
      · split at h
        · cases h
          rfl
        · exact ih h
    · cases h
      rfl

/-- The loop over a fresh buffer clears the flag, unless it has not got past the first
byte. -/
theorem scanLoop_begin {fuel size : Nat} {flag : Bool}
    (h : scanLoop cs buf addr saved fuel 0 size true flag = .ok r) :
    r = .ended 0 flag ∨ r.flag = false := by
  cases fuel with
  | zero => cases h
  | succ fuel =>
    unfold scanLoop at h
    split at h
    · split at h
      · cases h
        exact Or.inl rfl
      · split at h
        · rename_i hstop
          have hflag : flag = false := by simpa using (Bool.and_eq_true_iff.mp hstop).2
          cases h
          exact Or.inr hflag
        · exact Or.inr (scanLoop_clear h)
    · cases h
      exact Or.inl rfl

end Loop

/-- A scan that ends clears the flag. -/
theorem opcodesCflowAux_flag : ∀ {fuel : Nat} {a : Word} {e e' : Engine} {n : Int},
    opcodesCflowAux k cs fuel a true e = .ok n e' → e'.currSyscall = false := by
  intro fuel
  induction fuel with
  | zero =>
    intro a e e' n h
    cases h
  | succ fuel ih =>
    intro a e e' n h
    rw [opcodesCflowAux, if_neg (by simp)] at h
    obtain ⟨⟨saved, buf⟩, e₁, hread, h⟩ := exists_of_bind_ok h
    simp only at h
    split at h
    · cases h
    · rw [bind_of_ok (get_apply e₁)] at h
      cases hloop : scanLoop cs buf a saved.toNat 4097 0 4096 true e₁.currSyscall with
      | error halt =>
        rw [hloop] at h
        cases h
      | ok r =>
        rw [hloop] at h
        cases r with
        | found n₁ flag =>
          cases h
          rcases scanLoop_begin hloop with hend | hflag
          · cases hend
          · exact hflag
        | ended n₁ flag =>
          simp only at h
          rw [bind_of_ok (modify_apply _ e₁)] at h
          split at h
          · obtain ⟨rest, e₂, hrest, h⟩ := exists_of_bind_ok h
            cases h
            exact ih hrest
          · cases h

/-- `instrument_request` consumes the flag. -/
theorem instrumentRequest_flag {n : Int}
    (h : instrumentRequest k cs (fun base => opcodesCflow k cs base true) a e = .ok n e') :
    e'.currSyscall = false := by
  obtain ⟨off, e₁, hbbl, h⟩ := exists_of_bind_ok h
  obtain ⟨off', e₂, hscan, hbbl⟩ := exists_of_bind_ok hbbl
  have hclear : e₂.currSyscall = false := opcodesCflowAux_flag hscan
  have hbbl' : e₁.currSyscall = e₂.currSyscall := by
    refine Follows.of_ok (R := Kept fun e => e.currSyscall) ?_ hbbl
    refine .when currSyscall_blind.fatalDump fun _ => .bind (.modify fun _ => rfl) fun _ => ?_
    refine .bind (currSyscall_blind.insnLen _) fun _ => .bind (.modify fun _ => rfl) fun _ => ?_
    refine .bind (currSyscall_blind.writeHook _) fun _ => ?_
    exact .when currSyscall_blind.fatalDump fun _ => .pure _
  have hrest : e'.currSyscall = e₁.currSyscall := by
    refine Follows.of_ok (R := Kept fun e => e.currSyscall) ?_ h
    refine .bind (.modify fun _ => rfl) fun _ => .bind (.modify fun _ => rfl) fun _ => ?_
    refine .bind (currSyscall_blind.writeHook _) fun _ => ?_
    exact .when currSyscall_blind.fatalDump fun _ => .pure _
  rw [hrest, hbbl', hclear]

/-! ## The system call case -/

/-- The engine stands at an instruction that is emulated as a system call, with a number
that `get_syscall_hook` does not know. -/
structure AtUnknown (k : Kernel) (cs : Capstone) (e : Engine) (i : Insn) : Prop where
  decodes : cs.decodeAt e.space.byte e.currHook = some i
  lead : i.lead = some .INT
  unknown : getSyscallHook k (e.state.rax.setWidth 32) = none

/-- An unknown system call is left where it is, and only the flag is set. -/
theorem evalSyscall_unknown {i : Insn} (h : getSyscallHook k (e.state.rax.setWidth 32) = none) :
    evalSyscall k i a e = .ok a
      { e with
        currSyscall := true
        trace := .output e.fs e.gs :: .lookup (e.state.rax.setWidth 32) :: e.trace } := by
  rw [evalSyscall, bind_of_ok (get_apply e), bind_of_ok (show emit _ e = .ok () _ from rfl), h]
  rfl

/-- A known one does not touch the flag. -/
theorem evalSyscall_known {i : Insn} {callback : Eng Word}
    (h : getSyscallHook k (e.state.rax.setWidth 32) = some callback) :
    (final (evalSyscall k i a e)).currSyscall = e.currSyscall := by
  have hsteps : HookSteps k (Kept fun e => e.currSyscall) :=
    (hookSteps_kept (g := fun _ => ()) (fun _ _ _ => rfl) fun _ _ _ => rfl).mono
      (congrArg Prod.snd)
  rw [evalSyscall, bind_of_ok (get_apply e), bind_of_ok (show emit _ e = .ok () _ from rfl), h]
  exact hsteps.callback (hsteps.of_getSyscallHook h) i a _ _ _

/-- `__eval_target` sets the flag for an unknown system call only. -/
theorem evalTargetInsn_flag {i : Insn} {base : Word} (hclear : e.currSyscall = false)
    (h : evalTargetInsn k i a e = .ok base e') (hset : e'.currSyscall = true) :
    i.lead = some .INT ∧ getSyscallHook k (e.state.rax.setWidth 32) = none := by
  have hne : (final (evalTargetInsn k i a e)).currSyscall ≠ e.currSyscall := by
    rw [h, final_ok, hset, hclear]
    decide
  have hlead : i.lead = some .INT := by
    by_contra hint
    have hsteps : EvalSteps (Kept fun e => e.currSyscall) :=
      { fatal := currSyscall_blind.fatalDump
        notFound := .modify fun _ => rfl
        operand := .modify fun _ => rfl
        unhandled := fun _ => .modify fun _ => rfl
        push := fun _ => .modify fun _ => rfl
        pop := .modify fun _ => rfl }
    exact hne (hsteps.evalGroups (fun h => absurd h hint) e)
  refine ⟨hlead, ?_⟩
  cases hhook : getSyscallHook k (e.state.rax.setWidth 32) with
  | none => rfl
  | some callback =>
    rw [evalTargetInsn_int hlead] at hne
    exact absurd (evalSyscall_known hhook) hne

/-- `_get_bbl_base` at an unknown system call. -/
theorem AtUnknown.getBblBase {i : Insn} (h : AtUnknown k cs e i) (hne : e.currHook ≠ minusOne)
    (hok : k.Protects e.space e.currHook 16) :
    ∃ space' : Space, space'.byte = e.space.byte ∧ e.space.Opened space' ∧
      getBblBase k cs e = .ok e.currHook
        { e with
          space := space'
          currSyscall := true
          trace := .output e.fs e.gs :: .lookup (e.state.rax.setWidth 32) :: e.trace } := by
  obtain ⟨space', hspace'⟩ : ∃ space', space' = e.space.openAt e.currHook 16 := ⟨_, rfl⟩
  have heval := evalTarget_spec h.decodes hok
  rw [← hspace'] at heval
  have hlead : (i.atAddr 0).lead = some .INT := by
    rw [Insn.atAddr_lead]
    exact h.lead
  have hsys := evalSyscall_unknown (e := { e with space := space' }) (a := e.currHook)
    (i := i.atAddr 0) h.unknown
  rw [evalTargetInsn_int hlead] at heval
  refine ⟨space', by rw [hspace']; rfl, by rw [hspace']; exact e.space.opened_openAt _ _, ?_⟩
  rw [Dryadalis.getBblBase, bind_of_ok (get_apply e), brEmulation, bind_of_ok (heval.trans hsys)]
  simp only [if_neg hne]
  rfl

/-- `_get_bbl_base` comes back with the flag set from an unknown system call only, and
then with its address. -/
theorem getBblBase_flag {base : Word} (hopen : k.Opens e.currHook 0)
    (hclear : e.currSyscall = false) (h : getBblBase k cs e = .ok base e')
    (hset : e'.currSyscall = true) : base = e'.currHook ∧ ∃ i, AtUnknown k cs e' i := by
  rw [Dryadalis.getBblBase, bind_of_ok (get_apply e), brEmulation] at h
  obtain ⟨target, e₁, heval, hrun⟩ := exists_of_bind_ok h
  obtain ⟨space', hbyte, -, hcases⟩ := evalTarget_of_opens cs e hopen
  split at hrun
  · cases hrun
  · rename_i hne
    cases hrun
    rcases hcases with hdead | ⟨i, hi, hinsn⟩
    · cases heval.symm.trans hdead
    · rw [hinsn] at heval
      obtain ⟨hlead, hunknown⟩ :=
        evalTargetInsn_flag (e := { e with space := space' }) hclear heval hset
      rw [evalTargetInsn_int hlead] at heval
      have hsys := (evalSyscall_unknown hunknown).symm.trans heval
      cases hsys
      refine ⟨rfl, i, ?_, ?_, hunknown⟩
      · show cs.decodeAt space'.byte e.currHook = some i
        rw [hbyte, hi]
      · rw [← Insn.atAddr_lead i 0]
        exact hlead

/-- The search for the next block does not move the dump hook. -/
theorem getBblBase_currHook {base : Word} (h : getBblBase k cs e = .ok base e') :
    e'.currHook = e.currHook := by
  have hblind : HookBlind fun e : Engine => e.currHook :=
    { space := fun _ _ => rfl
      hook := fun _ which _ => by cases which <;> rfl
      output := fun _ => rfl
      dtor := fun _ => rfl
      kernel := fun _ _ _ _ _ => rfl
      cached := fun _ _ _ => rfl
      rax := fun _ _ => rfl
      vbrk := fun _ _ => rfl }
  have heval : EvalSteps (Kept fun e : Engine => e.currHook) :=
    { fatal := hblind.fatalDump
      notFound := .modify fun _ => rfl
      operand := .modify fun _ => rfl
      unhandled := fun _ => .modify fun _ => rfl
      push := fun _ => .modify fun _ => rfl
      pop := .modify fun _ => rfl }
  have hinsn : ∀ i a, Follows (Kept fun e : Engine => e.currHook) (evalTargetInsn k i a) :=
    fun i a => heval.evalGroups fun _ =>
      hblind.hookSteps.evalSyscall (fun _ => .modify fun _ => rfl) (.modify fun _ => rfl) i a
  refine Follows.of_ok (R := Kept fun e : Engine => e.currHook) ?_ h
  unfold Dryadalis.getBblBase brEmulation evalTarget
  refine .bind .get fun e => .bind (.bind (hblind.readMem _ _ _) fun r => ?_) fun _ =>
    .when hblind.fatalDump fun _ => .pure _
  refine .ite (.bind (.modify fun _ => rfl) fun _ => .pure _) ?_
  split
  · exact .throw _
  · exact hinsn _ _

end Flag

/-! ## Runs -/

/-- The places of a run: the guest is running, the hooks are down, the next block has
been found, and the hooks are up around it. -/
inductive Point where
  | guest
  | entered
  | target (base : Word)
  | placed
  deriving DecidableEq

/-- The states in which a run of the engine can be at each place.  Between two
dispatches the guest may change its registers, its memory and its bases. -/
inductive Visits (k : Kernel) (cs : Capstone) (entry : Word) (e₀ : Engine) :
    Point → Engine → Prop where
  | start {e} (run : instrument k cs entry e₀ = .ok () e) : Visits k cs entry e₀ .guest e
  | block {e} (c : NativeChange) (prev : Visits k cs entry e₀ .guest e) :
      Visits k cs entry e₀ .guest (c.apply e)
  | enter {e e'} (prev : Visits k cs entry e₀ .guest e)
      (run : (do enterHost k; userCallback; takeDownHooks k : Eng Unit) e = .ok () e') :
      Visits k cs entry e₀ .entered e'
  | target {e e' base} (prev : Visits k cs entry e₀ .entered e)
      (run : getBblBase k cs e = .ok base e') : Visits k cs entry e₀ (.target base) e'
  | place {e e' base} (prev : Visits k cs entry e₀ (.target base) e)
      (run : instrumentAt k cs (fun base => opcodesCflow k cs base true) base e = .ok () e') :
      Visits k cs entry e₀ .placed e'
  | resume {e e'} (prev : Visits k cs entry e₀ .placed e)
      (run : continueExec k e = .ok () e') : Visits k cs entry e₀ .guest e'

section Runs

variable {k : Kernel} {cs : Capstone} {entry : Word} {e₀ e e' : Engine} {p : Point}

/-- A dispatch visits the places in turn. -/
theorem Visits.dispatch (prev : Visits k cs entry e₀ .guest e)
    (run : dispatcher k cs e = .ok () e') : Visits k cs entry e₀ .guest e' := by
  obtain ⟨_, e₁, henter, run⟩ := exists_of_bind_ok run
  obtain ⟨_, e₂, hcallback, run⟩ := exists_of_bind_ok run
  obtain ⟨_, e₅, hmove, hcontinue⟩ := exists_of_bind_ok run
  obtain ⟨_, e₃, hdown, hmove⟩ := exists_of_bind_ok hmove
  obtain ⟨base, e₄, htarget, hplace⟩ := exists_of_bind_ok hmove
  refine .resume (.place (.target (.enter prev ?_) htarget) hplace) hcontinue
  rw [bind_of_ok henter, bind_of_ok hcallback]
  exact hdown

theorem kept_flag {e e' : Engine} (h : Kept Engine.guestPart e e') :
    Kept (fun e => e.currSyscall) e e' := by
  simp only [Kept, Engine.guestPart, Prod.mk.injEq] at h
  exact h.2.1

theorem enter_kept_flag :
    Follows (Kept fun e => e.currSyscall)
      (do enterHost k; userCallback; takeDownHooks k : Eng Unit) := by
  refine .bind (follows_guestPart_enterHost.mono kept_flag) fun _ => ?_
  refine .bind (follows_guestPart_userCallback.mono kept_flag) fun _ => ?_
  exact currSyscall_blind.takeDownHooks

theorem leaveHost_kept_flag : Follows (Kept fun e => e.currSyscall) (leaveHost k) := by
  have hset : ∀ fs gs, Follows (Kept fun e => e.currSyscall) (setFsGs k fs gs) := fun fs gs =>
    (follows_guestPart_setFsGs fs gs).mono kept_flag
  have hsave : Follows (Kept fun e => e.currSyscall) (saveFsGs k) := by
    unfold saveFsGs
    exact .bind .get fun _ => .ite (.pure _) (.pure _)
  unfold leaveHost
  refine .bind hsave fun r => ?_
  split
  · exact currSyscall_blind.fatalDump
  · refine .bind (.modify fun _ => rfl) fun _ => .bind .get fun e => .ite ?_ (.pure _)
    exact .bind (hset _ _) fun _ => .ite currSyscall_blind.fatalDump (.pure _)

theorem instrument_flag (run : instrument k cs entry e₀ = .ok () e) : e.currSyscall = false := by
  rw [instrument, bind_of_ok (modify_apply _ e₀)] at run
  obtain ⟨r, e₁, hrequest, run⟩ := exists_of_bind_ok run
  have hclear : e₁.currSyscall = false := instrumentRequest_flag hrequest
  have hkept : e.currSyscall = e₁.currSyscall := by
    refine Follows.of_ok (R := Kept fun e => e.currSyscall) ?_ run
    refine .when currSyscall_blind.fatalDump fun _ => .bind (.modify fun _ => rfl) fun _ => ?_
    exact leaveHost_kept_flag
  rw [hkept, hclear]

theorem instrumentAt_flag {base : Word}
    (run : instrumentAt k cs (fun base => opcodesCflow k cs base true) base e = .ok () e') :
    e'.currSyscall = false := by
  rw [instrumentAt] at run
  split at run
  · cases run
  · obtain ⟨r, e₁, hrequest, run⟩ := exists_of_bind_ok run
    have hclear : e₁.currSyscall = false := instrumentRequest_flag hrequest
    have hkept : e'.currSyscall = e₁.currSyscall := by
      refine Follows.of_ok (R := Kept fun e => e.currSyscall) ?_ run
      exact .when currSyscall_blind.fatalDump fun _ => .modify fun _ => rfl
    rw [hkept, hclear]

theorem instrumentAt_opens {base : Word}
    (run : instrumentAt k cs (fun base => opcodesCflow k cs base true) base e = .ok () e') :
    k.Opens e'.currHook 0 := by
  rw [instrumentAt] at run
  split at run
  · cases run
  · obtain ⟨r, e₁, hrequest, run⟩ := exists_of_bind_ok run
    obtain ⟨off, e₂, -, -, -, -, hopen⟩ := instrumentRequest_place cs hrequest
    split at run
    · cases run
    · cases run
      exact hopen

/-- In every run the page of the dump hook is one that `mprotect` has accepted. -/
theorem Visits.opens (run : Visits k cs entry e₀ p e) : k.Opens e.currHook 0 := by
  induction run with
  | start run => exact instrument_opens run
  | block c prev ih => exact ih
  | @enter e e' prev run ih =>
    have hkept : e'.currHook = e.currHook := congrArg (·.2.1) (enter_kept.of_ok run)
    rw [hkept]
    exact ih
  | target prev run ih =>
    rw [getBblBase_currHook run]
    exact ih
  | place prev run ih => exact instrumentAt_opens run
  | @resume e e' prev run ih =>
    have hkept : e'.currHook = e.currHook :=
      congrArg (·.2.2.2.2.2) (follows_guestPart_continueExec.of_ok run)
    rw [hkept]
    exact ih

/-- In every run the flag is set between `_get_bbl_base` and `instrument_request` only,
and only when the engine stands at an unknown system call, which is then the block to
go on with. -/
theorem Visits.flag (run : Visits k cs entry e₀ p e) (hset : e.currSyscall = true) :
    p = .target e.currHook ∧ ∃ i, AtUnknown k cs e i := by
  induction run with
  | start run =>
    rw [instrument_flag run] at hset
    cases hset
  | block c prev ih => cases (ih hset).1
  | enter prev run ih =>
    have hkept := enter_kept_flag.of_ok run
    cases (ih (hkept.symm.trans hset)).1
  | target prev run ih =>
    refine (getBblBase_flag prev.opens ?_ run hset).imp_left fun hbase => congrArg _ hbase
    by_contra hprev
    cases (ih (by simpa using hprev)).1
  | place prev run ih =>
    rw [instrumentAt_flag run] at hset
    cases hset
  | resume prev run ih =>
    have hkept := kept_flag (follows_guestPart_continueExec.of_ok run)
    cases (ih (hkept.symm.trans hset)).1

end Runs

/-! ## Where the dump hook is put -/

section Placing

variable {k : Kernel} {cs : Capstone} {e : Engine} {base : Word} {d : Nat}

/-- A distance that does not fit in an `int` becomes another distance. -/
theorem ofInt_bmod_ne (hlong : 2 ^ 31 ≤ d) (hspan : d < 2 ^ 63) :
    base + BitVec.ofInt 64 ((d : Int).bmod (2 ^ 32)) ≠ base + BitVec.ofNat 64 d := by
  intro heq
  have hoff : BitVec.ofInt 64 ((d : Int).bmod (2 ^ 32)) = BitVec.ofInt 64 d := by
    rw [BitVec.ofInt_natCast]
    exact add_left_cancel heq
  have hlt : (d : Int).bmod (2 ^ 32) < 2 ^ 31 := Int.bmod_lt (by decide)
  have hle : -(2 ^ 31) ≤ (d : Int).bmod (2 ^ 32) := Int.le_bmod (by decide)
  have hleft : ((d : Int).bmod (2 ^ 32)).bmod (2 ^ 64) = (d : Int).bmod (2 ^ 32) :=
    Int.bmod_eq_of_le (by omega) (by omega)
  have hright : (d : Int).bmod (2 ^ 64) = d := Int.bmod_eq_of_le (by omega) (by omega)
  have hint := congrArg BitVec.toInt hoff
  rw [BitVec.toInt_ofInt, BitVec.toInt_ofInt, hleft, hright] at hint
  omega

section Places

variable (cs) (hd : FirstCflow cs e.space.byte base e.currSyscall d)

include hd

/-- The dump hook is put at the first control-flow instruction that counts, if that is
less than `2 ^ 31` bytes away. -/
theorem instrumentRequest_places (sized : Sized e.dump e.restore)
    (hbase : e.restore.length < base) (hshort : d < 2 ^ 31)
    (hreads : ScanReads k cs e.space base e.currSyscall)
    (hok : k.ProtectsBlock e.space e.dump.length e.restore.length base d) :
    ∃ e', instrumentRequest k cs (fun base => opcodesCflow k cs base true) base e = .ok 0 e' ∧
      HooksUp k e' e.space.byte ∧ e'.dump.jmp = base + BitVec.ofNat 64 d := by
  have hscan := scansTo_of_reads hd hshort hreads
  obtain ⟨e', hrun, hup, haround, -⟩ := instrumentRequest_spec cs sized.down hscan (by omega)
    hok (sub_ne_zero_of_lt hbase) (block_hooks_disjoint hshort sized.dumpLe sized.restoreLe)
  refine ⟨e', hrun, hup, ?_⟩
  rw [haround.dumpJmp, BitVec.ofInt_natCast]

/-- And nowhere near it otherwise, whatever the pages allow. -/
theorem instrumentRequest_misses (hlong : 2 ^ 31 ≤ d) (hspan : d < 2 ^ 63) :
    ¬ ∃ e', instrumentRequest k cs (fun base => opcodesCflow k cs base true) base e = .ok 0 e' ∧
      e'.dump.jmp = base + BitVec.ofNat 64 d := by
  rintro ⟨e', hrun, hjmp⟩
  obtain ⟨off, e₁, hscan, -, hjmp₁, -⟩ := instrumentRequest_place cs hrun
  rw [opcodesCflow_of_ok hd (by omega) hscan] at hjmp₁
  exact ofInt_bmod_ne hlong hspan (hjmp₁.symm.trans hjmp)

end Places

end Placing

/-- The pages that a dispatch works on when the engine stands at a system call that it does
not know and the first control-flow instruction behind it is `d` bytes away. -/
structure MappedAround (k : Kernel) (cs : Capstone) (e : Engine) (d : Nat) : Prop where
  insn : k.Protects e.space e.currHook 16
  scan : ScanReads k cs e.space e.currHook true
  hooks : k.ProtectsBlock e.space e.dump.length e.restore.length e.currHook d

/-- For every state in which the hooks are down and the engine stands at a system call
that it does not know, whatever code follows: `_get_bbl_base` returns the address of the
system call and leaves the registers alone, and the dump hook is then put at the first
control-flow instruction after it, exactly if that is less than `2 ^ 31` bytes from the
system call.  In every run the flag is set between these two steps only, so the scan of
any other block counts its first instruction. -/
theorem unknown_syscall_native (k : Kernel) (cs : Capstone) :
    (∀ e i d, AtUnknown k cs e i → Sized e.dump e.restore → e.restore.length < e.currHook →
      e.currHook ≠ minusOne → FirstCflow cs e.space.byte (e.currHook + i.len) false d →
      i.size + d < 2 ^ 63 → MappedAround k cs e (i.size + d) →
      ∃ e₁, getBblBase k cs e = .ok e.currHook e₁ ∧ e₁.state = e.state ∧
        ((∃ e₂, instrumentRequest k cs (fun base => opcodesCflow k cs base true) e.currHook e₁ =
              .ok 0 e₂ ∧
            HooksUp k e₂ e.space.byte ∧
            e₂.dump.jmp = e.currHook + i.len + BitVec.ofNat 64 d) ↔
          i.size + d < 2 ^ 31)) ∧
    ∀ entry e₀ p e, Visits k cs entry e₀ p e →
      (e.currSyscall = true → p = .target e.currHook ∧ ∃ i, AtUnknown k cs e i) ∧
      ∀ base d, p = .target base → ¬ (base = e.currHook ∧ ∃ i, AtUnknown k cs e i) →
        FirstCflow cs e.space.byte base false d → d < 2 ^ 31 →
        ScanReads k cs e.space base false →
        ScansTo (fun base => opcodesCflow k cs base true) base e d false := by
  constructor
  · intro e i d hat sized hbase hne hd hspan mapped
    obtain ⟨space', hbyte, hopened, hget⟩ := hat.getBblBase hne mapped.insn
    refine ⟨_, hget, rfl, ?_⟩
    have hnext : FirstCflow cs space'.byte e.currHook true (i.size + d) := by
      rw [hbyte]
      exact .next hat.decodes (Or.inl rfl) hd
    have haddr : e.currHook + i.len + BitVec.ofNat 64 d =
        e.currHook + BitVec.ofNat 64 (i.size + d) := by
      rw [Insn.len, BitVec.add_assoc, ← BitVec.ofNat_add]
    rw [haddr, ← hbyte]
    constructor
    · rintro ⟨e₂, hrun, -, hjmp⟩
      by_contra hlong
      exact instrumentRequest_misses cs
        (e := { e with space := space', currSyscall := true, trace := _ }) hnext
        (by omega) hspan ⟨e₂, hrun, hjmp⟩
    · intro hshort
      exact instrumentRequest_places cs
        (e := { e with space := space', currSyscall := true, trace := _ }) hnext sized hbase
        hshort (mapped.scan.mono hbyte hopened) (mapped.hooks.mono hopened)
  · intro entry e₀ p e run
    refine ⟨fun hset => run.flag hset, fun base d hp hother hd hshort hreads => ?_⟩
    have hclear : e.currSyscall = false := by
      by_contra hset
      obtain ⟨hp', hat⟩ := run.flag (by simpa using hset)
      rw [hp] at hp'
      cases hp'
      exact hother ⟨rfl, hat⟩
    rw [← hclear] at hd hreads
    exact scansTo_of_reads hd hshort hreads

/-! ## A system call and a return -/

/-- `90`, `c3` and `0f 05` -/
def syscallEncodings : Encodings where
  entries := [([0x90], nop), ([0xc3], nearRet), ([0x0f, 0x05], syscallInsn)]
  length_eq := by decide
  size_pos := by decide
  size_le := by decide
  prefixFree := by decide

/-- A `syscall` at `0x100000000`, a `ret` at `j`, and `nop` everywhere else. -/
def syscallMem (j a : Word) : Byte :=
  if a = 0x100000000 then 0x0f else if a = 0x100000001 then 0x05 else if a = j then 0xc3 else 0x90

/-- The engine at the `syscall`, with the number of `getrandom` in `rax`. -/
def syscallEngine (j : Word) : Engine :=
  { shortHooks with
    space := wideSpace (syscallMem j)
    state := { StateRtime.zero with rax := 318 }
    currHook := 0x100000000 }

theorem syscallEngine_atUnknown (j : Word) :
    AtUnknown Kernel.wide syscallEncodings.capstone (syscallEngine j) syscallInsn where
  decodes := by
    apply Encodings.decodeAt_of_mem (x := ([0x0f, 0x05], syscallInsn))
      (List.mem_cons_of_mem _ (List.mem_cons_of_mem _ List.mem_cons_self))
    exact bytesAt_two rfl rfl
  lead := rfl
  unknown := rfl

/-- The first control-flow instruction behind `n` times `nop`. -/
theorem firstCflow_nops {m : Word → Byte} {j : Word} {n : Nat}
    (hnop : ∀ i, 0 < i → i ≤ n → m (j - BitVec.ofNat 64 i) = 0x90) (hret : m j = 0xc3) :
    FirstCflow syscallEncodings.capstone m (j - BitVec.ofNat 64 n) false n := by
  induction n with
  | zero =>
    refine .here (i := nearRet) ?_ rfl
    apply Encodings.decodeAt_of_mem (x := ([0xc3], nearRet))
      (List.mem_cons_of_mem _ List.mem_cons_self)
    simp [bytesAt, window, hret]
  | succ n ih =>
    have hnext : j - BitVec.ofNat 64 (n + 1) + nop.len = j - BitVec.ofNat 64 n := by
      rw [Insn.len, nop]
      bv_omega
    have hdecode : syscallEncodings.capstone.decodeAt m (j - BitVec.ofNat 64 (n + 1)) =
        some nop := by
      apply Encodings.decodeAt_of_mem (x := ([0x90], nop)) List.mem_cons_self
      simp [bytesAt, window, hnop (n + 1) (by omega) (le_refl _)]
    have htail : FirstCflow syscallEncodings.capstone m
        (j - BitVec.ofNat 64 (n + 1) + nop.len) false n := by
      rw [hnext]
      exact ih fun i hpos hi => hnop i hpos (by omega)
    rw [show n + 1 = nop.size + n from Nat.add_comm n 1] at hdecode htail ⊢
    exact .next hdecode (Or.inr rfl) htail

theorem syscallMem_firstCflow {j : Word} {n : Nat} (hj : j = 0x100000002 + BitVec.ofNat 64 n)
    (hn : n < 2 ^ 63) :
    FirstCflow syscallEncodings.capstone (syscallMem j) (0x100000000 + syscallInsn.len) false
      n := by
  have hstart : (0x100000000 : Word) + syscallInsn.len = j - BitVec.ofNat 64 n := by
    rw [hj, Insn.len, syscallInsn]
    bv_omega
  rw [hstart]
  apply firstCflow_nops
  · intro i hpos hi
    rw [syscallMem, if_neg (by bv_omega), if_neg (by bv_omega), if_neg (by bv_omega)]
  · rw [syscallMem, if_neg (by bv_omega), if_neg (by bv_omega), if_pos rfl]

/-- The pages around the `syscall`. -/
theorem syscallEngine_mapped {j : Word} {n : Nat} (hj : j = 0x100000002 + BitVec.ofNat 64 n)
    (hn : n < 2 ^ 32 - 2 ^ 29) :
    MappedAround Kernel.wide syscallEncodings.capstone (syscallEngine j)
      (syscallInsn.size + n) := by
  have haround : Kernel.wide.ProtectsAround (syscallEngine j).space 1 0x100000000
      (syscallInsn.size + n) := by
    apply wide_protectsAround
    · decide
    · show 0x100000000 + (2 + n) < 0x1f0000000
      omega
  have hd : FirstCflow syscallEncodings.capstone (syscallEngine j).space.byte 0x100000000 true
      (syscallInsn.size + n) :=
    .next (syscallEngine_atUnknown j).decodes (Or.inl rfl) (syscallMem_firstCflow hj (by omega))
  exact ⟨fun i hi => haround.scan i (by omega),
    .of_pages hd fun i hi => haround.scan i (Nat.le_of_lt hi),
    haround.block (show (1 : Word).toNat ≤ 64 by decide)⟩

/-- A `ret` right behind the `syscall`. -/
theorem unknown_syscall_native_ret :
    ∃ e₁, getBblBase Kernel.wide syscallEncodings.capstone (syscallEngine 0x100000002) =
        .ok 0x100000000 e₁ ∧ e₁.state = (syscallEngine 0x100000002).state ∧
      ∃ e₂, instrumentRequest Kernel.wide syscallEncodings.capstone
          (fun base => opcodesCflow Kernel.wide syscallEncodings.capstone base true)
          0x100000000 e₁ = .ok 0 e₂ ∧
        HooksUp Kernel.wide e₂ (syscallMem 0x100000002) ∧ e₂.dump.jmp = 0x100000002 := by
  obtain ⟨e₁, hget, hstate, hiff⟩ :=
    (unknown_syscall_native Kernel.wide syscallEncodings.capstone).1
      (syscallEngine 0x100000002) syscallInsn 0 (syscallEngine_atUnknown _) shortHooks_sized
      (by decide) (by decide) (syscallMem_firstCflow rfl (by decide)) (by decide)
      (syscallEngine_mapped rfl (by decide))
  exact ⟨e₁, hget, hstate, hiff.mpr (by decide)⟩

/-- A `ret` that is `2 ^ 31` bytes behind the `syscall`.  No run of `instrument_request`
puts the dump hook there. -/
theorem unknown_syscall_long_sled :
    AtUnknown Kernel.wide syscallEncodings.capstone (syscallEngine 0x180000002) syscallInsn ∧
      FirstCflow syscallEncodings.capstone (syscallMem 0x180000002)
        (0x100000000 + syscallInsn.len) false (2 ^ 31) ∧
      MappedAround Kernel.wide syscallEncodings.capstone (syscallEngine 0x180000002)
        (syscallInsn.size + 2 ^ 31) ∧
      ∃ e₁, getBblBase Kernel.wide syscallEncodings.capstone (syscallEngine 0x180000002) =
          .ok 0x100000000 e₁ ∧
        ¬ ∃ e₂, instrumentRequest Kernel.wide syscallEncodings.capstone
            (fun base => opcodesCflow Kernel.wide syscallEncodings.capstone base true)
            0x100000000 e₁ = .ok 0 e₂ ∧
          e₂.dump.jmp = 0x180000002 := by
  have hat := syscallEngine_atUnknown 0x180000002
  have hd : FirstCflow syscallEncodings.capstone (syscallMem 0x180000002)
      (0x100000000 + syscallInsn.len) false (2 ^ 31) :=
    syscallMem_firstCflow (by decide) (by decide)
  have hmapped : MappedAround Kernel.wide syscallEncodings.capstone (syscallEngine 0x180000002)
      (syscallInsn.size + 2 ^ 31) := syscallEngine_mapped (by decide) (by decide)
  obtain ⟨space', hbyte, -, hget⟩ := hat.getBblBase (by decide) hmapped.insn
  refine ⟨hat, hd, hmapped, _, hget, ?_⟩
  have hnext : FirstCflow syscallEncodings.capstone space'.byte 0x100000000 true
      (syscallInsn.size + 2 ^ 31) := by
    rw [hbyte]
    exact .next hat.decodes (Or.inl rfl) hd
  exact instrumentRequest_misses (k := Kernel.wide) (e := { syscallEngine 0x180000002 with
    space := space', currSyscall := true, trace := _ }) syscallEncodings.capstone hnext
    (by decide) (by decide)

end Dryadalis
