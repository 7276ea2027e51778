import Dryadalis.Bases
import Dryadalis.Forwarding

/-!
# Switches of the FS and GS bases that go wrong

`Bases` follows the switches when the kernel accepts them.  This file is about the
other cases, and about code that runs between two switches.

* `set_fs_gs` returns 0 or 1.  Of the places that guard it, only the return of
  `__eval_target` tests for that; the others compare with -1 and go on
  (`Site.guard`).
* `hook_arch_prctl` writes the cached base before it asks the kernel, so a refusal
  leaves the guest with a base it does not have.
* `__eval_target` installs the bases of the guest around a hook.  A hook that makes
  its call with `do_syscall` is back on those of the host when it logs; the others
  log with whatever is installed (`Sys.LogsOnHost`).
-/

namespace Dryadalis

open ByteMem Exec

/-! ## The outcomes of `set_fs_gs` -/

/-- The kernel answers a request for a base with 0 or with an error. -/
def Kernel.Answers (k : Kernel) : Prop :=
  ∀ code a, k.archPrctl code a = 0 ∨ isError (k.archPrctl code a) = true

/-- The kernel refuses one of the two bases. -/
def Kernel.Refuses (k : Kernel) (fs gs : Word) : Prop :=
  isError (k.archPrctl ARCH_SET_FS fs) = true ∨ isError (k.archPrctl ARCH_SET_GS gs) = true

section Outcomes

variable {k : Kernel} {fs gs : Word} {e : Engine}

theorem archPrctl_refused {raw : Word} (h : isError raw = true) :
    ((libcRet raw).setWidth 32).toInt ≠ 0 := by
  rw [libcRet, if_pos h]
  decide

/-- The first request is refused, and the second one is not made. -/
theorem setFsGs_refused_fs (h : isError (k.archPrctl ARCH_SET_FS fs) = true) :
    setFsGs k fs gs e = .ok 1 e := by
  rw [setFsGs, bind_of_ok (archPrctl_setFs k fs e), if_pos h, if_pos (archPrctl_refused h)]
  rfl

/-- The second request is refused. -/
theorem setFsGs_refused_gs (hfs : k.archPrctl ARCH_SET_FS fs = 0)
    (h : isError (k.archPrctl ARCH_SET_GS gs) = true) :
    setFsGs k fs gs e = .ok 1 { e with fs } := by
  rw [setFsGs, bind_of_ok (archPrctl_setFs k fs e), hfs, if_neg (by decide),
    bind_of_ok (archPrctl_setGs k gs _), if_pos (archPrctl_refused h), if_pos h]
  rfl

/-- Then the GS base stays, and the FS base moves if the kernel accepts that. -/
theorem setFsGs_gs_stays (fs : Word) (h : isError (k.archPrctl ARCH_SET_GS gs) = true) :
    ∃ r e', setFsGs k fs gs e = .ok r e' ∧
      e'.bases = (if isError (k.archPrctl ARCH_SET_FS fs) = true then e.fs else fs, e.gs) := by
  rw [setFsGs, bind_of_ok (archPrctl_setFs k fs e)]
  by_cases hfs : isError (k.archPrctl ARCH_SET_FS fs) = true
  · simp only [if_pos hfs, if_pos (archPrctl_refused hfs)]
    exact ⟨1, e, rfl, rfl⟩
  · simp only [if_neg hfs]
    split
    · exact ⟨1, _, rfl, rfl⟩
    · rw [bind_of_ok (archPrctl_setGs k gs _), if_pos (archPrctl_refused h), if_pos h]
      exact ⟨1, _, rfl, rfl⟩

/-- Whatever the kernel answers, a refusal is returned as 1. -/
theorem setFsGs_refused (hk : k.Answers) (h : k.Refuses fs gs) :
    ∃ e', setFsGs k fs gs e = .ok 1 e' := by
  rcases h with h | h
  · exact ⟨e, setFsGs_refused_fs h⟩
  · rcases hk ARCH_SET_FS fs with hfs | hfs
    · exact ⟨_, setFsGs_refused_gs hfs h⟩
    · exact ⟨e, setFsGs_refused_fs hfs⟩

theorem setFsGs_accepted (hk : k.Answers) (h : ¬ k.Refuses fs gs) :
    setFsGs k fs gs e = .ok 0 { e with fs, gs } := by
  rw [Kernel.Refuses, not_or] at h
  exact setFsGs_of_ok ((hk _ _).resolve_right h.1) ((hk _ _).resolve_right h.2)

end Outcomes

/-! ## The places that guard it -/

/-- The calls of `set_fs_gs` with a fatal branch: the two of `do_syscall`, the start of
`_dispatcher`, the end of `instrument`, the one of `hook_arch_prctl`, and the return of
`__eval_target` to the bases of the host. -/
inductive Site where
  | doSyscallGuest
  | doSyscallHost
  | dispatcher
  | instrument
  | hookArchPrctl
  | evalTarget
  deriving DecidableEq, Repr

/-- The call, its test and its fatal branch. -/
def Site.guard (k : Kernel) (fs gs : Word) : Site → Eng Unit
  | .doSyscallGuest | .doSyscallHost | .dispatcher | .instrument => do
    if (← setFsGs k fs gs) = -1 then
      fatalDump
  | .hookArchPrctl => do
    if (← setFsGs k fs gs) = -1 then
      throw .exit
  | .evalTarget => do
    if (← setFsGs k fs gs) ≠ 0 then
      fatalDump

section Guards

variable {k : Kernel}

/-- A test in front of the rest of a function, as a step of its own. -/
theorem guard_bind {α : Type} {p : Int → Prop} [DecidablePred p] (x : Eng Int) (fatal : Eng Unit)
    (f : Unit → Eng α) :
    (x >>= fun r => if p r then fatal >>= f else f ()) =
      (x >>= fun r => if p r then fatal else pure ()) >>= f := by
  rw [bind_assoc]
  refine bind_congr fun r => ?_
  split
  · rfl
  · rfl

theorem doSyscall_guards (nr : Nat) (args : List Word) :
    doSyscall k nr args = (do
      let e ← get
      Site.doSyscallGuest.guard k e.instrumentedFs e.instrumentedGs
      let ret ← syscall k nr args
      setRax ret
      let e ← get
      Site.doSyscallHost.guard k e.hostFs e.hostGs) := by
  unfold doSyscall
  refine bind_congr fun e => ?_
  exact guard_bind _ _ _

theorem enterHost_guards :
    enterHost k = (do
      match ← saveFsGs k with
      | none => fatalDump
      | some (fs, gs) =>
        modify fun e => { e with instrumentedFs := fs, instrumentedGs := gs }
        let e ← get
        Site.dispatcher.guard k e.hostFs e.hostGs) := rfl

theorem leaveHost_guards :
    leaveHost k = (do
      match ← saveFsGs k with
      | none => fatalDump
      | some (fs, gs) =>
        modify fun e => { e with hostFs := fs, hostGs := gs }
        let e ← get
        if e.instrumentedFs ≠ 0 then
          Site.instrument.guard k e.instrumentedFs e.instrumentedGs) := rfl

theorem archPrctlBack_guards (code : BitVec 32) :
    archPrctlBack k code = (do
      let e ← get
      if code = ARCH_SET_FS then
        Site.hookArchPrctl.guard k e.hostFs e.hostGs) := rfl

theorem evalSyscall_guards (i : Insn) (a : Word) :
    evalSyscall k i a = (do
      let e ← get
      emit fun _ _ => .lookup (e.state.rax.setWidth 32)
      match getSyscallHook k (e.state.rax.setWidth 32) with
      | some callback =>
        if (← setFsGs k e.instrumentedFs e.instrumentedGs) ≠ 0 then
          emit .output
        let ret ← callback
        let e ← get
        Site.evalTarget.guard k e.hostFs e.hostGs
        if ret ≠ 0 then
          return ret
        return a + i.len
      | none =>
        emit .output
        modify fun e => { e with currSyscall := true }
        return a) := by
  unfold evalSyscall
  refine bind_congr fun e => bind_congr fun _ => ?_
  cases getSyscallHook k (e.state.rax.setWidth 32) with
  | none => rfl
  | some callback =>
    have hrest : ∀ ret : Word, (do
        let e ← get
        if (← setFsGs k e.hostFs e.hostGs) ≠ 0 then
          fatalDump
        if ret ≠ 0 then
          return ret
        return a + i.len : Eng Word) = (do
        let e ← get
        Site.evalTarget.guard k e.hostFs e.hostGs
        if ret ≠ 0 then
          return ret
        return a + i.len) := by
      intro ret
      refine bind_congr fun e => ?_
      exact guard_bind _ _ _
    simp only [hrest]

/-- What a guard does once `set_fs_gs` has returned. -/
theorem guard_of_ok {fs gs : Word} {e e' : Engine} (site : Site)
    (h : setFsGs k fs gs e = .ok 0 e') : site.guard k fs gs e = .ok () e' := by
  cases site <;> rw [Site.guard, bind_of_ok h] <;> rfl

/-- The test for -1 lets a refusal pass. -/
theorem guard_passes {fs gs : Word} {e e' : Engine} {site : Site} (hsite : site ≠ .evalTarget)
    (h : setFsGs k fs gs e = .ok 1 e') : site.guard k fs gs e = .ok () e' := by
  cases site with
  | evalTarget => exact absurd rfl hsite
  | _ =>
    rw [Site.guard, bind_of_ok h]
    rfl

/-- The test of `__eval_target` does not. -/
theorem guard_stops {fs gs : Word} {e e' : Engine} (h : setFsGs k fs gs e = .ok 1 e') :
    ∃ e'', Site.evalTarget.guard k fs gs e = .error .fatal e'' := by
  rw [Site.guard, bind_of_ok h]
  exact ⟨_, rfl⟩

end Guards

/-- At every place that guards `set_fs_gs`, for every request and every answer of the
kernel: the fatal branch is taken whenever one of the bases was refused, and what goes
on has the bases that were requested, exactly if neither was refused or the place is the
return of `__eval_target`. -/
theorem guard_acts_iff {k : Kernel} (hk : k.Answers) (site : Site) (fs gs : Word) (e : Engine) :
    ((k.Refuses fs gs → ∃ h e', site.guard k fs gs e = .error h e') ∧
        ∀ e', site.guard k fs gs e = .ok () e' → e'.bases = (fs, gs)) ↔
      ¬ k.Refuses fs gs ∨ site = .evalTarget := by
  by_cases hrefuses : k.Refuses fs gs
  · obtain ⟨e₁, hset⟩ := setFsGs_refused (e := e) hk hrefuses
    by_cases hsite : site = .evalTarget
    · subst hsite
      obtain ⟨e₂, hstop⟩ := guard_stops hset
      refine iff_of_true ⟨fun _ => ⟨_, e₂, hstop⟩, fun e' h => ?_⟩ (Or.inr rfl)
      rw [hstop] at h
      cases h
    · refine iff_of_false (fun h => ?_) (by simp [hrefuses, hsite])
      obtain ⟨halt, e', hstop⟩ := h.1 hrefuses
      rw [guard_passes hsite hset] at hstop
      cases hstop
  · have hset := setFsGs_accepted (e := e) hk hrefuses
    refine iff_of_true ⟨fun h => absurd h hrefuses, fun e' h => ?_⟩ (Or.inl hrefuses)
    rw [guard_of_ok site hset] at h
    cases h
    rfl

/-- A kernel that refuses every FS base above the user half and accepts the rest. -/
def Kernel.pickyFs : Kernel :=
  { Kernel.code with
    archPrctl := fun code a =>
      if code = ARCH_SET_FS ∧ 0x800000000000 ≤ a then minusOne else 0 }

theorem pickyFs_answers : Kernel.pickyFs.Answers := by
  intro code a
  by_cases h : code = ARCH_SET_FS ∧ 0x800000000000 ≤ a
  · right
    show isError (if _ then minusOne else 0) = true
    rw [if_pos h]
    decide
  · left
    exact if_neg h

/-- The return of `__eval_target` stops when the FS base is refused. -/
theorem guard_acts_evalTarget :
    ∃ h e', Site.evalTarget.guard Kernel.pickyFs 0x800000000000 0
      (Engine.fresh (codeSpace fun _ => 0)) = .error h e' :=
  ((guard_acts_iff pickyFs_answers .evalTarget 0x800000000000 0 _).mpr (Or.inr rfl)).1
    (Or.inl (by decide))

/-- `do_syscall` goes on when the FS base of the guest is refused, and with another base. -/
theorem guard_ignores_refusal :
    let e := Engine.fresh (codeSpace fun _ => 0)
    Kernel.pickyFs.Answers ∧ Kernel.pickyFs.Refuses 0x800000000000 0 ∧
      ∃ e', Site.doSyscallGuest.guard Kernel.pickyFs 0x800000000000 0 e = .ok () e' ∧
        e'.bases ≠ (0x800000000000, 0) :=
  ⟨pickyFs_answers, Or.inl (by decide), _, rfl, by decide⟩

/-! ## A refused `arch_prctl` -/

/-- The kernel accepts the saved bases of the host. -/
structure Kernel.AcceptsHost (k : Kernel) (e : Engine) : Prop where
  fs : k.archPrctl ARCH_SET_FS e.hostFs = 0
  gs : k.archPrctl ARCH_SET_GS e.hostGs = 0

/-- The cached base that a code names. -/
def Engine.cachedBase (e : Engine) (code : BitVec 32) : Word :=
  if code = ARCH_SET_FS then e.instrumentedFs else e.instrumentedGs

/-- The cached bases with one of them replaced. -/
def Engine.recached (e : Engine) (code : BitVec 32) (addr : Word) : Word × Word :=
  if code = ARCH_SET_FS then (addr, e.instrumentedGs) else (e.instrumentedFs, addr)

/-- The bases that the guest goes on with after a refusal: those of the host, with the
cached FS base if it was the GS base that was refused. -/
def Engine.resumed (k : Kernel) (e : Engine) (code : BitVec 32) : Word × Word :=
  if code = ARCH_SET_FS ∨ isError (k.archPrctl ARCH_SET_FS e.instrumentedFs) = true then e.host
  else (e.instrumentedFs, e.hostGs)

theorem Engine.recached_eq_iff (e : Engine) (code : BitVec 32) (addr : Word) :
    e.recached code addr = e.cached ↔ addr = e.cachedBase code := by
  unfold Engine.recached Engine.cachedBase Engine.cached
  split <;> simp

theorem Engine.recached_congr {e e' : Engine} (h : e'.cached = e.cached) (code : BitVec 32)
    (addr : Word) : e'.recached code addr = e.recached code addr := by
  simp only [Engine.cached, Prod.mk.injEq] at h
  rw [Engine.recached, h.1, h.2]
  rfl

section Refused

variable {k : Kernel} {e : Engine} {code : BitVec 32}

/-- `hook_arch_prctl` writes the cached base that the code names, whatever the kernel
answers. -/
theorem hookArchPrctl_recaches (hcode : code = ARCH_SET_FS ∨ code = ARCH_SET_GS)
    (hrdi : e.state.rdi.setWidth 32 = code) :
    ∃ e', hookArchPrctl k e = .ok 0 e' ∧ e'.cached = e.recached code e.state.rsi ∧
      e'.host = e.host := by
  obtain ⟨e₁, hswitch, -, hhost₁, -, hcached₁⟩ :=
    archPrctlSwitch_spec (e.state.rdi.setWidth 32) e.state.rsi e
  obtain ⟨raw, e₂, hsys, -, -, hhost₂, -, hcached₂⟩ :=
    archPrctl_request (k := k) [intArg e.state.rdi, e.state.rsi] e₁
  have hback : ∃ e₃, archPrctlBack k (e.state.rdi.setWidth 32) e₂ = .ok () e₃ ∧
      e₃.cached = e₂.cached ∧ e₃.host = e₂.host := by
    rw [archPrctlBack, bind_of_ok (get_apply e₂)]
    split
    · obtain ⟨r, e₃, hset, hr, fs', gs', rfl⟩ := setFsGs_total k e₂.hostFs e₂.hostGs e₂
      rw [bind_of_ok hset, if_neg hr]
      exact ⟨_, rfl, rfl, rfl⟩
    · exact ⟨e₂, rfl, rfl, rfl⟩
  obtain ⟨e₃, hback, hcached₃, hhost₃⟩ := hback
  have hcached : e₃.cached = e.recached code e.state.rsi := by
    rw [hcached₃, hcached₂, hcached₁, hrdi]
    rcases hcode with rfl | rfl
    · rfl
    · rfl
  have hrun : hookArchPrctl k e = .ok 0
      { e₃ with
        state := { e₃.state with rax := libcRet raw }
        trace := .output e₃.fs e₃.gs :: e₃.trace } := by
    rw [hookArchPrctl, bind_of_ok (get_apply e), bind_of_ok hswitch, bind_of_ok hsys,
      bind_of_ok hback]
    rfl
  exact ⟨_, hrun, hcached, hhost₃.trans (hhost₂.trans hhost₁)⟩

/-- `__eval_target` at an `arch_prctl` of the guest comes back with the bases of the
host. -/
theorem evalSyscall_archPrctl (i : Insn) (a : Word) (hhost : k.AcceptsHost e)
    (hcode : code = ARCH_SET_FS ∨ code = ARCH_SET_GS)
    (hnr : e.state.rax.setWidth 32 = BitVec.ofNat 32 Sys.archPrctl.nr)
    (hrdi : e.state.rdi.setWidth 32 = code) :
    ∃ e', evalSyscall k i a e = .ok (a + i.len) e' ∧ e'.cached = e.recached code e.state.rsi ∧
      e'.bases = e.host ∧ e'.host = e.host := by
  have hhook : getSyscallHook k (e.state.rax.setWidth 32) = some (hookArchPrctl k) := by
    rw [hnr]
    rfl
  obtain ⟨r, e₁, hset, -, fs', gs', he₁⟩ := setFsGs_total k e.instrumentedFs e.instrumentedGs
    { e with trace := .lookup (e.state.rax.setWidth 32) :: e.trace }
  -- The state in which the hook runs, whether or not the switch was reported.
  have hrest : ∀ e₂ : Engine, e₂.state = e.state → e₂.cached = e.cached → e₂.host = e.host →
      ∃ e', (do
          let ret ← hookArchPrctl k
          let e ← get
          if (← setFsGs k e.hostFs e.hostGs) ≠ 0 then
            fatalDump
          if ret ≠ 0 then
            return ret
          return a + i.len : Eng Word) e₂ = .ok (a + i.len) e' ∧
        e'.cached = e.recached code e.state.rsi ∧ e'.bases = e.host ∧ e'.host = e.host := by
    intro e₂ hstate hcached hhost₂
    obtain ⟨e₃, hrun, hcached₃, hhost₃⟩ := hookArchPrctl_recaches (k := k) hcode
      (show e₂.state.rdi.setWidth 32 = code by rw [hstate]; exact hrdi)
    rw [hstate, Engine.recached_congr hcached] at hcached₃
    have hhost' := hhost₃.trans hhost₂
    simp only [Engine.host, Prod.mk.injEq] at hhost'
    have hset : setFsGs k e₃.hostFs e₃.hostGs e₃ =
        .ok 0 { e₃ with fs := e₃.hostFs, gs := e₃.hostGs } := by
      apply setFsGs_of_ok
      · rw [hhost'.1]
        exact hhost.fs
      · rw [hhost'.2]
        exact hhost.gs
    refine ⟨{ e₃ with fs := e₃.hostFs, gs := e₃.hostGs }, ?_, hcached₃, hhost₃.trans hhost₂,
      hhost₃.trans hhost₂⟩
    rw [bind_of_ok hrun, bind_of_ok (get_apply e₃), bind_of_ok hset]
    rfl
  rw [evalSyscall, bind_of_ok (get_apply e), bind_of_ok (show emit _ e = .ok () _ from rfl), hhook]
  simp only
  rw [bind_of_ok hset, he₁]
  split
  · exact hrest _ rfl rfl rfl
  · exact hrest _ rfl rfl rfl

/-- `continue_exec` after a refusal, from the bases of the host. -/
theorem continueExec_refused (hcode : code = ARCH_SET_FS ∨ code = ARCH_SET_GS) {addr : Word}
    (hrefused : isError (k.archPrctl code addr) = true) {e₂ : Engine}
    (hcached : e₂.cached = e.recached code addr) (hbases : e₂.bases = e.host) :
    ∃ e₃, continueExec k e₂ = .ok () e₃ ∧ e₃.bases = e.resumed k code := by
  have hset : ∃ r e', setFsGs k e₂.instrumentedFs e₂.instrumentedGs e₂ = .ok r e' ∧
      e'.bases = e.resumed k code := by
    rw [Engine.resumed]
    rcases hcode with rfl | rfl
    · simp only [Engine.cached, Engine.recached, if_true, Prod.mk.injEq] at hcached
      rw [if_pos (Or.inl rfl), hcached.1]
      exact ⟨1, e₂, setFsGs_refused_fs hrefused, hbases⟩
    · have hne : ARCH_SET_GS ≠ ARCH_SET_FS := by decide
      simp only [Engine.cached, Engine.recached, if_neg hne, Prod.mk.injEq] at hcached
      rw [hcached.1, hcached.2]
      obtain ⟨r, e', hset, hbases'⟩ := setFsGs_gs_stays (e := e₂) e.instrumentedFs hrefused
      simp only [Engine.bases, Engine.host, Prod.mk.injEq] at hbases
      refine ⟨r, e', hset, ?_⟩
      rw [hbases', hbases.1, hbases.2, Engine.host]
      by_cases hfs : isError (k.archPrctl ARCH_SET_FS e.instrumentedFs) = true
      · rw [if_pos hfs, if_pos (Or.inr hfs)]
      · rw [if_neg hfs, if_neg (not_or.mpr ⟨hne, hfs⟩)]
  obtain ⟨r, e', hset, hbases'⟩ := hset
  rw [continueExec, bind_of_ok (get_apply e₂), bind_of_ok hset]
  split
  · exact ⟨_, rfl, hbases'⟩
  · exact ⟨_, rfl, hbases'⟩

/-- The bases that stay in force after a refusal are not those of the guest: one of them
is a base of the host, which the kernel accepts. -/
theorem Kernel.AcceptsHost.resumed_ne (hhost : k.AcceptsHost e)
    (hcode : code = ARCH_SET_FS ∨ code = ARCH_SET_GS)
    (hrefused : isError (k.archPrctl code (e.cachedBase code)) = true) :
    e.resumed k code ≠ e.cached := by
  intro hstay
  rcases hcode with rfl | rfl
  · rw [Engine.resumed, if_pos (Or.inl rfl)] at hstay
    have hfs : e.hostFs = e.instrumentedFs := congrArg Prod.fst hstay
    rw [Engine.cachedBase, if_pos rfl, ← hfs, hhost.fs] at hrefused
    cases hrefused
  · have hgs : e.hostGs = e.instrumentedGs := by
      rw [Engine.resumed] at hstay
      split at hstay
      · exact congrArg Prod.snd hstay
      · exact congrArg Prod.snd hstay
    rw [Engine.cachedBase, if_neg (by decide), ← hgs, hhost.gs] at hrefused
    cases hrefused

end Refused

/-- For every state and every request of the guest for a base that the kernel refuses,
followed through `hook_arch_prctl`, `__eval_target` and `continue_exec`: the cached
bases are unchanged only if the guest asked for the base that was cached already, and it
is never so that they are unchanged and the guest goes on with them. -/
theorem archPrctl_refused_changes {k : Kernel} {e : Engine} {code : BitVec 32} (i : Insn)
    (a : Word) (hnr : e.state.rax.setWidth 32 = BitVec.ofNat 32 Sys.archPrctl.nr)
    (hrdi : e.state.rdi.setWidth 32 = code) (hcode : code = ARCH_SET_FS ∨ code = ARCH_SET_GS)
    (hrefused : isError (k.archPrctl code e.state.rsi) = true) (hhost : k.AcceptsHost e) :
    ∃ e₁, evalSyscall k i a e = .ok (a + i.len) e₁ ∧
      (e₁.cached = e.cached ↔ e.state.rsi = e.cachedBase code) ∧
      ¬ (e₁.cached = e.cached ∧
        ∀ e₂ e₃, Quiet e₁ e₂ → continueExec k e₂ = .ok () e₃ → e₃.bases = e.cached) := by
  obtain ⟨e₁, hrun, hcached, hbases, -⟩ := evalSyscall_archPrctl i a hhost hcode hnr hrdi
  refine ⟨e₁, hrun, ?_, ?_⟩
  · rw [hcached]
    exact e.recached_eq_iff code e.state.rsi
  · rintro ⟨hsame, hgoes⟩
    obtain ⟨e₃, hcontinue, hres⟩ := continueExec_refused hcode hrefused hcached hbases
    have hstay : e.resumed k code = e.cached :=
      hres.symm.trans (hgoes e₁ e₃ (refl_of Quiet e₁) hcontinue)
    have haddr : e.state.rsi = e.cachedBase code :=
      (e.recached_eq_iff code e.state.rsi).mp (hcached.symm.trans hsame)
    exact hhost.resumed_ne hcode (haddr ▸ hrefused) hstay

/-- The guest has the FS base `0x7000`, the host `0x1000`, and the guest asks for an FS
base of the kernel's half. -/
def refusedEngine : Engine :=
  { Engine.fresh (codeSpace fun _ => 0) with
    state := { StateRtime.zero with rax := 158, rdi := 0x1002, rsi := 0xffff800000000000 }
    hostFs := 0x1000
    instrumentedFs := 0x7000
    fs := 0x1000 }

theorem archPrctl_refused_refusedEngine :
    ∃ e₁, evalSyscall Kernel.pickyFs syscallInsn 0x401000 refusedEngine = .ok 0x401002 e₁ ∧
      e₁.cached ≠ refusedEngine.cached := by
  obtain ⟨e₁, hrun, hiff, -⟩ := archPrctl_refused_changes (k := Kernel.pickyFs)
    (e := refusedEngine) syscallInsn 0x401000 rfl rfl (Or.inl rfl) (by decide)
    ⟨by decide, by decide⟩
  exact ⟨e₁, hrun, fun hsame => absurd (hiff.mp hsame) (by decide)⟩

/-- The cached FS base is the refused one, and the guest goes on with the base of the
host. -/
theorem archPrctl_refused_loses_base :
    ∃ e₁ e₂, evalSyscall Kernel.pickyFs syscallInsn 0x401000 refusedEngine = .ok 0x401002 e₁ ∧
      isError (Kernel.pickyFs.archPrctl ARCH_SET_FS refusedEngine.state.rsi) = true ∧
      e₁.cached = (0xffff800000000000, 0) ∧ e₁.cached ≠ refusedEngine.cached ∧
      continueExec Kernel.pickyFs e₁ = .ok () e₂ ∧ e₂.bases = (0x1000, 0) ∧
      e₂.bases ≠ refusedEngine.cached :=
  ⟨_, _, rfl, by decide, rfl, by decide, rfl, rfl, by decide⟩

/-! ## What a hook logs on -/

/-- The bases that a call of the C library ran with. -/
def Event.library : Event → Option (Word × Word)
  | .output fs gs | .dtor fs gs => some (fs, gs)
  | _ => none

/-- From `e`, the program calls the C library with the bases of the host only.  One that
stops does so in an exit routine or in a failed assertion, which also prints. -/
structure OnHost {α : Type} (x : Eng α) (e : Engine) : Prop where
  calls : ∃ new, (final (x e)).trace = new ++ e.trace ∧
    ∀ b ∈ new.filterMap Event.library, b = e.host
  stops : ∀ h e', x e = .error h e' → e'.bases = e.host

/-- When a hook calls the C library on the bases of the host, with those of the guest
installed around it.  `do_syscall` switches back by itself, so it is no condition for the
hooks that make their call with it. -/
def Sys.LogsOnHost (k : Kernel) (e : Engine) : Sys → Prop
  | .brk | .exit | .exitGroup => e.cached = e.host
  | .close => e.state.rdi = 1 → e.cached = e.host
  | .archPrctl =>
    let code : BitVec 32 := e.state.rdi.setWidth 32
    code = ARCH_SET_FS ∨
      (if code = ARCH_SET_GS ∧ isError (k.archPrctl code e.state.rsi) = false then
        (e.instrumentedFs, e.state.rsi) else e.cached) = e.host
  | _ => True

section Logs

variable {k : Kernel} {e : Engine}

theorem onHost_congr {α : Type} {x y : Eng α} (h : x e = y e) : OnHost x e ↔ OnHost y e := by
  constructor
  · intro hx
    exact ⟨h ▸ hx.calls, h ▸ hx.stops⟩
  · intro hy
    exact ⟨h ▸ hy.calls, h ▸ hy.stops⟩

/-- A run that adds one known list of events. -/
theorem onHost_iff_of_ok {α : Type} {x : Eng α} {a : α} {e' : Engine} {new : List Event}
    (hrun : x e = .ok a e') (htrace : e'.trace = new ++ e.trace) :
    OnHost x e ↔ ∀ b ∈ new.filterMap Event.library, b = e.host := by
  constructor
  · intro h
    obtain ⟨new', hnew, hall⟩ := h.calls
    rw [hrun, final_ok, htrace] at hnew
    rw [List.append_cancel_right hnew]
    exact hall
  · intro h
    refine ⟨⟨new, ?_, h⟩, fun halt e'' hstop => ?_⟩
    · rw [hrun]
      exact htrace
    · rw [hrun] at hstop
      cases hstop

/-- A run that stops in the library. -/
theorem onHost_iff_of_error {α : Type} {x : Eng α} {halt : Halt} {e' : Engine} {new : List Event}
    (hrun : x e = .error halt e') (htrace : e'.trace = new ++ e.trace)
    (hnew : ∀ b ∈ new.filterMap Event.library, b = e'.bases) :
    OnHost x e ↔ e'.bases = e.host := by
  constructor
  · intro h
    exact h.stops halt e' hrun
  · intro h
    refine ⟨⟨new, ?_, fun b hb => (hnew b hb).trans h⟩, fun halt' e'' hstop => ?_⟩
    · rw [hrun]
      exact htrace
    · rw [hrun] at hstop
      cases hstop
      exact h

/-- The bases stay, and the C library is called with them only. -/
structure Plain (e e' : Engine) : Prop where
  bases : e'.bases = e.bases
  host : e'.host = e.host
  calls : ∃ new, e'.trace = new ++ e.trace ∧ ∀ b ∈ new.filterMap Event.library, b = e.bases

instance : IsPreorder Engine Plain where
  refl _ := ⟨rfl, rfl, [], rfl, fun _ hb => by cases hb⟩
  trans e e₁ e₂ h h' := by
    obtain ⟨new, htrace, hnew⟩ := h.calls
    obtain ⟨new', htrace', hnew'⟩ := h'.calls
    refine ⟨h'.bases.trans h.bases, h'.host.trans h.host, new' ++ new, ?_, fun b hb => ?_⟩
    · rw [htrace', htrace, List.append_assoc]
    · rw [List.filterMap_append, List.mem_append] at hb
      rcases hb with hb | hb
      · exact (hnew' b hb).trans h.bases
      · exact hnew b hb

theorem plain_output : Follows Plain (emit .output) :=
  .modify fun e => ⟨rfl, rfl, [.output e.fs e.gs], rfl,
    fun b hb => by simpa [Event.library, Engine.bases] using hb⟩

theorem plain_dtor : Follows Plain (emit .dtor) :=
  .modify fun e => ⟨rfl, rfl, [.dtor e.fs e.gs], rfl,
    fun b hb => by simpa [Event.library, Engine.bases] using hb⟩

theorem plain_fatalDump {α : Type} : Follows Plain (fatalDump : Eng α) :=
  .bind plain_output fun _ => .bind plain_dtor fun _ => .throw _

theorem plain_modify {g : Engine → Engine}
    (h : ∀ e, ((g e).bases, (g e).host, (g e).trace) = (e.bases, e.host, e.trace)) :
    Follows Plain (modify g : Eng Unit) := by
  refine .modify fun e => ?_
  have he := h e
  simp only [Prod.mk.injEq] at he
  exact ⟨he.1, he.2.1, [], he.2.2, fun _ hb => by cases hb⟩

theorem plain_brkMove : Follows Plain (brkMove k) := by
  have hdone : ∀ base, Follows Plain (brkAnswer base) := fun base =>
    .bind (plain_modify fun _ => rfl) fun _ => plain_modify fun _ => rfl
  unfold brkMove
  refine .bind .get fun e => .ite (plain_modify fun _ => rfl) (.ite (.throw _) (.ite ?_ (hdone _)))
  split
  · exact .bind plain_output fun _ => .bind plain_output fun _ => plain_fatalDump
  · exact .bind (plain_modify fun _ => rfl) fun _ => hdone _

/-- A body that does not switch the bases, and the log line at its end. -/
theorem onHost_plain_iff {x : Eng Unit} (hplain : Follows Plain x) (e : Engine) :
    OnHost (do x; emit .output; return 0 : Eng Word) e ↔ e.bases = e.host := by
  have hx := hplain e
  cases hrun : x e with
  | ok u e₁ =>
    rw [hrun, final_ok] at hx
    obtain ⟨new, htrace, hnew⟩ := hx.calls
    have hdone : (do x; emit .output; return 0 : Eng Word) e =
        .ok 0 { e₁ with trace := .output e₁.fs e₁.gs :: e₁.trace } := by
      rw [bind_of_ok hrun]
      rfl
    have hlogged : .output e₁.fs e₁.gs :: e₁.trace = (.output e₁.fs e₁.gs :: new) ++ e.trace := by
      rw [htrace, List.cons_append]
    rw [onHost_iff_of_ok hdone hlogged]
    constructor
    · intro h
      exact hx.bases.symm.trans (h _ List.mem_cons_self)
    · intro h b hb
      rcases List.mem_cons.mp hb with rfl | hb
      · exact hx.bases.trans h
      · exact (hnew b hb).trans h
  | error halt e₁ =>
    rw [hrun, final_error] at hx
    obtain ⟨new, htrace, hnew⟩ := hx.calls
    rw [onHost_iff_of_error (bind_of_error hrun) htrace fun b hb =>
      (hnew b hb).trans hx.bases.symm, hx.bases]

/-- The destructor. -/
theorem onHost_runDtor_iff (e : Engine) : OnHost runDtor e ↔ e.bases = e.host := by
  have hrun : runDtor e = .error .guestExit
      { e with trace := [.dtor e.fs e.gs, .output e.fs e.gs] ++ e.trace } := rfl
  have hiff := onHost_iff_of_error hrun rfl fun b hb => by
    simpa [Event.library, Engine.bases] using hb
  exact hiff

/-- `do_syscall` ends on the bases of the host, and logs nothing. -/
theorem doSyscall_logs (hhost : k.AcceptsHost e) (nr : Nat) (args : List Word) :
    ∃ e', doSyscall k nr args e = .ok () e' ∧ e'.trace = e.trace ∧ e'.bases = e.host ∧
      e'.host = e.host := by
  obtain ⟨r, e₁, hset, hr, fs', gs', he₁⟩ := setFsGs_total k e.instrumentedFs e.instrumentedGs e
  obtain ⟨raw, e₂, hcall, -⟩ := syscall_total k nr args e₁
  have hkept := (syscall_kept (k := k) (f := fun e => (e.trace, e.hostFs, e.hostGs))
    (fun _ _ _ _ _ => rfl) nr args).of_ok hcall
  simp only [Kept, he₁, Prod.mk.injEq] at hkept
  obtain ⟨htrace, hfs, hgs⟩ := hkept
  refine ⟨{ e₂ with
    state := { e₂.state with rax := libcRet raw }
    fs := e₂.hostFs
    gs := e₂.hostGs }, ?_, htrace, congrArg₂ Prod.mk hfs hgs, congrArg₂ Prod.mk hfs hgs⟩
  have hback : setFsGs k e₂.hostFs e₂.hostGs
      { e₂ with state := { e₂.state with rax := libcRet raw } } = .ok 0
      { e₂ with
        state := { e₂.state with rax := libcRet raw }
        fs := e₂.hostFs
        gs := e₂.hostGs } := by
    apply setFsGs_of_ok
    · rw [hfs]
      exact hhost.fs
    · rw [hgs]
      exact hhost.gs
  rw [doSyscall, bind_of_ok (get_apply e), bind_of_ok hset]
  simp only [if_neg hr]
  rw [bind_of_ok hcall, bind_of_ok (setRax_apply _ _), bind_of_ok (get_apply _), bind_of_ok hback]
  rfl

/-- The hooks of the family log once, on the bases of the host. -/
theorem forward_logs (hhost : k.AcceptsHost e) (nr : Nat) (args : StateRtime → List Word) :
    ∃ e', forward k nr args e = .ok 0 e' ∧
      e'.trace = [.output e.hostFs e.hostGs] ++ e.trace ∧ e'.bases = e.host := by
  obtain ⟨e', hrun, htrace, hbases, -⟩ := doSyscall_logs hhost nr (args e.state)
  have hpair := hbases
  simp only [Engine.bases, Engine.host, Prod.mk.injEq] at hpair
  refine ⟨{ e' with trace := .output e'.fs e'.gs :: e'.trace }, ?_, ?_, hbases⟩
  · rw [forward, bind_of_ok (get_apply e), bind_of_ok hrun]
    rfl
  · rw [htrace, hpair.1, hpair.2]
    rfl

theorem onHost_forward (hhost : k.AcceptsHost e) (nr : Nat) (args : StateRtime → List Word) :
    OnHost (forward k nr args) e := by
  obtain ⟨e', hrun, htrace, -⟩ := forward_logs hhost nr args
  refine (onHost_iff_of_ok hrun htrace).mpr fun b hb => ?_
  simpa [Event.library, Engine.host] using hb

theorem onHost_mmap (hhost : k.AcceptsHost e) : OnHost (hookMmap k) e := by
  obtain ⟨e', hrun, htrace, hbases⟩ := forward_logs hhost Sys.mmap.nr mmapArgs
  have hpair := hbases
  simp only [Engine.bases, Engine.host, Prod.mk.injEq] at hpair
  by_cases hrax : e'.state.rax = minusOne
  · have hstop : hookMmap k e = .error .fatal
        { e' with trace := .dtor e'.fs e'.gs :: .output e'.fs e'.gs :: e'.trace } := by
      rw [hookMmap, bind_of_ok hrun, bind_of_ok (get_apply e'), if_pos hrax]
      rfl
    have hlogged : .dtor e'.fs e'.gs :: .output e'.fs e'.gs :: e'.trace =
        [.dtor e'.fs e'.gs, .output e'.fs e'.gs, .output e.hostFs e.hostGs] ++ e.trace := by
      rw [htrace]
      rfl
    refine (onHost_iff_of_error hstop hlogged fun b hb => ?_).mpr hbases
    simpa [Event.library, Engine.bases, hpair.1, hpair.2] using hb
  · have hdone : hookMmap k e = .ok 0 e' := by
      rw [hookMmap, bind_of_ok hrun, bind_of_ok (get_apply e'), if_neg hrax]
      rfl
    refine (onHost_iff_of_ok hdone htrace).mpr fun b hb => ?_
    simpa [Event.library, Engine.host] using hb

theorem onHost_close_iff (hhost : k.AcceptsHost e) :
    OnHost (hookClose k) e ↔ (e.state.rdi = 1 → e.bases = e.host) := by
  by_cases hone : e.state.rdi = 1
  · have hbody : hookClose k e =
        (do (do emit .output; setRax 0 : Eng Unit); emit .output; return 0 : Eng Word) e := by
      rw [hookClose, bind_of_ok (get_apply e), if_pos hone]
      rfl
    have hplain : Follows Plain (do emit .output; setRax 0 : Eng Unit) :=
      .bind plain_output fun _ => plain_modify fun _ => rfl
    rw [onHost_congr hbody, onHost_plain_iff hplain]
    exact ⟨fun h _ => h, fun h => h hone⟩
  · have hbody : hookClose k e = forward k Sys.close.nr (fun s => [s.rdi]) e := by
      rw [hookClose, bind_of_ok (get_apply e), if_neg hone]
    rw [onHost_congr hbody]
    exact iff_of_true (onHost_forward hhost _ _) fun h => absurd h hone

/-! ### `arch_prctl` -/

/-- The bases after `arch_prctl` of the guest, before the way back. -/
def Engine.afterPrctl (k : Kernel) (e : Engine) (code : BitVec 32) (addr : Word) : Word × Word :=
  if isError (k.archPrctl code addr) = true then e.bases
  else if code = ARCH_SET_FS then (addr, e.gs)
  else if code = ARCH_SET_GS then (e.fs, addr)
  else e.bases

theorem Engine.afterPrctl_congr {e e' : Engine} (h : e'.bases = e.bases) (code : BitVec 32)
    (addr : Word) : e'.afterPrctl k code addr = e.afterPrctl k code addr := by
  have hpair := h
  simp only [Engine.bases, Prod.mk.injEq] at hpair
  rw [Engine.afterPrctl, Engine.afterPrctl, h, hpair.1, hpair.2]

theorem archPrctlDone_bases (code : BitVec 32) (addr : Word) (e : Engine) :
    (archPrctlDone code addr e).bases =
      if code = ARCH_SET_FS then (addr, e.gs) else if code = ARCH_SET_GS then (e.fs, addr)
      else e.bases := by
  unfold archPrctlDone
  split_ifs <;> rfl

/-- The switch of `hook_arch_prctl` logs an unknown code with the bases that it found. -/
theorem archPrctlSwitch_logs (code : BitVec 32) (addr : Word) (e : Engine) :
    ∃ e' new, archPrctlSwitch code addr e = .ok () e' ∧ e'.trace = new ++ e.trace ∧
      e'.bases = e.bases ∧ e'.host = e.host ∧ (∀ b ∈ new.filterMap Event.library, b = e.bases) ∧
      (code = ARCH_SET_FS ∨ code = ARCH_SET_GS → new = []) := by
  unfold archPrctlSwitch
  split_ifs with hfs hgs hcode
  · exact ⟨_, [], rfl, rfl, rfl, rfl, by simp, fun _ => rfl⟩
  · exact ⟨_, [], rfl, rfl, rfl, rfl, by simp, fun _ => rfl⟩
  · exact ⟨e, [], rfl, rfl, rfl, rfl, by simp, fun _ => rfl⟩
  · refine ⟨{ e with trace := .output e.fs e.gs :: e.trace }, [.output e.fs e.gs], rfl, rfl, rfl,
      rfl, fun b hb => ?_, fun h => ?_⟩
    · simpa [Event.library, Engine.bases] using hb
    · rcases h with h | h
      · exact absurd h hfs
      · exact absurd h hgs

/-- The call itself. -/
theorem syscall_archPrctl_logs (e : Engine) (rdi addr : Word) :
    ∃ e', syscall k Sys.archPrctl.nr [intArg rdi, addr] e =
        .ok (libcRet (k.archPrctl (rdi.setWidth 32) addr)) e' ∧
      e'.trace = e.trace ∧ e'.host = e.host ∧
      e'.bases = e.afterPrctl k (rdi.setWidth 32) addr := by
  have hcode : (List.getD [intArg rdi, addr] 0 0).setWidth 32 = rdi.setWidth 32 :=
    intArg_setWidth rdi
  have hcall : syscall k Sys.archPrctl.nr [intArg rdi, addr] e =
      .ok (libcRet (k.archPrctl ((List.getD [intArg rdi, addr] 0 0).setWidth 32) addr))
        { (if isError (k.archPrctl ((List.getD [intArg rdi, addr] 0 0).setWidth 32) addr) then e
            else archPrctlDone ((List.getD [intArg rdi, addr] 0 0).setWidth 32) addr e) with
          requests := _ } := rfl
  have hkept := (syscall_kept (k := k) (f := fun e => (e.trace, e.host))
    (fun _ _ _ _ _ => rfl) _ _).of_ok hcall
  simp only [Kept, Prod.mk.injEq] at hkept
  rw [hcode] at hcall hkept
  refine ⟨_, hcall, hkept.1, hkept.2, ?_⟩
  show (if isError (k.archPrctl (rdi.setWidth 32) addr) = true then e
    else archPrctlDone (rdi.setWidth 32) addr e).bases = _
  rw [Engine.afterPrctl]
  by_cases herror : isError (k.archPrctl (rdi.setWidth 32) addr) = true
  · rw [if_pos herror, if_pos herror]
  · rw [if_neg herror, if_neg herror, archPrctlDone_bases]

/-- `hook_arch_prctl` logs at the end with the bases that its own call has left, unless
the code is `ARCH_SET_FS`. -/
theorem hookArchPrctl_logs (hhost : k.AcceptsHost e) {code : BitVec 32}
    (hrdi : e.state.rdi.setWidth 32 = code) :
    ∃ e' b new, hookArchPrctl k e = .ok 0 e' ∧
      e'.trace = [.output b.1 b.2] ++ new ++ e.trace ∧
      b = (if code = ARCH_SET_FS then e.host else e.afterPrctl k code e.state.rsi) ∧
      (∀ b' ∈ new.filterMap Event.library, b' = e.bases) ∧
      (code = ARCH_SET_FS ∨ code = ARCH_SET_GS → new = []) := by
  obtain ⟨e₁, new, hswitch, htrace₁, hbases₁, hhost₁, hnew, hnone⟩ :=
    archPrctlSwitch_logs code e.state.rsi e
  obtain ⟨e₂, hcall, htrace₂, hhost₂, hbases₂⟩ :=
    syscall_archPrctl_logs (k := k) e₁ e.state.rdi e.state.rsi
  obtain ⟨e₃, hback, htrace₃, hbases₃⟩ : ∃ e₃, archPrctlBack k code e₂ = .ok () e₃ ∧
      e₃.trace = e₂.trace ∧
      e₃.bases = if code = ARCH_SET_FS then e.host else e₂.bases := by
    rw [archPrctlBack, bind_of_ok (get_apply e₂)]
    have hpair := hhost₂.trans hhost₁
    simp only [Engine.host, Prod.mk.injEq] at hpair
    split
    · rw [bind_of_ok (setFsGs_of_ok (by rw [hpair.1]; exact hhost.fs)
        (by rw [hpair.2]; exact hhost.gs))]
      exact ⟨_, rfl, rfl, hhost₂.trans hhost₁⟩
    · exact ⟨e₂, rfl, rfl, rfl⟩
  refine ⟨{ e₃ with
    state := { e₃.state with rax := libcRet (k.archPrctl code e.state.rsi) }
    trace := .output e₃.fs e₃.gs :: e₃.trace }, e₃.bases, new, ?_, ?_, ?_, hnew, hnone⟩
  · rw [hookArchPrctl, bind_of_ok (get_apply e)]
    simp only [hrdi]
    rw [bind_of_ok hswitch, bind_of_ok hcall, bind_of_ok hback, ← hrdi]
    rfl
  · rw [htrace₃, htrace₂, htrace₁]
    rfl
  · rw [hbases₃, hbases₂, hrdi, Engine.afterPrctl_congr hbases₁]

theorem afterPrctl_eq {code : BitVec 32} (hfs : code ≠ ARCH_SET_FS) (addr : Word) :
    e.afterPrctl k code addr =
      if code = ARCH_SET_GS ∧ isError (k.archPrctl code addr) = false then (e.fs, addr)
      else e.bases := by
  rw [Engine.afterPrctl, if_neg hfs]
  cases herror : isError (k.archPrctl code addr) with
  | true => simp
  | false => simp

theorem onHost_archPrctl_iff (hhost : k.AcceptsHost e) (hguest : e.bases = e.cached) :
    OnHost (hookArchPrctl k) e ↔ Sys.archPrctl.LogsOnHost k e := by
  obtain ⟨e', b, new, hrun, htrace, hb, hnew, hnone⟩ := hookArchPrctl_logs hhost rfl
  have hpair := hguest
  simp only [Engine.bases, Engine.cached, Prod.mk.injEq] at hpair
  rw [onHost_iff_of_ok hrun htrace]
  by_cases hfs : e.state.rdi.setWidth 32 = ARCH_SET_FS
  · rw [if_pos hfs] at hb
    refine iff_of_true (fun b' hb' => ?_) (Or.inl hfs)
    rw [hnone (Or.inl hfs)] at hb'
    have heq : b' = b := by simpa [Event.library] using hb'
    rw [heq, hb]
  · rw [if_neg hfs, afterPrctl_eq hfs, hpair.1, hguest] at hb
    rw [Sys.LogsOnHost, or_iff_right hfs, ← hb]
    constructor
    · intro h
      exact h b (by simp [Event.library])
    · intro h b' hb'
      rw [List.filterMap_append, List.mem_append] at hb'
      rcases hb' with hb' | hb'
      · have heq : b' = b := by simpa [Event.library] using hb'
        rw [heq, h]
      · -- Only an unknown code is logged before the call, which then moves no base.
        have hgs : e.state.rdi.setWidth 32 ≠ ARCH_SET_GS := by
          intro hgs
          rw [hnone (Or.inr hgs)] at hb'
          cases hb'
        rw [if_neg fun h => hgs h.1] at hb
        rw [hnew b' hb', hguest, ← hb, h]

end Logs

section Hooks

-- Keeps the unifier from opening the common body when it matches a hook against it.
attribute [local irreducible] forward

/-- For every system call that has a hook, every state of the guest and every pair of
bases: the hook calls the C library on the bases of the host, exactly in the cases of
`Sys.LogsOnHost`. -/
theorem hook_onHost_iff {k : Kernel} {e : Engine} (s : Sys) (hhost : k.AcceptsHost e)
    (hguest : e.bases = e.cached) : OnHost (s.hook k) e ↔ s.LogsOnHost k e := by
  cases s
  case brk =>
    rw [Sys.LogsOnHost, ← hguest]
    exact onHost_plain_iff plain_brkMove e
  case archPrctl => exact onHost_archPrctl_iff hhost hguest
  case mmap => exact iff_of_true (onHost_mmap hhost) trivial
  case close =>
    rw [Sys.LogsOnHost, ← hguest]
    exact onHost_close_iff hhost
  case exit =>
    rw [Sys.LogsOnHost, ← hguest]
    exact onHost_runDtor_iff e
  case exitGroup =>
    rw [Sys.LogsOnHost, ← hguest]
    exact onHost_runDtor_iff e
  all_goals
    refine iff_of_true (show OnHost (forward k _ _) e from onHost_forward hhost _ _) trivial

end Hooks

/-- The guest has the FS base `0x7000` installed, the host `0x1000`. -/
def guestEngine : Engine :=
  { Engine.fresh (codeSpace fun _ => 0) with
    hostFs := 0x1000
    instrumentedFs := 0x7000
    fs := 0x7000 }

/-- `getpid` logs on the bases of the host. -/
theorem hook_onHost_getpid : OnHost (Sys.getpid.hook Kernel.code) guestEngine :=
  (hook_onHost_iff .getpid ⟨rfl, rfl⟩ rfl).mpr trivial

/-- A `brk (0)` logs on the FS base of the guest. -/
theorem hookBrk_logs_on_guest :
    guestEngine.bases = guestEngine.cached ∧ Kernel.code.AcceptsHost guestEngine ∧
      (final (Sys.brk.hook Kernel.code guestEngine)).trace = [.output 0x7000 0] ∧
      guestEngine.host = (0x1000, 0) ∧ ¬ OnHost (Sys.brk.hook Kernel.code) guestEngine := by
  refine ⟨rfl, ⟨rfl, rfl⟩, rfl, rfl, fun h => ?_⟩
  have hbrk := (onHost_plain_iff (plain_brkMove (k := Kernel.code)) guestEngine).mp h
  cases hbrk

end Dryadalis
