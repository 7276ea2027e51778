import Dryadalis.Forwarding
import Dryadalis.Hooks

/-!
# The system calls of the guest

Which system call the guest has stopped at can be read from its memory and its registers:
the instruction under the dump hook, and the number in `rax`.  `Engine.calls` reads it once
the hooks are down, and does not look at anything that the engine logs or asks for.

`Requested` compares that with what the kernel was asked.  `dispatcher_calls` is the result
for one dispatch: one that ends has made exactly the request of the guest's call, and one
that stops has made that request or none.
-/

namespace Dryadalis

open ByteMem Exec

/-! ## What the guest asks for -/

/-- The system call with a hook that the guest has stopped at, with its registers. -/
def Engine.calls (cs : Capstone) (e : Engine) : List (Sys × StateRtime) :=
  match cs.decodeAt e.space.byte e.currHook with
  | none => []
  | some i =>
    if i.lead = some .INT then
      match Sys.ofNr (e.state.rax.setWidth 32).toNat with
      | none => []
      | some s => [(s, e.state)]
    else []

/-- A request without its answer. -/
def Request.ask (r : Request) : Nat × List Word := (r.nr, r.args)

/-- What the kernel is to be asked for the calls of the guest: nothing for those that the
engine answers itself. -/
def asks (calls : List (Sys × StateRtime)) : List (Nat × List Word) :=
  (calls.filter fun c => c.1.Forwards c.2).map fun c => (c.1.asked, c.1.passes c.2)

@[simp] theorem asks_nil : asks [] = [] := rfl

theorem asks_append (calls calls' : List (Sys × StateRtime)) :
    asks (calls ++ calls') = asks calls ++ asks calls' := by
  rw [asks, asks, asks, List.filter_append, List.map_append]

/-- The requests that were made between two states are those of the calls.  Both are newest
first. -/
def Requested (e e' : Engine) (calls : List (Sys × StateRtime)) : Prop :=
  ∃ new, e'.requests = new ++ e.requests ∧ new.map Request.ask = asks calls

theorem Requested.of_kept {e e' : Engine} (h : e'.requests = e.requests) : Requested e e' [] :=
  ⟨[], h, rfl⟩

theorem Requested.trans {e e₁ e₂ : Engine} {calls calls' : List (Sys × StateRtime)}
    (h : Requested e e₁ calls) (h' : Requested e₁ e₂ calls') :
    Requested e e₂ (calls' ++ calls) := by
  obtain ⟨new, heq, hask⟩ := h
  obtain ⟨new', heq', hask'⟩ := h'
  refine ⟨new' ++ new, ?_, ?_⟩
  · rw [heq', heq, List.append_assoc]
  · rw [List.map_append, hask', hask, asks_append]

theorem Requested.congr {e e₁ e' e₁' : Engine} {calls : List (Sys × StateRtime)}
    (h : Requested e e' calls) (heq : e₁.requests = e.requests)
    (heq' : e₁'.requests = e'.requests) : Requested e₁ e₁' calls := by
  obtain ⟨new, hnew, hask⟩ := h
  exact ⟨new, by rw [heq', heq, hnew], hask⟩

/-! ## The hooks -/

section Hook

variable {k : Kernel} {s : Sys} {e : Engine}

/-- A hook makes the request of its call, or none if it answers the call itself. -/
theorem Sys.hook_requested (k : Kernel) (s : Sys) (e : Engine) :
    Requested e (final (s.hook k e)) [(s, e.state)] := by
  by_cases hf : s.Forwards e.state
  · obtain ⟨req, hserved⟩ := Sys.hook_served (k := k) hf
    refine ⟨[req], hserved.once, ?_⟩
    obtain ⟨hnr, hargs⟩ := hserved.asks
    simp [asks, hf, Request.ask, hnr, hargs]
  · refine ⟨[], Sys.hook_silent k hf, ?_⟩
    simp [asks, hf]

end Hook

/-! ## Branch emulation -/

section Eval

variable {k : Kernel} {cs : Capstone} {e : Engine}

theorem requests_blind : PlaceBlind fun e => e.requests where
  space _ _ := rfl
  hook _ which _ := by cases which <;> rfl
  output _ := rfl
  dtor _ := rfl
  length _ _ := rfl
  currHook _ _ := rfl
  rip _ _ := rfl

theorem requests_setFsGs (fs gs : Word) : Follows (Kept fun e => e.requests) (setFsGs k fs gs) := by
  intro e
  obtain ⟨r, e', hset, -, fs', gs', he'⟩ := setFsGs_total k fs gs e
  rw [hset, he']
  rfl

/-- The system call case makes the request of the call and no other. -/
theorem evalSyscall_requested (k : Kernel) (i : Insn) (a : Word) (e : Engine) :
    Requested e (final (evalSyscall k i a e))
      (match Sys.ofNr (e.state.rax.setWidth 32).toNat with
        | none => []
        | some s => [(s, e.state)]) := by
  rw [evalSyscall, bind_of_ok (get_apply e), bind_of_ok (show emit _ e = .ok () _ from rfl)]
  cases hs : Sys.ofNr (e.state.rax.setWidth 32).toNat with
  | none =>
    rw [getSyscallHook, hs]
    exact .of_kept rfl
  | some s =>
    rw [getSyscallHook, hs]
    simp only [Option.map_some]
    obtain ⟨r, e₁, hset, -, fs', gs', he₁⟩ := setFsGs_total k e.instrumentedFs e.instrumentedGs
      { e with trace := .lookup (e.state.rax.setWidth 32) :: e.trace }
    rw [bind_of_ok hset]
    -- The line of the log after a refused switch does not matter.
    have hrest : ∀ e₂ : Engine, e₂.state = e.state → e₂.requests = e.requests →
        Requested e (final ((do
          let ret ← s.hook k
          let e ← get
          if (← setFsGs k e.hostFs e.hostGs) ≠ 0 then
            fatalDump
          if ret ≠ 0 then
            return ret
          return a + i.len : Eng Word) e₂)) [(s, e.state)] := by
      intro e₂ hstate hreq
      have hhook := Sys.hook_requested k s e₂
      rw [hstate] at hhook
      rw [bind_apply]
      cases hrun : s.hook k e₂ with
      | error h e₃ =>
        rw [hrun] at hhook
        exact hhook.congr hreq.symm rfl
      | ok ret e₃ =>
        rw [hrun] at hhook
        have htail : Follows (Kept fun e => e.requests) (do
            let e ← get
            if (← setFsGs k e.hostFs e.hostGs) ≠ 0 then
              fatalDump
            if ret ≠ 0 then
              return ret
            return a + i.len : Eng Word) := by
          refine .bind .get fun _ => .bind (requests_setFsGs _ _) fun _ => ?_
          exact .when requests_blind.fatalDump fun _ => .ite (.pure _) (.pure _)
        exact hhook.congr hreq.symm (htail e₃)
    split
    · exact hrest _ (by rw [he₁]) (by rw [he₁])
    · exact hrest _ (by rw [he₁]) (by rw [he₁])

/-- `__eval_target` makes a request for a system call only. -/
theorem evalTargetInsn_requested (k : Kernel) (i : Insn) (a : Word) (e : Engine) :
    Requested e (final (evalTargetInsn k i a e))
      (if i.lead = some .INT then
        match Sys.ofNr (e.state.rax.setWidth 32).toNat with
        | none => []
        | some s => [(s, e.state)]
      else []) := by
  split
  · rename_i hlead
    rw [evalTargetInsn_of_lead hlead]
    exact evalSyscall_requested k i a e
  · rename_i hlead
    have hsteps : EvalSteps (Kept fun e => e.requests) :=
      { fatal := requests_blind.fatalDump
        notFound := .modify fun _ => rfl
        operand := .modify fun _ => rfl
        unhandled := fun _ => .modify fun _ => rfl
        push := fun _ => .modify fun _ => rfl
        pop := .modify fun _ => rfl }
    exact .of_kept (hsteps.evalGroups (fun h => absurd h hlead) e)

/-- `_get_bbl_base` makes the request of the guest's call, unless it dies before. -/
theorem getBblBase_requested (cs : Capstone) (hopen : k.Opens e.currHook 0) :
    Requested e (final (getBblBase k cs e)) (e.calls cs) ∨
      (∃ e', getBblBase k cs e = .error .crash e' ∧ Requested e e' []) := by
  have hfatal : ∀ target : Word, Follows (Kept fun e => e.requests)
      (do
        if target = minusOne then
          fatalDump
        return target : Eng Word) := fun _ =>
    .when requests_blind.fatalDump fun _ => .pure _
  obtain ⟨space', hbyte, -, heval⟩ := evalTarget_of_opens cs e hopen
  rw [getBblBase, bind_of_ok (get_apply e), brEmulation, bind_apply]
  rcases heval with hdead | ⟨i, hi, heval⟩
  · rw [hdead]
    exact Or.inr ⟨_, rfl, .of_kept rfl⟩
  · have hinsn := evalTargetInsn_requested k (i.atAddr 0) e.currHook { e with space := space' }
    rw [Insn.atAddr_lead, ← heval] at hinsn
    left
    rw [Engine.calls, hi]
    simp only
    cases hrun : evalTarget k cs e.currHook e with
    | error h e₁ =>
      rw [hrun] at hinsn
      exact hinsn
    | ok target e₁ =>
      rw [hrun] at hinsn
      exact hinsn.congr rfl (hfatal target e₁)

end Eval

/-! ## A dispatch -/

section Dispatch

variable {k : Kernel} {cs : Capstone} {e : Engine}

/-- What the entry of a dispatch leaves alone. -/
theorem enter_kept :
    Follows (Kept fun e : Engine => (e.state, e.currHook, e.requests))
      (do enterHost k; userCallback; takeDownHooks k : Eng Unit) := by
  have hblind : Blind fun e : Engine => (e.state, e.currHook, e.requests) :=
    { space := fun _ _ => rfl
      hook := fun _ which _ => by cases which <;> rfl
      output := fun _ => rfl
      dtor := fun _ => rfl }
  have hset : ∀ fs gs, Follows (Kept fun e : Engine => (e.state, e.currHook, e.requests))
      (setFsGs k fs gs) := by
    intro fs gs e
    obtain ⟨r, e', hrun, -, fs', gs', he'⟩ := setFsGs_total k fs gs e
    rw [hrun, he']
    rfl
  have hsave : Follows (Kept fun e : Engine => (e.state, e.currHook, e.requests))
      (saveFsGs k) := by
    unfold saveFsGs
    exact .bind .get fun _ => .ite (.pure _) (.pure _)
  have henter : Follows (Kept fun e : Engine => (e.state, e.currHook, e.requests))
      (enterHost k) := by
    unfold enterHost
    refine .bind hsave fun r => ?_
    split
    · exact hblind.fatalDump
    · refine .bind (.modify fun _ => rfl) fun _ => .bind .get fun _ => ?_
      exact .bind (hset _ _) fun _ => .ite hblind.fatalDump (.pure _)
  refine .bind henter fun _ => .bind ?_ fun _ => hblind.takeDownHooks
  exact .bind .get fun _ => .ite (.modify fun _ => rfl) (.pure _)

theorem requests_continueExec : Follows (Kept fun e => e.requests) (continueExec k) := by
  unfold continueExec
  refine .bind .get fun _ => .bind (requests_setFsGs _ _) fun _ => ?_
  exact .when (.modify fun _ => rfl) fun _ => .modify fun _ => rfl

theorem requests_instrumentAt (base : Word) :
    Follows (Kept fun e => e.requests)
      (instrumentAt k cs (fun base => opcodesCflow k cs base true) base) :=
  requests_blind.instrumentAt
    (fun a => requests_blind.opcodesCflowAux (fun _ _ => rfl) _ a true) base

/-- The rest of a dispatch makes no request. -/
theorem requests_place (base : Word) :
    Follows (Kept fun e => e.requests) (do
      instrumentAt k cs (fun base => opcodesCflow k cs base true) base
      continueExec k : Eng Unit) :=
  .bind (requests_instrumentAt base) fun _ => requests_continueExec

/-- A dispatch is its entry, the search for the next block, and the rest. -/
theorem dispatcher_eq (k : Kernel) (cs : Capstone) :
    dispatcher k cs = (do
      (do enterHost k; userCallback; takeDownHooks k : Eng Unit)
      let base ← getBblBase k cs
      instrumentAt k cs (fun base => opcodesCflow k cs base true) base
      continueExec k : Eng Unit) := by
  rw [dispatcher, dispatcherWith, moveHooks]
  simp only [bind_assoc]

/-- A dispatch that ends has made the request of the guest's system call, and one that stops
has made it or none. -/
theorem dispatcher_calls (cs : Capstone) (hopen : k.Opens e.currHook 0) :
    (∀ e', dispatcher k cs e = .ok () e' →
      ∃ e₁, (do enterHost k; userCallback; takeDownHooks k : Eng Unit) e = .ok () e₁ ∧
        Requested e e' (e₁.calls cs) ∧ k.Opens e'.currHook 0) ∧
    ∀ h e', dispatcher k cs e = .error h e' →
      Requested e e' [] ∨
        ∃ e₁, (do enterHost k; userCallback; takeDownHooks k : Eng Unit) e = .ok () e₁ ∧
          Requested e e' (e₁.calls cs) := by
  have henter := enter_kept (k := k) e
  rw [dispatcher_eq, bind_apply]
  cases hrun : (do enterHost k; userCallback; takeDownHooks k : Eng Unit) e with
  | error h e₁ =>
    rw [hrun] at henter
    refine ⟨fun e' h' => (by cases h'), fun h' e' h' => ?_⟩
    cases h'
    exact Or.inl (.of_kept (congrArg (·.2.2) henter))
  | ok u e₁ =>
    rw [hrun] at henter
    have hcurr : e₁.currHook = e.currHook := congrArg (·.2.1) henter
    have hreq : e₁.requests = e.requests := congrArg (·.2.2) henter
    rw [← hcurr] at hopen
    have hbase := getBblBase_requested cs hopen
    simp only
    rw [bind_apply]
    cases htarget : getBblBase k cs e₁ with
    | error h e₂ =>
      rw [htarget] at hbase
      refine ⟨fun e' h' => (by cases h'), fun h' e' h' => ?_⟩
      cases h'
      rcases hbase with hcall | ⟨e₃, hdead, hnone⟩
      · exact Or.inr ⟨e₁, rfl, hcall.congr hreq.symm rfl⟩
      · cases hdead
        exact Or.inl (hnone.congr hreq.symm rfl)
    | ok base e₂ =>
      rw [htarget] at hbase
      have hcall : Requested e e₂ (e₁.calls cs) := by
        rcases hbase with hcall | ⟨e₃, hdead, -⟩
        · exact hcall.congr hreq.symm rfl
        · cases hdead
      have hrest := @requests_place k cs base e₂
      refine ⟨fun e' h' => ⟨e₁, rfl, ?_, ?_⟩, fun h' e' h' => Or.inr ⟨e₁, rfl, ?_⟩⟩
      · simp only at h'
        rw [h'] at hrest
        exact hcall.congr rfl hrest
      · obtain ⟨_, e₃, hplace, hcontinue⟩ := exists_of_bind_ok h'
        rw [instrumentAt] at hplace
        split at hplace
        · cases hplace
        obtain ⟨ret, e₄, hrequest, hplace⟩ := exists_of_bind_ok hplace
        split at hplace
        · cases hplace
        cases hplace
        obtain ⟨off, e₅, -, -, -, -, hopens⟩ := instrumentRequest_place cs hrequest
        have hguest := follows_guestPart_continueExec.of_ok hcontinue
        rw [show e'.currHook = e₄.currHook from congrArg (·.2.2.2.2.2) hguest]
        exact hopens
      · simp only at h'
        rw [h'] at hrest
        exact hcall.congr rfl hrest

end Dispatch

end Dryadalis
