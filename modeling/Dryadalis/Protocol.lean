import Dryadalis.NativeSyscalls
import Dryadalis.Phases

/-!
# The protocol of a run

What can be seen of a run from outside is its trace: the callbacks, the lookups of
system calls, the jumps back to the guest, the lines of the log, and the destructor.
`Stage.next` is the automaton of the traces that the engine can leave:

* a dispatch calls the user handler before it does anything else, and once;
* it looks at most one system call up, and only after the handler has run;
* it ends with one jump back, and not after an error of the emulation;
* the destructor is the last thing that happens.

`Visits.protocol` follows the automaton through every place of every run, and says in
which of its stages a dispatch can stop, and why.

The user handler of `main.c` counts the blocks, and `default_dtor` prints the count.
`Visits.bblCount_spec` says what it prints when the guest exits, and that no dispatch looks
up more than one system call.
-/

namespace Dryadalis

open ByteMem Exec

/-! ## The automaton -/

/-- How far a dispatch has got: the guest is running, the handler has been called, a number
has been looked up, the emulation has failed, it has met an instruction that it does not
know, and the destructor has been called, in a dispatch or outside one. -/
inductive Stage where
  | guest | host | looked | failed | exited
  | stopped (dispatching : Bool)
  deriving DecidableEq, Repr

/-- The calls out of the engine that are allowed in a stage. -/
def Stage.next : Stage → Event → Option Stage
  | .guest, .output _ _ => some .guest
  | .guest, .callback _ _ => some .host
  | .guest, .dtor _ _ => some (.stopped false)
  | .host, .output _ _ => some .host
  | .host, .lookup _ => some .looked
  | .host, .targetError => some .failed
  | .host, .notFoundCflow _ _ => some .failed
  | .host, .unhandledInsn _ _ _ => some .exited
  | .host, .resume _ _ => some .guest
  | .host, .dtor _ _ => some (.stopped true)
  | .looked, .output _ _ => some .looked
  | .looked, .resume _ _ => some .guest
  | .looked, .dtor _ _ => some (.stopped true)
  | .failed, .output _ _ => some .failed
  | .failed, .dtor _ _ => some (.stopped true)
  | _, _ => none

/-- The stage after a trace, newest event first, if the automaton allows it. -/
def stage : List Event → Option Stage
  | [] => some .guest
  | ev :: t => (stage t).bind fun s => s.next ev

/-- The stages in which the engine can stop for a reason. -/
def Stage.ends : Stage → Halt → Bool
  | .stopped _, .fatal | .stopped true, .guestExit | .exited, .exit | .looked, .assertion
  | .guest, .crash | .host, .crash | .looked, .crash
  | .guest, .diverge | .host, .diverge | .looked, .diverge => true
  | _, _ => false

/-- The engine is at a stage, and there is a handler to call. -/
def Engine.At (s : Stage) (e : Engine) : Prop := stage e.trace = some s ∧ e.takeCallback = true

/-- The stages in which a run can be at a place. -/
def Point.Conforms : Point → Engine → Prop
  | .guest, e => e.At .guest
  | .entered, e => e.At .host
  | .target _, e | .placed, e => e.At .host ∨ e.At .looked

/-- The engine stopped in a stage that allows it. -/
def Stops (h : Halt) (e : Engine) : Prop := ∃ s, stage e.trace = some s ∧ s.ends h = true

/-! ## The engine follows it -/

section Follow

variable {e e' : Engine} {s s' : Stage} {mk : Word → Word → Event}

theorem stage_after (h : stage e.trace = some s) (hnext : s.next (mk e.fs e.gs) = some s') :
    stage (e.after mk).trace = some s' := by
  rw [Engine.after, stage, h, Option.bind_some, hnext]

theorem Engine.At.after (h : e.At s) (hnext : s.next (mk e.fs e.gs) = some s') :
    (e.after mk).At s' :=
  ⟨stage_after h.1 hnext, h.2⟩

theorem logged_at (hlog : ∀ fs gs, s.next (.output fs gs) = some s) : Logged (Engine.At s) where
  record := by
    intro e e' h hrecord
    simp only [Engine.record, Prod.mk.injEq] at hrecord
    exact ⟨hrecord.1 ▸ h.1, hrecord.2.2.1 ▸ h.2⟩
  log h := h.after (hlog _ _)

/-- The engine is at a stage, and its hooks have these lengths. -/
def Engine.AtWith (n : Which → Word) (s : Stage) (e : Engine) : Prop := e.At s ∧ e.HasLengths n

theorem Engine.AtWith.after {n : Which → Word} (h : e.AtWith n s)
    (hnext : s.next (mk e.fs e.gs) = some s') : (e.after mk).AtWith n s' :=
  ⟨h.1.after hnext, h.2⟩

variable {n : Which → Word}

theorem logged_atWith (hlog : ∀ fs gs, s.next (.output fs gs) = some s) :
    Logged (Engine.AtWith n s) where
  record h hrecord := ⟨(logged_at hlog).record h.1 hrecord, h.2.of_record hrecord⟩
  log h := h.after (hlog _ _)

theorem fatal_atWith {b : Bool} (hlog : ∀ fs gs, s.next (.output fs gs) = some s)
    (hdtor : ∀ fs gs, s.next (.dtor fs gs) = some (.stopped b)) :
    Fatal (Engine.AtWith n s) Stops where
  toLogged := logged_atWith hlog
  fatal h := ⟨.stopped b, stage_after h.1.1 (hdtor _ _), rfl⟩

theorem steady_atWith (hshort : ∀ which, (n which).toNat < 2 ^ 31) {b : Bool}
    (hlog : ∀ fs gs, s.next (.output fs gs) = some s)
    (hdtor : ∀ fs gs, s.next (.dtor fs gs) = some (.stopped b)) (hcrash : s.ends .crash = true) :
    Steady (Engine.AtWith n s) Stops where
  toFatal := fatal_atWith hlog hdtor
  crash h := ⟨s, h.1.1, hcrash⟩
  lengths := ⟨n, hshort, fun h => h.2⟩

/-- The stages of the automaton are phases of a dispatch. -/
theorem phases_at (hshort : ∀ which, (n which).toNat < 2 ^ 31) :
    Phases (Engine.AtWith n .guest) (Engine.AtWith n .host) (fun _ => Engine.AtWith n .looked)
      (Engine.AtWith n .looked) (Engine.AtWith n .failed) Stops where
  guest := steady_atWith hshort (fun _ _ => rfl) (fun _ _ => rfl) rfl
  host := steady_atWith hshort (fun _ _ => rfl) (fun _ _ => rfl) rfl
  looked _ := logged_atWith fun _ _ => rfl
  done := steady_atWith hshort (fun _ _ => rfl) (fun _ _ => rfl) rfl
  failed := fatal_atWith (fun _ _ => rfl) fun _ _ => rfl
  callback h _ := h.after rfl
  noCallback h hno := absurd (h.1.2.symm.trans hno) (by decide)
  lookup h _ := h.after rfl
  unknown h _ := h.after rfl
  request _ _ _ h := h
  silent _ h := h
  guestExit h := ⟨.stopped true, stage_after h.1.1 rfl, rfl⟩
  assertion h := ⟨.looked, h.1.1, rfl⟩
  targetError h := h.after rfl
  notFound h := h.after rfl
  unhandled _ h := ⟨.exited, stage_after h.1.1 rfl, rfl⟩
  crash h := ⟨.host, h.1.1, rfl⟩
  resume h := h.elim (fun h => h.after rfl) fun h => h.after rfl

theorem opcodesCflow_at (hshort : ∀ which, (n which).toNat < 2 ^ 31) (k : Kernel) (cs : Capstone)
    (s : Stage) (hdiv : s.ends .diverge = true) (a : Word) :
    Meets (Engine.AtWith n s) (opcodesCflow k cs a true) (fun _ => Engine.AtWith n s) Stops := by
  have hsteady : Steady (Engine.AtWith n s) Stops := by
    cases s
    case guest => exact (phases_at hshort).guest
    case host => exact (phases_at hshort).host
    case looked => exact (phases_at hshort).done
    all_goals cases hdiv
  exact hsteady.opcodesCflow (fun _ h => ⟨s, h.1.1, hdiv⟩) a

end Follow

/-! ## Whole runs -/

section Runs

variable {k : Kernel} {cs : Capstone} {entry : Word} {e₀ e : Engine} {p : Point}

/-- `mem_write` can count the bytes of both hooks. -/
def Engine.Countable (e : Engine) : Prop := ∀ which, (e.hook which).length.toNat < 2 ^ 31

/-- The lengths of the hooks. -/
def Engine.lengths (e : Engine) (which : Which) : Word := (e.hook which).length

theorem dispatcher_at (hshort : e₀.Countable) :
    Meets (Engine.AtWith e₀.lengths .guest) (dispatcher k cs)
      (fun _ => Engine.AtWith e₀.lengths .guest) Stops :=
  (phases_at hshort).dispatcher (opcodesCflow_at hshort k cs .host rfl)
    (opcodesCflow_at hshort k cs .looked rfl)

theorem Visits.conforms (htrace : e₀.trace = []) (hshort : e₀.Countable)
    (run : Visits k cs entry e₀ p e) : p.Conforms e ∧ e.HasLengths e₀.lengths := by
  have hsplit : ∀ {e : Engine} {s s' : Stage},
      e.AtWith e₀.lengths s ∨ e.AtWith e₀.lengths s' →
      (e.At s ∨ e.At s') ∧ e.HasLengths e₀.lengths := fun h =>
    h.elim (fun h => ⟨Or.inl h.1, h.2⟩) fun h => ⟨Or.inr h.1, h.2⟩
  have hjoin : ∀ {e : Engine} {s s' : Stage},
      (e.At s ∨ e.At s') ∧ e.HasLengths e₀.lengths →
      e.AtWith e₀.lengths s ∨ e.AtWith e₀.lengths s' := fun h =>
    h.1.imp (fun hs => ⟨hs, h.2⟩) fun hs => ⟨hs, h.2⟩
  induction run with
  | start run =>
    have hstart := (phases_at hshort).instrument (opcodesCflow_at hshort k cs .guest rfl) entry
    exact hstart.of_ok ⟨⟨by rw [htrace]; rfl, rfl⟩, fun which => by cases which <;> rfl⟩ run
  | block c prev ih => exact ih
  | enter prev run ih => exact (phases_at hshort).enter.of_ok ih run
  | target prev run ih => exact hsplit ((phases_at hshort).getBblBase.of_ok ih run)
  | @place e e' base prev run ih =>
    have hplace := (phases_at hshort).instrumentAt (opcodesCflow_at hshort k cs .host rfl)
      (opcodesCflow_at hshort k cs .looked rfl) base
    exact hsplit (hplace.of_ok (hjoin ih) run)
  | resume prev run ih => exact (phases_at hshort).continueExec.of_ok (hjoin ih) run

/-- In every run, at every place, the trace is one that the automaton allows there.  A
dispatch ends with the guest running again, or in a stage in which the engine may stop for
that reason. -/
theorem Visits.protocol (htrace : e₀.trace = []) (hshort : e₀.Countable)
    (run : Visits k cs entry e₀ p e) :
    p.Conforms e ∧
      (p = .guest →
        Ended (fun _ e' => e'.At .guest) (fun h e' => Stops h e') (dispatcher k cs e)) := by
  have hconforms := run.conforms htrace hshort
  refine ⟨hconforms.1, ?_⟩
  rintro rfl
  exact ((dispatcher_at hshort).post fun _ _ h => h.1).ended e hconforms

end Runs

theorem retEngine_countable : retEngine.Countable := by
  rintro (_ | _)
  · decide
  · decide

theorem Visits.protocol_retEngine :
    ∃ e, Visits Kernel.code scanEncodings.capstone 0x401000 retEngine .guest e ∧
      Ended (fun _ e' => e'.At .guest) (fun h e' => Stops h e')
        (dispatcher Kernel.code scanEncodings.capstone e) := by
  obtain ⟨e, hrun⟩ := instrument_retEngine
  exact ⟨e, .start hrun, (Visits.protocol rfl retEngine_countable (.start hrun)).2 rfl⟩

/-! ## The count of the blocks -/

/-- `bbl_count`, which `test` of `main.c` increments. -/
def bblCount : List Event → BitVec 32
  | [] => 0
  | .callback _ _ :: t => bblCount t + 1
  | _ :: t => bblCount t

/-- How often the engine has jumped back to the guest. -/
def resumes : List Event → Nat
  | [] => 0
  | .resume _ _ :: t => resumes t + 1
  | _ :: t => resumes t

/-- The blocks that have been dispatched and not resumed. -/
def Stage.pending : Stage → Nat
  | .guest | .stopped false => 0
  | .host | .looked | .failed | .exited | .stopped true => 1

/-- The lookups that the dispatch may still make. -/
def Stage.room : Stage → Nat
  | .host => 1
  | _ => 0

theorem bblCount_eq (t : List Event) : bblCount t = BitVec.ofNat 32 (callbacks t).length := by
  induction t with
  | nil => rfl
  | cons ev t ih =>
    cases ev with
    | callback fs gs =>
      have hcons : callbacks (.callback fs gs :: t) = (fs, gs) :: callbacks t := rfl
      rw [bblCount, ih, hcons, List.length_cons, BitVec.ofNat_add]
      rfl
    | _ => exact ih

/-- One step of the automaton keeps the two counts. -/
theorem stage_counts : ∀ {t : List Event} {s : Stage}, stage t = some s →
    (callbacks t).length = resumes t + s.pending ∧
      (lookups t).length + s.room ≤ (callbacks t).length := by
  intro t
  induction t with
  | nil =>
    intro s h
    cases h
    exact ⟨rfl, le_refl _⟩
  | cons ev t ih =>
    intro s h
    obtain ⟨s₀, hprev, hnext⟩ := Option.bind_eq_some_iff.mp h
    obtain ⟨hcalls, hlooks⟩ := ih hprev
    cases s₀ <;> cases ev <;> cases hnext <;>
      simp [callbacks, lookups, resumes, Stage.pending, Stage.room] at hcalls hlooks ⊢ <;> omega

/-! ### One dispatch -/

section Dispatch

variable {k : Kernel} {cs : Capstone}

theorem lookups_blind : PlaceBlind fun e => lookups e.trace where
  space _ _ := rfl
  hook _ which _ := by cases which <;> rfl
  output _ := rfl
  dtor _ := rfl
  length _ _ := rfl
  currHook _ _ := rfl
  rip _ _ := rfl

theorem lookups_setFsGs (fs gs : Word) :
    Follows (Kept fun e => lookups e.trace) (setFsGs k fs gs) := by
  intro e
  obtain ⟨r, e', hset, -, fs', gs', he'⟩ := setFsGs_total k fs gs e
  rw [hset, he']
  rfl

theorem lookups_enter :
    Follows (Kept fun e => lookups e.trace)
      (do enterHost k; userCallback; takeDownHooks k : Eng Unit) := by
  have hsave : Follows (Kept fun e => lookups e.trace) (saveFsGs k) := by
    unfold saveFsGs
    exact .bind .get fun _ => .ite (.pure _) (.pure _)
  have henter : Follows (Kept fun e => lookups e.trace) (enterHost k) := by
    unfold enterHost
    refine .bind hsave fun r => ?_
    split
    · exact lookups_blind.fatalDump
    · refine .bind (.modify fun _ => rfl) fun _ => .bind .get fun _ => ?_
      exact .bind (lookups_setFsGs _ _) fun _ => .ite lookups_blind.fatalDump (.pure _)
  refine .bind henter fun _ => .bind ?_ fun _ => lookups_blind.takeDownHooks
  exact .bind .get fun _ => .ite (.modify fun _ => rfl) (.pure _)

theorem lookups_place (base : Word) :
    Follows (Kept fun e => lookups e.trace) (do
      instrumentAt k cs (fun base => opcodesCflow k cs base true) base
      continueExec k : Eng Unit) := by
  refine .bind (lookups_blind.instrumentAt (fun a => ?_) base) fun _ => ?_
  · exact lookups_blind.opcodesCflowAux (fun _ _ => rfl) _ a true
  · unfold continueExec
    refine .bind .get fun _ => .bind (lookups_setFsGs _ _) fun _ => ?_
    exact .when (.modify fun _ => rfl) fun _ => .modify fun _ => rfl

/-- The action looks up one number at most, however it ends. -/
def LooksOnce {α : Type} (x : Eng α) : Prop :=
  ∀ e, (lookups (final (x e)).trace).length ≤ (lookups e.trace).length + 1

section LooksOnce

variable {α β : Type} {x : Eng α} {f : α → Eng β}

theorem LooksOnce.of_kept (h : Follows (Kept fun e => lookups e.trace) x) : LooksOnce x := by
  intro e
  rw [show lookups (final (x e)).trace = lookups e.trace from h e]
  exact Nat.le_succ _

/-- The lookup comes after an action that makes none. -/
theorem LooksOnce.bind (hx : Follows (Kept fun e => lookups e.trace) x)
    (hf : ∀ a, LooksOnce (f a)) : LooksOnce (x >>= f) := by
  intro e
  have hkept := hx e
  rw [bind_apply]
  cases hrun : x e with
  | error h e₁ =>
    rw [hrun] at hkept
    exact (congrArg List.length hkept).trans_le (Nat.le_succ _)
  | ok a e₁ =>
    rw [hrun] at hkept
    have hone := hf a e₁
    rw [show lookups e₁.trace = lookups e.trace from hkept] at hone
    exact hone

/-- The lookup comes before an action that makes none. -/
theorem LooksOnce.bind_kept (hx : LooksOnce x)
    (hf : ∀ a, Follows (Kept fun e => lookups e.trace) (f a)) : LooksOnce (x >>= f) := by
  intro e
  have hone := hx e
  rw [bind_apply]
  cases hrun : x e with
  | error h e₁ =>
    rw [hrun] at hone
    exact hone
  | ok a e₁ =>
    rw [hrun] at hone
    exact (congrArg List.length (hf a e₁)).trans_le hone

end LooksOnce

theorem evalTargetInsn_looksOnce (i : Insn) (a : Word) : LooksOnce (evalTargetInsn k i a) := by
  intro e
  by_cases hlead : i.lead = some .INT
  · rw [evalTargetInsn_int hlead, lookups_evalSyscall]
    exact le_refl _
  · rw [lookups_of_lead_ne hlead]
    exact Nat.le_succ _

theorem getBblBase_looksOnce : LooksOnce (getBblBase k cs) := by
  have htail : ∀ target : Word, Follows (Kept fun e => lookups e.trace)
      (do
        if target = minusOne then
          fatalDump
        return target : Eng Word) := fun _ =>
    .when lookups_blind.fatalDump fun _ => .pure _
  have heval : ∀ a, LooksOnce (evalTarget k cs a) := by
    intro a
    unfold evalTarget
    refine .bind (lookups_blind.readMem _ _ _) fun r => ?_
    obtain ⟨ret, buf⟩ := r
    by_cases hret : ret = -1
    · simp only [if_pos hret]
      exact .of_kept (.bind (.modify fun _ => rfl) fun _ => .pure _)
    · simp only [if_neg hret]
      cases cs.disasm 0 ((List.range 16).map buf) with
      | none => exact .of_kept (.throw _)
      | some i => exact evalTargetInsn_looksOnce i a
  unfold getBblBase brEmulation
  exact .bind .get fun e => .bind_kept (heval _) htail

/-- A dispatch looks up one number at most, however it ends. -/
theorem dispatcher_looksOnce : LooksOnce (dispatcher k cs) := by
  rw [dispatcher_eq]
  exact .bind lookups_enter fun _ => .bind_kept getBblBase_looksOnce lookups_place

end Dispatch

section Counts

variable {k : Kernel} {cs : Capstone} {entry : Word} {e₀ e : Engine}

/-- While the guest runs, every block that was dispatched has been resumed, and there are no
more lookups than dispatches.  The next dispatch looks up one system call at most, however it
ends.  When the guest exits, the count that is printed is that of the blocks that were
resumed and the one that ends. -/
theorem Visits.bblCount_spec (htrace : e₀.trace = []) (hshort : e₀.Countable)
    (run : Visits k cs entry e₀ .guest e) :
    bblCount e.trace = BitVec.ofNat 32 (resumes e.trace) ∧
      (lookups e.trace).length ≤ resumes e.trace ∧
      (lookups (final (dispatcher k cs e)).trace).length ≤ (lookups e.trace).length + 1 ∧
      ∀ e', dispatcher k cs e = .error .guestExit e' →
        bblCount e'.trace = BitVec.ofNat 32 (resumes e'.trace + 1) := by
  obtain ⟨hguest, hlengths⟩ := run.conforms htrace hshort
  obtain ⟨hcalls, hlooks⟩ := stage_counts hguest.1
  refine ⟨?_, ?_, dispatcher_looksOnce e, fun e' hstop => ?_⟩
  · rw [bblCount_eq, hcalls]
    rfl
  · rw [hcalls] at hlooks
    exact hlooks
  · obtain ⟨s, hs, hends⟩ := (dispatcher_at hshort).of_error ⟨hguest, hlengths⟩ hstop
    obtain rfl : s = .stopped true := by
      cases s with
      | stopped dispatching => cases dispatching <;> first | rfl | cases hends
      | _ => cases hends
    rw [bblCount_eq, (stage_counts hs).1]
    rfl

end Counts

theorem Visits.bblCount_spec_retEngine :
    ∃ e, Visits Kernel.code scanEncodings.capstone 0x401000 retEngine .guest e ∧
      bblCount e.trace = BitVec.ofNat 32 (resumes e.trace) := by
  obtain ⟨e, hrun⟩ := instrument_retEngine
  exact ⟨e, .start hrun, (Visits.bblCount_spec rfl retEngine_countable (.start hrun)).1⟩

end Dryadalis
