import Dryadalis.Bases
import Dryadalis.DumpStub
import Dryadalis.RestoreStub
import Dryadalis.Transparency

/-!
# The registers of the guest from one block to the next

Between the dump stub and the restore stub the dispatcher may put anything in
the state structure.  It runs at privilege level 3, so the flags that `popfq`
does not load are those of the processor at the hook; it assigns no `rflags`
either (`follows_rflags_dispatcher`), so these bits of the field are the ones
that were recorded.  `registers_round_trip` needs no more of it.

The last part ties the stubs to `Engine.enter` and `Engine.leave`, which stand for
them in the runs of the instrumented guest.
-/

namespace Dryadalis

open Exec

/-! ## The dispatcher and the flags -/

section Flags

variable {k : Kernel} {cs : Capstone}

theorem rflags_blind : HookBlind fun e => e.state.rflags where
  space _ _ := rfl
  hook _ which _ := by cases which <;> rfl
  output _ := rfl
  dtor _ := rfl
  kernel _ _ _ _ _ := rfl
  cached _ _ _ := rfl
  rax _ _ := rfl
  vbrk _ _ := rfl

theorem rflags_placeBlind : PlaceBlind fun e => e.state.rflags where
  toBlind := rflags_blind.toBlind
  length _ _ := rfl
  currHook _ _ := rfl
  rip _ _ := rfl

theorem kept_rflags {e e' : Engine} (h : Kept Engine.guestPart e e') :
    Kept (fun e => e.state.rflags) e e' := by
  simp only [Kept, Engine.guestPart, Prod.mk.injEq] at h
  rw [Kept, h.1]

theorem follows_rflags_getBblBase :
    Follows (Kept fun e => e.state.rflags) (getBblBase k cs) := by
  have hsteps : EvalSteps (Kept fun e => e.state.rflags) :=
    { fatal := rflags_blind.fatalDump
      notFound := .modify fun _ => rfl
      operand := .modify fun _ => rfl
      unhandled := fun _ => .modify fun _ => rfl
      push := fun _ => .modify fun _ => rfl
      pop := .modify fun _ => rfl }
  have htarget : ∀ a, Follows (Kept fun e => e.state.rflags) (evalTarget k cs a) := by
    intro a
    unfold evalTarget
    refine .bind (rflags_blind.readMem _ _ _) fun r => ?_
    obtain ⟨ret, buf⟩ := r
    refine .ite (.bind rflags_blind.log fun _ => .pure _) ?_
    split
    · exact .throw _
    · refine hsteps.evalGroups fun _ => ?_
      exact rflags_blind.hookSteps.evalSyscall (fun _ => .modify fun _ => rfl)
        (.modify fun _ => rfl) _ _
  unfold getBblBase brEmulation
  refine .bind .get fun e => .bind (htarget _) fun _ => ?_
  exact .when rflags_blind.fatalDump fun _ => .pure _

/-- No step of the dispatcher writes the recorded flags. -/
theorem follows_rflags_dispatcher :
    Follows (Kept fun e => e.state.rflags) (dispatcher k cs) := by
  have hmove : Follows (Kept fun e => e.state.rflags)
      (moveHooks k cs (getBblBase k cs) fun base => opcodesCflow k cs base true) := by
    unfold moveHooks
    refine .bind rflags_blind.takeDownHooks fun _ => .bind follows_rflags_getBblBase fun _ => ?_
    exact rflags_placeBlind.instrumentAt
      (fun a => rflags_blind.opcodesCflowAux (fun _ _ => rfl) _ a true) _
  unfold dispatcher dispatcherWith
  refine .bind (follows_guestPart_enterHost.mono kept_rflags) fun _ => ?_
  refine .bind (follows_guestPart_userCallback.mono kept_rflags) fun _ => .bind hmove fun _ => ?_
  exact follows_guestPart_continueExec.mono kept_rflags

end Flags

namespace Stub

open ByteMem

/-! ## The round trip -/

/-- What lies between the dump stub and the restore stub: the machine is still on
the host stack, and neither the processor nor the `rflags` field has changed in
the bits that `popfq` does not load. -/
structure Between (L : Layout) (m m' : Machine) : Prop where
  room : L.Room (m'.reg .rsp) L.frame
  system : systemBits m'.flags.val = systemBits m.flags.val
  rflags : systemBits (load64 m'.mem (L.field .rflags)) =
    systemBits (load64 m.mem (L.field .rflags))

theorem user_or_system (v : Word) : (v &&& userFlags) ||| systemBits v = v := by
  rw [systemBits, ← BitVec.and_or_distrib_left, BitVec.or_not_self, BitVec.and_allOnes]

/-- The dump stub records the processor that reached the hook, whatever it holds.
After any dispatch the restore stub and its hook load what the state structure holds
by then, the flags included.  Neither writes a byte outside the objects of the host. -/
theorem registers_round_trip (L : Layout) (callee : Word → Machine → Machine)
    (hcalls : MxcsrCalls L callee) (hvecs : ∀ p, L.vectors ≠ .avx512 p) (c : Machine) :
    ∃ m₁, dump callee L.toHandler c = some m₁ ∧
      m₁.rip = L.dispatcher ∧ m₁.reg .rdi = L.sBinary ∧ m₁.reg .rsp = L.hostRsp - 8 ∧
      Recorded L c m₁ ∧ (∀ x, L.Guest x → m₁.mem x = c.mem x) ∧
      ∀ m₂, Between L m₁ m₂ →
        ∃ m₃, restore callee L.toHandler m₂ = some m₃ ∧ Restored L m₂ m₃ ∧
          m₃.flags.val = load64 m₂.mem (L.field .rflags) ∧
          ∀ x, L.Guest x → m₃.mem x = m₂.mem x := by
  obtain ⟨m₁, hdump, hwrote, hrip, hrdi, hrsp, hsys⟩ := run_dump hcalls hvecs c
  have hrecorded := hwrote.recorded
  refine ⟨m₁, hdump, hrip, hrdi, hrsp, hrecorded,
    fun x hx => hwrote.guest (fun _ hp => fits_of_mem_dumpWrites hp) hx, ?_⟩
  intro m₂ hm₂
  obtain ⟨m₃, hrestore, hrestored, hoff⟩ := run_restore hcalls hvecs hm₂.room
  refine ⟨m₃, hrestore, hrestored, ?_, fun x hx => hoff x (hx .stack)⟩
  -- the system bits are those of the processor at the hook, on both sides
  have hfield : systemBits m₂.flags.val = systemBits (load64 m₂.mem (L.field .rflags)) := by
    rw [hm₂.system, hsys, hm₂.rflags, hrecorded.rflags]
  rw [hrestored.flags, hfield, user_or_system]

/-- An engine on a processor with AVX2. -/
def avx2Handler : Handler where
  state := 0x10000
  vectors := .avx2 0x20000
  mxcsr := 0x30000
  currHook := 0x40000
  stack := 0x100000
  sBinary := 0x50000
  dispatcher := 0x401000
  saveMxcsr := 0x402000
  restoreMxcsr := 0x403000
  frame := 256

theorem avx2Handler_apart (i j : Region) (h : i ≠ j) :
    (avx2Handler.regionBase i).toNat + avx2Handler.regionSize i ≤
        (avx2Handler.regionBase j).toNat ∨
      (avx2Handler.regionBase j).toNat + avx2Handler.regionSize j ≤
        (avx2Handler.regionBase i).toNat := by
  cases i <;> cases j <;> first | exact absurd rfl h | decide

theorem avx2Handler_fits (i : Region) :
    (avx2Handler.regionBase i).toNat + avx2Handler.regionSize i ≤ 2 ^ 64 := by
  cases i <;> decide

def avx2Layout : Layout where
  toHandler := avx2Handler
  separate i j h := by
    rcases avx2Handler_apart i j h with hle | hle
    · exact disjoint_of_le hle (avx2Handler_fits j)
    · exact (disjoint_of_le hle (avx2Handler_fits i)).symm
  aligned p h := by cases h
  two_words_le := by decide
  frame_le := by decide

/-- The two functions, which need no more of the stack than the return address. -/
def plainCallee (a : Word) (m : Machine) : Machine :=
  if a = avx2Layout.saveMxcsr then
    { m with mem := store64 m.mem avx2Layout.mxcsr (m.mxcsr.setWidth 64) }
  else if a = avx2Layout.restoreMxcsr then
    { m with mxcsr := (load64 m.mem avx2Layout.mxcsr).setWidth 32 }
  else
    m

theorem plainCallee_calls : MxcsrCalls avx2Layout plainCallee where
  save _ _ :=
    { regs := fun _ _ => rfl
      vec := rfl
      system := rfl
      mem := fun _ hx _ => patch_of_not_inRange hx }
  save_mxcsr _ _ := rfl
  save_variable m _ := load64_store64 m.mem avx2Layout.mxcsr (m.mxcsr.setWidth 64)
  restore _ _ :=
    { regs := fun _ _ => rfl
      vec := rfl
      system := rfl
      mem := fun _ _ _ => rfl }
  restore_mxcsr _ _ := rfl
  restore_variable _ _ := rfl

/-- A processor at a hooked instruction. -/
def hookedMachine : Machine where
  reg r := if r = .rcx then 7 else 1
  flags := ⟨0x246, by decide⟩
  vec _ _ := 0
  mxcsr := 0x1f80
  mem _ := 0
  rip := 0

/-- An edit of `rax` in between is what the processor goes on with, and `rcx` and
the flags come back. -/
theorem registers_round_trip_rax :
    ∃ m₁ m₂ m₃, dump plainCallee avx2Handler hookedMachine = some m₁ ∧
      m₂ = { m₁ with mem := store64 m₁.mem (avx2Handler.field .rax) 42 } ∧
      Between avx2Layout m₁ m₂ ∧ restore plainCallee avx2Handler m₂ = some m₃ ∧
      m₃.reg .rax = 42 ∧ m₃.reg .rcx = 7 ∧ m₃.flags.val = 0x246 := by
  obtain ⟨m₁, hdump, -, -, hrsp, hrecorded, -, hback⟩ :=
    registers_round_trip avx2Layout plainCallee plainCallee_calls (fun _ h => nomatch h)
      hookedMachine
  let m₂ : Machine := { m₁ with mem := store64 m₁.mem (avx2Layout.field .rax) 42 }
  have hother : ∀ f, (fieldSlot .rax).Apart (fieldSlot f) →
      load64 m₂.mem (avx2Layout.field f) = load64 m₁.mem (avx2Layout.field f) := by
    intro f h
    have hdisj := Regions.disjoint_of_apart (fits_fieldSlot (L := avx2Layout) .rax)
      (fits_fieldSlot f) h
    rw [addr_fieldSlot, addr_fieldSlot] at hdisj
    exact load64_patch_of_disjoint hdisj
  have hrax : load64 m₂.mem (avx2Layout.field .rax) = 42 :=
    load64_store64 m₁.mem (avx2Layout.field .rax) 42
  have hflags : load64 m₂.mem (avx2Layout.field .rflags) = 0x246 :=
    (hother .rflags (by decide)).trans hrecorded.rflags
  have hdispatched : Between avx2Layout m₁ m₂ := by
    refine ⟨?_, rfl, ?_⟩
    · change avx2Layout.Room (m₁.reg .rsp) 256
      rw [hrsp]
      exact (Layout.room_hostRsp.sub (k := 8) (by decide)).mono (by decide)
    · rw [hother .rflags (by decide)]
  obtain ⟨m₃, hrestore, hrestored, hrflags, -⟩ := hback m₂ hdispatched
  refine ⟨m₁, m₂, m₃, hdump, rfl, hdispatched, hrestore, ?_, ?_, ?_⟩
  · exact (hrestored.reg .rax rfl).trans hrax
  · exact (hrestored.reg .rcx rfl).trans ((hother .rcx (by decide)).trans (hrecorded.reg .rcx))
  · rw [hrflags, hflags]

/-! ## The stubs as steps of an instrumented run -/

/-- The general register that a field of the register map is saved from. -/
def fieldReg : Dryadalis.Field → Option Reg
  | .rax => some .rax | .rbx => some .rbx | .rcx => some .rcx | .rdx => some .rdx
  | .rsi => some .rsi | .rdi => some .rdi | .rbp => some .rbp | .rsp => some .rsp
  | .r8 => some .r8 | .r9 => some .r9 | .r10 => some .r10 | .r11 => some .r11
  | .r12 => some .r12 | .r13 => some .r13 | .r14 => some .r14 | .r15 => some .r15
  | .rip | .rflags | .nullEntry => none

theorem isSegment_of_fieldReg {f : Dryadalis.Field} {r : Reg} (h : fieldReg f = some r) :
    r.isSegment = false := by
  cases f <;> cases h <;> rfl

/-- The processor has the general registers and the flags of `s`. -/
structure Shows (m : Machine) (s : StateRtime) : Prop where
  reg : ∀ f r, fieldReg f = some r → m.reg r = s.read f
  rflags : m.flags.val = s.rflags

/-- The state structure in the memory `μ` holds `s`. -/
structure Holds (L : Layout) (μ : Word → Byte) (s : StateRtime) : Prop where
  reg : ∀ f r, fieldReg f = some r → load64 μ (L.field r.field) = s.read f
  rflags : load64 μ (L.field .rflags) = s.rflags
  rip : load64 μ (L.field .rip) = s.rip

section Runs

variable {L : Layout} {e : Engine} {c : Cpu} {m m' : Machine}

/-- After the dump stub the state structure is that of `Engine.enter`. -/
theorem Recorded.holds_enter (h : Recorded L m m') (hregs : Shows m c.regs)
    (hhook : load64 m.mem L.currHook = e.currHook) : Holds L m'.mem (e.enter c).state where
  reg f r hr := by
    rw [h.reg r, hregs.reg f r hr]
    cases f <;> first | rfl | cases hr
  rflags := h.rflags.trans hregs.rflags
  rip := h.rip.trans hhook

/-- After the restore stub and its hook the processor is that of `Engine.leave`: the
stub jumps to the hook, and the hook ends at the block. -/
theorem Restored.shows_leave (h : Restored L m m') (hstate : Holds L m.mem e.state)
    (hflags : m'.flags.val = load64 m.mem (L.field .rflags)) :
    Shows m' e.leave.regs ∧ m'.rip + e.restore.length = e.leave.regs.rip := by
  refine ⟨⟨fun f r hr => ?_, hflags.trans hstate.rflags⟩, ?_⟩
  · rw [h.reg r (isSegment_of_fieldReg hr), hstate.reg f r hr]
    cases f <;> first | rfl | cases hr
  · rw [h.rip, hstate.rip]
    rfl

end Runs

end Stub

end Dryadalis
