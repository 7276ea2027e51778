import Dryadalis.Protocol
import Dryadalis.RoundTrip

/-!
# The ways into the guest

Two pieces of inline assembly hand the processor to the guest.  `exec_binary` starts it:
the address and the stack pointer come in two registers that the compiler picks, everything
else is cleared, and a `ret` goes to the address.  `continue_exec` goes back to it from the
dispatcher, by way of the restore stub.

Neither names the registers that it overwrites, so the compiler may pick any for the
operands.  `exec_binary` moves its first operand to `rax` before it reads the second one,
and `instrument_enters` says what comes of that.

Both clear the vector registers with `vzeroall`.  The restore stub loads them again, but
only those of the path that it was crafted for: `vectors_survive_iff` says for which
processors nothing is lost.
-/

namespace Dryadalis.Stub

open ByteMem Exec

/-! ## Inline assembly -/

/-- An instruction of the inline assembly: one that the stubs have, `xor r, r`, or
`vzeroall`. -/
inductive Inline where
  | code (c : Code)
  | xor (r : Reg)
  | vzeroall

/-- `CF`, `PF`, `AF`, `ZF`, `SF` and `OF`. -/
def arithFlags : Word := 0x8D5

/-- The flags after a `xor` with the result 0, which sets `PF` and `ZF` and leaves `AF`
undefined. -/
def Flags.zeroed (af : Bool) (f : Flags) : Flags :=
  f.load ((f.val &&& ~~~arithFlags) ||| 0x44 ||| if af then 0x10 else 0)

section

variable (callee : Word → Machine → Machine)
-- whether there is AVX, without which `vzeroall` faults, and what `AF` is where it is undefined
variable (avx : Bool) (af : Machine → Bool)

/-- One instruction. -/
def inlineStep (m : Machine) : Inline → Option Machine
  | .code c => step callee m c
  | .xor r => some { m.setReg r 0 with flags := m.flags.zeroed (af m) }
  | .vzeroall => if avx then some { m with vec := fun _ _ => 0 } else none

/-- A text, from its first instruction to its last. -/
def inlineRun (m : Machine) (text : List Inline) : Option Machine :=
  text.foldlM (inlineStep callee avx af) m

end

/-- The registers that `exec_binary` clears before it uses the stack. -/
def clearedRegs : List Reg :=
  [.rbx, .rcx, .rdx, .rdi, .rsi, .r8, .r9, .r10, .r11, .r12, .r13, .r14, .r15, .rbp]

/-- `exec_binary`, with `state->rip` in the register `p` and `state->rsp` in `q`. -/
def execBinary (p q : Reg) : List Inline :=
  [.code (.mov .rax p), .code (.mov .rsp q)] ++ clearedRegs.map .xor ++
    [.vzeroall, .code (.push .rax), .xor .rax, .code (.push .rax), .code .popfq, .code .ret]

/-- The assembly of `continue_exec`, with `restore_stub` in the register `p`. -/
def continueExecText (p : Reg) : List Inline :=
  [.vzeroall, .code (.mov .rax p), .code (.jmp .rax)]

section Run

variable {callee : Word → Machine → Machine} {avx : Bool} {af : Machine → Bool}

@[simp] theorem inlineRun_nil (m : Machine) : inlineRun callee avx af m [] = some m := rfl

@[simp] theorem inlineRun_cons (m : Machine) (c : Inline) (cs : List Inline) :
    inlineRun callee avx af m (c :: cs) =
      (inlineStep callee avx af m c).bind fun m' => inlineRun callee avx af m' cs := rfl

theorem inlineRun_append (m : Machine) (cs ds : List Inline) :
    inlineRun callee avx af m (cs ++ ds) =
      (inlineRun callee avx af m cs).bind fun m' => inlineRun callee avx af m' ds := by
  rw [inlineRun, List.foldlM_append]
  rfl

/-- A second `popfq` makes the first one as if it had not been. -/
theorem Flags.load_load (v w : Word) (f : Flags) : (f.load v).load w = f.load w := by
  have hval : ((f.load v).load w).val = (f.load w).val := by
    simp only [Flags.load]
    congr 1
    apply BitVec.eq_of_getLsbD_eq
    intro i hi
    simp only [BitVec.getLsbD_and, BitVec.getLsbD_or, BitVec.getLsbD_not]
    grind
  cases h : (f.load v).load w
  cases h' : f.load w
  rw [h, h'] at hval
  cases hval
  rfl

theorem Flags.load_zeroed (af : Bool) (v : Word) (f : Flags) : (f.zeroed af).load v = f.load v :=
  Flags.load_load _ v f

variable (callee avx af) in
/-- Clearing registers changes nothing that a `popfq` behind it does not. -/
theorem run_xors {rs : List Reg} (hrs : ∀ r ∈ rs, r.isSegment = false) (m : Machine) :
    ∃ f : Flags, (∀ v, f.load v = m.flags.load v) ∧
      inlineRun callee avx af m (rs.map .xor) =
        some { m with reg := fun r => if r ∈ rs then 0 else m.reg r, flags := f } := by
  induction rs generalizing m with
  | nil => exact ⟨m.flags, fun _ => rfl, by simp⟩
  | cons r rs ih =>
    let m₁ : Machine := { m.setReg r 0 with flags := m.flags.zeroed (af m) }
    obtain ⟨f, hf, hrun⟩ := ih (fun r hr => hrs r (List.mem_cons_of_mem _ hr)) m₁
    refine ⟨f, fun v => (hf v).trans (Flags.load_zeroed _ v _), ?_⟩
    have hreg : (fun r' => if r' ∈ rs then 0 else m₁.reg r') =
        fun r' => if r' ∈ r :: rs then 0 else m.reg r' := by
      funext r'
      by_cases heq : r' = r
      · simp [heq, m₁, Machine.setReg, Reg.fit, hrs r List.mem_cons_self]
      · simp [heq, m₁, Machine.setReg]
    rw [hreg] at hrun
    exact hrun

end Run

/-! ## Starting the guest -/

/-- The guest is entered at `rip` with the stack pointer `rsp`: every other general register
and every vector register is 0, the flags are those that a `popfq` of 0 leaves, and no memory
was written but the sixteen bytes below the stack pointer. -/
structure Enters (rip rsp : Word) (m m' : Machine) : Prop where
  entry : m'.rip = rip
  stack : m'.reg .rsp = rsp
  regs : ∀ r, r.isSegment = false → r ≠ .rsp → m'.reg r = 0
  selectors : ∀ r, r.isSegment = true → m'.reg r = m.reg r
  flags : m'.flags = m.flags.load 0
  vec : ∀ i j, m'.vec i j = 0
  mxcsr : m'.mxcsr = m.mxcsr
  mem : ∀ x, ¬ InRange (rsp - 16) 16 x → m'.mem x = m.mem x

section Start

variable {callee : Word → Machine → Machine} {avx : Bool} {af : Machine → Bool}

/-- The stack pointer that `exec_binary` loads. -/
def loadedRsp (m : Machine) (p q : Reg) : Word := if q = .rax then m.reg p else m.reg q

variable (callee af) in
/-- The tail of `exec_binary` takes the flags and the address off the stack of the guest. -/
theorem run_execTail (m : Machine) :
    ∃ m', inlineRun callee true af m
        [.vzeroall, .code (.push .rax), .xor .rax, .code (.push .rax), .code .popfq, .code .ret] =
          some m' ∧
      m'.rip = m.reg .rax ∧ m'.reg = Function.update m.reg .rax 0 ∧
      m'.flags = m.flags.load 0 ∧ m'.vec = (fun _ _ => 0) ∧ m'.mxcsr = m.mxcsr ∧
      ∀ x, ¬ InRange (m.reg .rsp - 16) 16 x → m'.mem x = m.mem x := by
  let m₁ : Machine := { m with vec := fun _ _ => 0 }
  let m₂ := m₁.push (m.reg .rax)
  let m₃ : Machine := { m₂.setReg .rax 0 with flags := m₂.flags.zeroed (af m₂) }
  let m₄ := m₃.push 0
  let m₅ : Machine := { m₃ with mem := m₄.mem, flags := m₃.flags.load 0 }
  let m₆ : Machine := { m₅.drop with rip := m₅.top }
  have hrax₃ : m₃.reg .rax = 0 := by simp [m₃, Machine.setReg, Reg.fit]
  have hrsp₃ : m₃.reg .rsp = m.reg .rsp - 8 := by
    simp [m₃, m₂, m₁, Machine.setReg, Machine.push]
  have htop₄ : m₄.top = 0 := Machine.top_push m₃ 0
  have hdrop₄ : m₄.drop = { m₃ with mem := m₄.mem } := Machine.drop_push m₃ 0
  -- the address is still under the flags
  have htop₅ : m₅.top = m.reg .rax :=
    calc m₅.top = load64 m₄.mem (m₃.reg .rsp) := rfl
      _ = m₃.top := Machine.load64_push m₃ 0
      _ = m₂.top := by simp [Machine.top, m₃, Machine.setReg]
      _ = m.reg .rax := Machine.top_push m₁ _
  have hrun₃ : inlineRun callee true af m [.vzeroall, .code (.push .rax), .xor .rax] = some m₃ :=
    rfl
  have hrun₄ : inlineRun callee true af m₃ [.code (.push .rax)] = some m₄ :=
    congrArg (fun v => some (m₃.push v)) hrax₃
  have hrun₅ : inlineRun callee true af m₄ [.code .popfq] = some m₅ := by
    calc inlineRun callee true af m₄ [.code .popfq]
        = some { m₄.drop with flags := m₄.flags.load m₄.top } := rfl
      _ = some m₅ := by
          rw [hdrop₄, htop₄]
          rfl
  refine ⟨m₆, ?_, htop₅, ?_, ?_, rfl, rfl, ?_⟩
  · calc inlineRun callee true af m ([.vzeroall, .code (.push .rax), .xor .rax] ++
          ([.code (.push .rax)] ++ ([.code .popfq] ++ [.code .ret])))
        = inlineRun callee true af m₅ [.code .ret] := by
          rw [inlineRun_append, hrun₃, Option.bind_some, inlineRun_append, hrun₄, Option.bind_some,
            inlineRun_append, hrun₅, Option.bind_some]
      _ = some m₆ := rfl
  · show Function.update m₃.reg .rsp (m₃.reg .rsp + 8) = _
    rw [hrsp₃, BitVec.sub_add_cancel]
    funext r
    by_cases hrsp : r = .rsp
    · simp [hrsp]
    · by_cases hrax : r = .rax
      · simp [hrax, hrax₃]
      · simp [hrsp, hrax, m₃, m₂, m₁, Machine.setReg, Machine.push]
  · exact Flags.load_zeroed _ 0 _
  · intro x hx
    have hdist : ByteMem.dist (m.reg .rsp - 16) (m.reg .rsp) = 16 := by
      rw [ByteMem.dist, sub_sub_cancel]
      rfl
    have hlow : ¬ InRange (m₃.reg .rsp - 8) 8 x := by
      intro hin
      rw [hrsp₃, BitVec.sub_sub] at hin
      exact hx (Nat.lt_of_lt_of_le hin (by decide))
    have hhigh : ¬ InRange (m.reg .rsp - 8) 8 x := fun hin =>
      hx (inRange_of_below (k := 8) (by omega) (by omega) (by decide) hin)
    calc m₆.mem x = m₃.mem x := patch_of_not_inRange hlow
      _ = m.mem x := patch_of_not_inRange hhigh

variable (callee avx af) in
/-- The head of `exec_binary` loads the address and the stack pointer and clears the other
registers. -/
theorem run_execHead (m : Machine) (p q : Reg) :
    ∃ f : Flags, (∀ v, f.load v = m.flags.load v) ∧
      inlineRun callee avx af m
          ([.code (.mov .rax p), .code (.mov .rsp q)] ++ clearedRegs.map .xor) =
        some { m with
          reg := fun r => if r ∈ clearedRegs then 0
            else Function.update (Function.update m.reg .rax (m.reg p)) .rsp (loadedRsp m p q) r
          flags := f } := by
  let m₁ : Machine := { m with
    reg := Function.update (Function.update m.reg .rax (m.reg p)) .rsp (loadedRsp m p q) }
  have hmoves : inlineRun callee avx af m [.code (.mov .rax p), .code (.mov .rsp q)] =
      some m₁ := by
    have hread : Function.update m.reg .rax (m.reg p) q = loadedRsp m p q := by
      rw [loadedRsp, Function.update_apply]
    simp [inlineStep, step, Machine.setReg, Reg.fit, Reg.isSegment, hread, m₁]
  obtain ⟨f, hf, hxors⟩ := run_xors callee avx af (show ∀ r ∈ clearedRegs, _ by decide) m₁
  refine ⟨f, hf, ?_⟩
  rw [inlineRun_append, hmoves, Option.bind_some, hxors]

variable (callee af) in
/-- `exec_binary` enters the guest, with the stack pointer that it has loaded. -/
theorem run_execBinary (m : Machine) (p q : Reg) :
    ∃ m', inlineRun callee true af m (execBinary p q) = some m' ∧
      Enters (m.reg p) (loadedRsp m p q) m m' := by
  obtain ⟨f, hf, hhead⟩ := run_execHead callee true af m p q
  let m₁ : Machine := { m with
    reg := fun r => if r ∈ clearedRegs then 0
      else Function.update (Function.update m.reg .rax (m.reg p)) .rsp (loadedRsp m p q) r
    flags := f }
  have hrax : m₁.reg .rax = m.reg p := by simp [m₁, clearedRegs]
  have hrsp : m₁.reg .rsp = loadedRsp m p q := by simp [m₁, clearedRegs]
  obtain ⟨m', hrun, hrip, hreg, hflags, hvec, hmxcsr, hmem⟩ := run_execTail callee af m₁
  refine ⟨m', ?_, hrip.trans hrax, ?_, ?_, ?_, ?_, fun i j => by rw [hvec], hmxcsr, ?_⟩
  · rw [execBinary, inlineRun_append, hhead, Option.bind_some, hrun]
  · rw [hreg, Function.update_of_ne (by decide), hrsp]
  · intro r hseg hne
    rw [hreg]
    cases r <;> first | rfl | exact absurd rfl hne | cases hseg
  · intro r hseg
    rw [hreg]
    cases r <;> first | rfl | cases hseg
  · exact hflags.trans (hf 0)
  · intro x hx
    rw [← hrsp] at hx
    exact hmem x hx

/-- Without AVX it does not get to the guest. -/
theorem run_execBinary_none (m : Machine) (p q : Reg) :
    inlineRun callee false af m (execBinary p q) = none := by
  obtain ⟨f, -, hhead⟩ := run_execHead callee false af m p q
  rw [execBinary, inlineRun_append, hhead]
  rfl

variable (callee avx af) in
/-- `exec_binary` enters the guest as it should exactly if there is AVX, and if the second
operand is not in the register that the first one is moved to. -/
theorem execBinary_iff (m : Machine) (p q : Reg) :
    (∃ m', inlineRun callee avx af m (execBinary p q) = some m' ∧
        Enters (m.reg p) (m.reg q) m m') ↔
      avx = true ∧ (q = .rax → m.reg p = m.reg q) := by
  obtain ⟨m₁, hrun, henters⟩ := run_execBinary callee af m p q
  constructor
  · rintro ⟨m', hrun', henters'⟩
    cases avx with
    | true =>
      cases hrun.symm.trans hrun'
      have hstack := henters.stack.symm.trans henters'.stack
      rw [loadedRsp] at hstack
      exact ⟨rfl, fun hq => by rwa [if_pos hq] at hstack⟩
    | false => exact absurd (hrun'.symm.trans (run_execBinary_none m p q)) (Option.some_ne_none m')
  · rintro ⟨rfl, hq⟩
    have hrsp : loadedRsp m p q = m.reg q := by
      rw [loadedRsp]
      split
      · exact hq ‹_›
      · rfl
    exact ⟨m₁, hrun, hrsp ▸ henters⟩

/-- The registers are then those that the runs of the instrumented guest start
with. -/
theorem Enters.shows {m m' : Machine} {rip rsp : Word} (h : Enters rip rsp m m') :
    Shows m' { StateRtime.zero with
      rsp := rsp, rip := rip, rflags := systemBits m.flags.val } where
  reg f r hr := by
    by_cases hrsp : r = .rsp
    · subst hrsp
      rw [h.stack]
      cases f <;> first | rfl | cases hr
    · rw [h.regs r (isSegment_of_fieldReg hr) hrsp]
      cases f <;> cases hr <;> first | rfl | exact absurd rfl hrsp
  rflags := by
    have hzero : (0 : Word) &&& userFlags = 0 := by decide
    have hload : (m.flags.load 0).val = (0 &&& userFlags) ||| systemBits m.flags.val := rfl
    rw [h.flags, hload, hzero]
    exact BitVec.zero_or

end Start

/-! ### At the end of `instrument` -/

section Instrument

variable {k : Kernel} {cs : Capstone} {e₀ e : Engine} {entry : Word}

theorem rsp_placeBlind : PlaceBlind fun e => e.state.rsp where
  space _ _ := rfl
  hook _ which _ := by cases which <;> rfl
  output _ := rfl
  dtor _ := rfl
  length _ _ := rfl
  currHook _ _ := rfl
  rip _ _ := rfl

theorem kept_state {e e' : Engine} (h : Kept Engine.guestPart e e') :
    Kept (fun e => e.state) e e' := by
  simp only [Kept, Engine.guestPart, Prod.mk.injEq] at h
  exact h.1

theorem leaveHost_kept_state : Follows (Kept fun e => e.state) (leaveHost k) := by
  have hblind : Blind fun e => e.state :=
    { space := fun _ _ => rfl
      hook := fun _ which _ => by cases which <;> rfl
      output := fun _ => rfl
      dtor := fun _ => rfl }
  have hsave : Follows (Kept fun e => e.state) (saveFsGs k) := by
    unfold saveFsGs
    exact .bind .get fun _ => .ite (.pure _) (.pure _)
  unfold leaveHost
  refine .bind hsave fun r => ?_
  split
  · exact hblind.fatalDump
  · refine .bind (.modify fun _ => rfl) fun _ => .bind .get fun e => .ite ?_ (.pure _)
    refine .bind ((follows_guestPart_setFsGs _ _).mono kept_state) fun _ => ?_
    exact .ite hblind.fatalDump (.pure _)

/-- What `exec_binary` loads: the entry, and the stack pointer that `setup_stack` has left. -/
theorem instrument_state (run : instrument k cs entry e₀ = .ok () e) :
    e.state.rip = entry ∧ e.state.rsp = e₀.state.rsp := by
  rw [instrument, bind_of_ok (modify_apply _ e₀)] at run
  obtain ⟨r, e₁, hrequest, run⟩ := exists_of_bind_ok run
  have hscan : ∀ a, Follows (Kept fun e => e.state.rsp) (opcodesCflow k cs a true) :=
    fun a => rsp_placeBlind.opcodesCflowAux (fun _ _ => rfl) _ a true
  have hkept := (rsp_placeBlind.instrumentRequest hscan entry).of_ok hrequest
  have hrsp : e₁.state.rsp = e₀.state.rsp := hkept
  split at run
  · cases run
  · have hstate := leaveHost_kept_state.of_ok
      (show leaveHost k { e₁ with state := { e₁.state with rip := entry } } = .ok () e from run)
    have hstate : e.state = { e₁.state with rip := entry } := hstate
    rw [hstate]
    exact ⟨rfl, hrsp⟩

/-- When `instrument` is done with an engine, `exec_binary` starts the guest at its entry, on
the stack that `setup_stack` has made, with nothing of the host in its registers and nothing
but sixteen bytes below the stack changed: exactly if there is AVX, and if the stack pointer
is not in the register that the entry is moved to. -/
theorem instrument_enters {callee : Word → Machine → Machine} {avx : Bool} {af : Machine → Bool}
    {m : Machine} {p q : Reg} (run : instrument k cs entry e₀ = .ok () e)
    (hp : m.reg p = e.state.rip) (hq : m.reg q = e.state.rsp) :
    (∃ m', inlineRun callee avx af m (execBinary p q) = some m' ∧
        Enters entry e₀.state.rsp m m') ↔
      avx = true ∧ (q = .rax → entry = e₀.state.rsp) := by
  obtain ⟨hentry, hrsp⟩ := instrument_state run
  have hboot := execBinary_iff callee avx af m p q
  rwa [hp, hq, hentry, hrsp] at hboot

end Instrument

/-- The entry and the stack pointer in `rbx` and `rcx` are what the guest starts with; in `rbx`
and `rax` the stack pointer is lost. -/
theorem instrument_enters_retEngine :
    ∃ e m, instrument Kernel.code scanEncodings.capstone 0x401000 retEngine = .ok () e ∧
      (∃ m', inlineRun plainCallee true (fun _ => false) m (execBinary .rbx .rcx) = some m' ∧
        Enters 0x401000 retEngine.state.rsp m m') ∧
      ¬ ∃ m', inlineRun plainCallee true (fun _ => false) m (execBinary .rbx .rax) = some m' ∧
        Enters 0x401000 retEngine.state.rsp m m' := by
  obtain ⟨e, run⟩ := instrument_retEngine
  let m : Machine := { hookedMachine with
    reg := fun r => if r = .rbx then e.state.rip else e.state.rsp }
  have hne : (0x401000 : Word) ≠ retEngine.state.rsp := by decide
  refine ⟨e, m, run, ?_, ?_⟩
  · exact (instrument_enters (p := .rbx) (q := .rcx) run rfl rfl).mpr ⟨rfl, nofun⟩
  · intro h
    exact hne (((instrument_enters (p := .rbx) (q := .rax) run rfl rfl).mp h).2 rfl)

/-! ## Going back to the guest -/

/-- What the vector registers may hold for the stubs of this path to lose nothing of them. -/
def Vectors.Holds (vec : Fin 16 → Fin 32 → Byte) : Vectors → Prop
  | .avx2 _ => True
  | .sse _ => ∀ (i : Fin 16) (j : Fin 32), 16 ≤ j.val → vec i j = 0
  | .none => ∀ i j, vec i j = 0
  | .avx512 _ => False

section Back

variable {L : Layout} {callee : Word → Machine → Machine} {af : Machine → Bool} {m m' : Machine}

/-- The vector part of the restore stub loads what its path has room for, and leaves the rest
of the registers. -/
theorem restoreVecs_rest {text : List Code} (htext : restoreVecs L.toHandler = some text)
    (hrun : run callee m text = some m') :
    (∀ p, L.vectors = .sse p → ∀ (i : Fin 16) (j : Fin 32), 16 ≤ j.val →
      m'.vec i j = m.vec i j) ∧
    (L.vectors = .none → m'.vec = m.vec) := by
  unfold restoreVecs at htext
  split at htext
  · rename_i p hv
    rw [restoreXmms_eq] at htext
    cases htext
    obtain ⟨v, hloads⟩ := run_loadVecs (run_loadXmm callee hv) allVecs m
    cases hloads.symm.trans hrun
    refine ⟨fun _ _ i j hj => ?_, by simp [hv]⟩
    simp [mem_allVecs, vecFill, Nat.not_lt.2 hj]
  · rename_i p hv
    exact ⟨by simp [hv], by simp [hv]⟩
  · cases htext
  · rename_i hv
    cases htext
    cases hrun
    exact ⟨by simp [hv], fun _ => rfl⟩

/-- Nothing behind the vector part changes a vector register. -/
theorem restore_rest (hcalls : MxcsrCalls L callee) (hvecs : ∀ p, L.vectors ≠ .avx512 p)
    (hroom : L.Room (m.reg .rsp) L.frame) (hrun : restore callee L.toHandler m = some m') :
    (∀ p, L.vectors = .sse p → ∀ (i : Fin 16) (j : Fin 32), 16 ≤ j.val →
      m'.vec i j = m.vec i j) ∧
    (L.vectors = .none → m'.vec = m.vec) := by
  obtain ⟨text, htext⟩ := exists_restoreVecs hvecs
  obtain ⟨m₁, hrun₁, -, -, hregs₁, -⟩ := run_restoreVecs hcalls htext hroom
  have hroom₁ : L.Room (m₁.reg .rsp) 16 := by
    rw [hregs₁ .rsp (by decide)]
    exact hroom.mono L.two_words_le
  obtain ⟨m₃, m₄, hrun₃, hrun₄, -, -, -, -, -, hvec, -⟩ := run_restoreRegs callee hroom₁
  have hstub : craftRestoreStub L.toHandler =
      some (text ++ (loadedRegs.flatMap (loadReg L.toHandler) ++ restoreTail L.toHandler)) := by
    simp only [craftRestoreStub, htext, restoreRegs_eq, restoreExit_eq, Option.bind_eq_bind,
      Option.bind_some, List.append_assoc, pure]
  have hrestore := restore_of_run hstub (restoreHook_eq L.toHandler)
    ((run_append_of_eq hrun₁).trans hrun₃) hrun₄
  cases hrestore.symm.trans hrun
  rw [hvec]
  exact restoreVecs_rest htext hrun₁

/-- `continue_exec` jumps to the restore stub with the vector registers cleared. -/
theorem run_continueExecText (p : Reg) (m : Machine) :
    inlineRun callee true af m (continueExecText p) = some { m with
      reg := Function.update m.reg .rax (m.reg p)
      vec := fun _ _ => 0
      rip := m.reg p } := by
  simp [continueExecText, inlineStep, step, Machine.setReg, Reg.fit, Reg.isSegment]

/-- A slot of the vector area, in a memory that has the same vector area. -/
theorem window_vectors {μ μ' : Word → Byte}
    (h : ∀ x, L.regions.Contains .vectors x → μ' x = μ x) {s : Slot Region}
    (hs : L.regions.Fits s) (hregion : s.region = .vectors) {j : Nat} (hj : j < s.len) :
    window μ' (L.regions.addr s) j = window μ (L.regions.addr s) j := by
  have hsize := L.regions.size_le s.region
  have hfits : s.offset + s.len ≤ L.regions.size s.region := hs
  have hin : L.regions.Contains s.region (L.regions.addr s + BitVec.ofNat 64 j) :=
    hs.contains (inRange_add hj (by omega))
  exact h _ (hregion ▸ hin)

/-- What the assembly of `continue_exec` changes is not read by the restore stub. -/
theorem Restored.of_continueExec {v : Word} {vec : Fin 16 → Fin 32 → Byte} {rip : Word}
    (h : Restored L { m with reg := Function.update m.reg .rax v, vec := vec, rip := rip } m') :
    Restored L m m' where
  reg := h.reg
  selector := h.selector
  kept r hr := by
    have hrax : r ≠ .rax := by
      rintro rfl
      exact absurd hr (by decide)
    rw [h.kept r hr]
    exact Function.update_of_ne hrax _ _
  flags := h.flags
  vecs := ⟨h.vecs.xmm, h.vecs.ymm, h.vecs.mxcsr⟩
  rip := h.rip

/-- The vector registers after a dispatch that leaves the vector area alone. -/
theorem Recorded.vec_eq_iff {c m₁ : Machine} (hvecs : ∀ p, L.vectors ≠ .avx512 p)
    (hrecorded : Recorded L c m₁) (h : VecsFrom L m.mem m')
    (harea : ∀ x, L.regions.Contains .vectors x → m.mem x = m₁.mem x)
    (hhigh : ∀ p, L.vectors = .sse p → ∀ (i : Fin 16) (j : Fin 32), 16 ≤ j.val → m'.vec i j = 0)
    (hnone : L.vectors = .none → ∀ i j, m'.vec i j = 0) :
    m'.vec = c.vec ↔ L.vectors.Holds c.vec := by
  cases hv : L.vectors with
  | avx512 p => exact absurd hv (hvecs p)
  | avx2 p =>
    refine iff_of_true (funext fun i => funext fun j => ?_) trivial
    rw [h.ymm p hv i j, ← hrecorded.ymm p hv i j, ← addr_ymmSlot hv]
    exact window_vectors harea (fits_ymmSlot hv i) rfl j.isLt
  | sse p =>
    have hlow : ∀ (i : Fin 16) (j : Fin 32), j.val < 16 → m'.vec i j = c.vec i j := by
      intro i j hj
      rw [h.xmm p hv i j hj, ← hrecorded.xmm p hv i j hj, ← addr_xmmSlot hv]
      exact window_vectors harea (fits_xmmSlot hv i) rfl hj
    constructor
    · intro heq i j hj
      rw [← heq]
      exact hhigh p hv i j hj
    · intro hzero
      funext i j
      by_cases hj : j.val < 16
      · exact hlow i j hj
      · rw [hhigh p hv i j (Nat.not_lt.1 hj), hzero i j (Nat.not_lt.1 hj)]
  | none =>
    constructor
    · intro heq i j
      rw [← heq]
      exact hnone hv i j
    · intro hzero
      funext i j
      rw [hnone hv i j, hzero i j]

/-- The way from the dispatcher to the guest, through the assembly of `continue_exec`, the
restore stub and its hook: the general registers, the flags and the address come from the
state structure.  The vector registers come back as they were at the dump hook exactly if the
path of the stubs has room for what they hold. -/
theorem vectors_survive_iff (L : Layout) (callee : Word → Machine → Machine) (af : Machine → Bool)
    (hcalls : MxcsrCalls L callee) (hvecs : ∀ p, L.vectors ≠ .avx512 p) (c : Machine) :
    ∃ m₁, dump callee L.toHandler c = some m₁ ∧
      ∀ m₂ p, Between L m₁ m₂ → (∀ x, L.regions.Contains .vectors x → m₂.mem x = m₁.mem x) →
        ∃ m₃ m₄, inlineRun callee true af m₂ (continueExecText p) = some m₃ ∧
          m₃.rip = m₂.reg p ∧ restore callee L.toHandler m₃ = some m₄ ∧ Restored L m₂ m₄ ∧
          (m₄.vec = c.vec ↔ L.vectors.Holds c.vec) := by
  obtain ⟨m₁, hdump, hwrote, -, -, -, -⟩ := run_dump hcalls hvecs c
  refine ⟨m₁, hdump, fun m₂ p hbetween harea => ?_⟩
  let m₃ : Machine := { m₂ with
    reg := Function.update m₂.reg .rax (m₂.reg p), vec := fun _ _ => 0, rip := m₂.reg p }
  have hroom : L.Room (m₃.reg .rsp) L.frame := hbetween.room
  obtain ⟨m₄, hrestore, hrestored, -⟩ := run_restore hcalls hvecs hroom
  obtain ⟨hhigh, hnone⟩ := restore_rest hcalls hvecs hroom hrestore
  refine ⟨m₃, m₄, run_continueExecText p m₂, rfl, hrestore, hrestored.of_continueExec, ?_⟩
  exact hwrote.recorded.vec_eq_iff hvecs hrestored.vecs harea
    (fun p hv i j hj => hhigh p hv i j hj) (fun hv i j => by rw [hnone hv])

end Back

/-- The same engine on a processor that has AVX and not AVX2. -/
def sseHandler : Handler := { avx2Handler with vectors := .sse 0x20000 }

theorem sseHandler_apart (i j : Region) (h : i ≠ j) :
    (sseHandler.regionBase i).toNat + sseHandler.regionSize i ≤ (sseHandler.regionBase j).toNat ∨
      (sseHandler.regionBase j).toNat + sseHandler.regionSize j ≤
        (sseHandler.regionBase i).toNat := by
  cases i <;> cases j <;> first | exact absurd rfl h | decide

theorem sseHandler_fits (i : Region) :
    (sseHandler.regionBase i).toNat + sseHandler.regionSize i ≤ 2 ^ 64 := by
  cases i <;> decide

def sseLayout : Layout where
  toHandler := sseHandler
  separate i j h := by
    rcases sseHandler_apart i j h with hle | hle
    · exact disjoint_of_le hle (sseHandler_fits j)
    · exact (disjoint_of_le hle (sseHandler_fits i)).symm
  aligned p h := by
    cases h
    decide
  two_words_le := by decide
  frame_le := by decide

theorem sseLayout_calls : MxcsrCalls sseLayout plainCallee where
  save m h :=
    have hcalled := plainCallee_calls.save m h
    ⟨hcalled.regs, hcalled.vec, hcalled.system, hcalled.mem⟩
  save_mxcsr := plainCallee_calls.save_mxcsr
  save_variable := plainCallee_calls.save_variable
  restore m h :=
    have hcalled := plainCallee_calls.restore m h
    ⟨hcalled.regs, hcalled.vec, hcalled.system, hcalled.mem⟩
  restore_mxcsr := plainCallee_calls.restore_mxcsr
  restore_variable := plainCallee_calls.restore_variable

/-- With a byte of `ymm0` set above `xmm0`, a dispatch that does nothing loses it. -/
theorem vectors_survive_iff_sse :
    let c : Machine := { hookedMachine with vec := fun i j => if i = 0 ∧ j = 16 then 1 else 0 }
    ∃ m₁ m₃ m₄, dump plainCallee sseHandler c = some m₁ ∧
      inlineRun plainCallee true (fun _ => false) m₁ (continueExecText .rdx) = some m₃ ∧
      restore plainCallee sseHandler m₃ = some m₄ ∧ m₄.vec ≠ c.vec := by
  intro c
  obtain ⟨m₁, hdump, hback⟩ := vectors_survive_iff sseLayout plainCallee (fun _ => false)
    sseLayout_calls (fun _ h => nomatch h) c
  obtain ⟨m, hrun, -, -, -, hrsp, -⟩ := run_dump sseLayout_calls (fun _ h => nomatch h) c
  cases hdump.symm.trans hrun
  have hroom : sseLayout.Room (m₁.reg .rsp) sseLayout.frame := by
    rw [hrsp]
    exact (Layout.room_hostRsp.sub (k := 8) (by decide)).mono (by decide)
  obtain ⟨m₃, m₄, hcontinue, -, hrestore, -, hvec⟩ := hback m₁ .rdx ⟨hroom, rfl, rfl⟩ fun _ _ => rfl
  refine ⟨m₁, m₃, m₄, hdump, hcontinue, hrestore, fun heq => ?_⟩
  have hzero : c.vec 0 16 = 0 := hvec.mp heq 0 16 (by decide)
  exact absurd hzero (by decide)

end Dryadalis.Stub
