import Dryadalis.StubText

/-!
# The memory under the stubs

`Layout` carries what the addresses in a `Handler` are: the objects that the
stubs work on lie in separate regions, and there is room on the host stack.
The fields, the vector registers and the cells of the host are slots of these
regions, so that a slot reads the same in two memories that agree off the host
stack (`SameOff`).

The two `mxcsr` functions are compiled code.  `MxcsrCalls` is what the stubs
rely on when they call them.
-/

namespace Dryadalis.Stub

open ByteMem

/-! ## Where the objects of the host are -/

/-- The objects that the stubs read or write. -/
inductive Region where
  | state | vectors | mxcsr | currHook | stack
deriving DecidableEq, Repr

/-- `STACK_SZ`. -/
def STACK_SZ : Nat := 0x50000

def Handler.regionBase (h : Handler) : Region → Word
  | .state => h.state
  | .vectors =>
    match h.vectors with
    | .none => 0
    | .sse p | .avx2 p | .avx512 p => p
  | .mxcsr => h.mxcsr
  | .currHook => h.currHook
  | .stack => h.stack

/-- The sizes of the objects.  `avx512_t` has thirty-one registers: `zmm1` is
missing. -/
def Handler.regionSize (h : Handler) : Region → Nat
  | .state => 224
  | .vectors =>
    match h.vectors with
    | .none => 0
    | .sse _ => 256
    | .avx2 _ => 512
    | .avx512 _ => 1984
  | .mxcsr => 8
  | .currHook => 8
  | .stack => STACK_SZ

/-- The addresses of a running engine: the allocations do not overlap, `sse_t`
is aligned, and half of the host stack holds what the stubs push. -/
structure Layout extends Handler where
  separate : ∀ i j, i ≠ j → ByteMem.Disjoint (toHandler.regionBase i) (toHandler.regionSize i)
    (toHandler.regionBase j) (toHandler.regionSize j)
  aligned : ∀ p, vectors = .sse p → p.toNat % 16 = 0
  two_words_le : 16 ≤ frame
  frame_le : frame ≤ 0x27000

namespace Layout

variable (L : Layout)

def regions : Regions Region 64 where
  base := L.regionBase
  size := L.regionSize
  size_le i := by
    cases i with
    | vectors =>
      simp only [Handler.regionSize]
      split <;> decide
    | _ => simp [Handler.regionSize, STACK_SZ]
  separate := L.separate

/-- An address outside every object that the stubs work on.  All of the guest's
memory is outside them. -/
def Guest (x : Word) : Prop := ∀ i, ¬ L.regions.Contains i x

/-- The `n` bytes below `sp` are on the host stack. -/
def Room (sp : Word) (n : Nat) : Prop := n ≤ dist L.stack sp ∧ dist L.stack sp ≤ STACK_SZ

/-- Two memories that agree off the host stack. -/
def SameOff (μ μ' : Word → Byte) : Prop := ∀ x, ¬ L.regions.Contains .stack x → μ' x = μ x

variable {L}

theorem Room.contains {sp x : Word} {n k : Nat} (h : L.Room sp n) (hk : k ≤ n)
    (hx : InRange (sp - BitVec.ofNat 64 k) k x) : L.regions.Contains .stack x := by
  exact inRange_of_below (le_trans hk h.1) h.2 (L.regions.size_le .stack) hx

theorem Room.sub {sp : Word} {n k : Nat} (h : L.Room sp n) (hk : k ≤ n) :
    L.Room (sp - BitVec.ofNat 64 k) (n - k) := by
  have hdist := h.1
  have hle := h.2
  rw [Room, dist_sub (by omega)]
  omega

theorem Room.mono {sp : Word} {n k : Nat} (h : L.Room sp n) (hk : k ≤ n) : L.Room sp k :=
  ⟨le_trans hk h.1, h.2⟩

theorem room_hostRsp : L.Room L.hostRsp 0x28000 := by
  have hdist : dist L.stack L.hostRsp = 0x28000 := dist_add (i := 0x28000) (by decide)
  rw [Room, hdist]
  decide

theorem SameOff.refl (μ : Word → Byte) : L.SameOff μ μ := fun _ _ => rfl

theorem SameOff.trans {μ μ' μ'' : Word → Byte} (h : L.SameOff μ μ') (h' : L.SameOff μ' μ'') :
    L.SameOff μ μ'' := by
  intro x hx
  rw [h' x hx, h x hx]

/-- A slot of another object reads the same when the memories agree off the
stack. -/
theorem SameOff.window_eq {μ μ' : Word → Byte} (h : L.SameOff μ μ') {s : Slot Region}
    (hs : L.regions.Fits s) (hne : s.region ≠ .stack) {i : Nat} (hi : i < s.len) :
    window μ' (L.regions.addr s) i = window μ (L.regions.addr s) i := by
  apply h
  have hle := L.regions.size_le s.region
  unfold Regions.Fits at hs
  exact Regions.not_contains_of_ne hne (Regions.Fits.contains hs (inRange_add hi (by omega)))

end Layout

/-! ## The slots -/

def fieldSlot (f : Field) : Slot Region := ⟨.state, 8 * f.index, 8⟩

def xmmSlot (i : Fin 16) : Slot Region := ⟨.vectors, 16 * i.val, 16⟩

def ymmSlot (i : Fin 16) : Slot Region := ⟨.vectors, 32 * i.val, 32⟩

def mxcsrSlot : Slot Region := ⟨.mxcsr, 0, 8⟩

def currHookSlot : Slot Region := ⟨.currHook, 0, 8⟩

/-- The field of a register. -/
def Reg.field : Reg → Field
  | .rax => .rax | .rbx => .rbx | .rcx => .rcx | .rdx => .rdx | .rsi => .rsi | .rdi => .rdi
  | .rbp => .rbp | .rsp => .rsp
  | .r8 => .r8 | .r9 => .r9 | .r10 => .r10 | .r11 => .r11
  | .r12 => .r12 | .r13 => .r13 | .r14 => .r14 | .r15 => .r15
  | .cs => .cs | .ss => .ss | .gs => .gs | .es => .es | .ds => .ds | .fs => .fs

section Slots

variable {L : Layout}

theorem Field.index_lt (f : Field) : f.index < 24 := by
  cases f <;> decide

theorem fits_fieldSlot (f : Field) : L.regions.Fits (fieldSlot f) := by
  have hlt := f.index_lt
  simp only [Regions.Fits, fieldSlot, Layout.regions, Handler.regionSize]
  omega

theorem fits_mxcsrSlot : L.regions.Fits mxcsrSlot := le_refl 8

theorem fits_xmmSlot {p : Word} (hv : L.vectors = .sse p) (i : Fin 16) :
    L.regions.Fits (xmmSlot i) := by
  simp only [Regions.Fits, xmmSlot, Layout.regions, Handler.regionSize, hv]
  omega

theorem fits_ymmSlot {p : Word} (hv : L.vectors = .avx2 p) (i : Fin 16) :
    L.regions.Fits (ymmSlot i) := by
  simp only [Regions.Fits, ymmSlot, Layout.regions, Handler.regionSize, hv]
  omega

theorem fits_currHookSlot : L.regions.Fits currHookSlot := le_refl 8

theorem addr_fieldSlot (f : Field) : L.regions.addr (fieldSlot f) = L.field f := rfl

theorem addr_mxcsrSlot : L.regions.addr mxcsrSlot = L.mxcsr := BitVec.add_zero _

theorem addr_xmmSlot {p : Word} (hv : L.vectors = .sse p) (i : Fin 16) :
    L.regions.addr (xmmSlot i) = xmm p i := by
  simp [Regions.addr, xmmSlot, Layout.regions, Handler.regionBase, hv, xmm]

theorem addr_ymmSlot {p : Word} (hv : L.vectors = .avx2 p) (i : Fin 16) :
    L.regions.addr (ymmSlot i) = ymm p i := by
  simp [Regions.addr, ymmSlot, Layout.regions, Handler.regionBase, hv, ymm]

theorem xmm_aligned {p : Word} (hp : p.toNat % 16 = 0) (i : Fin 16) :
    (xmm p i).toNat % 16 = 0 := by
  rw [xmm, BitVec.toNat_add, BitVec.toNat_ofNat]
  omega

theorem addr_currHookSlot : L.regions.addr currHookSlot = L.currHook := BitVec.add_zero _

theorem Layout.SameOff.load64_eq {μ μ' : Word → Byte} (h : L.SameOff μ μ') {s : Slot Region}
    (hs : L.regions.Fits s) (hne : s.region ≠ .stack) (hlen : s.len = 8) :
    load64 μ' (L.regions.addr s) = load64 μ (L.regions.addr s) := by
  apply load64_congr
  intro i hi
  exact h.window_eq hs hne (by omega)

theorem Layout.SameOff.load64_field {μ μ' : Word → Byte} (h : L.SameOff μ μ') (f : Field) :
    load64 μ' (L.field f) = load64 μ (L.field f) := by
  rw [← addr_fieldSlot]
  exact h.load64_eq (fits_fieldSlot f) (show Region.state ≠ .stack by decide) rfl

theorem Layout.SameOff.load64_currHook {μ μ' : Word → Byte} (h : L.SameOff μ μ') :
    load64 μ' L.currHook = load64 μ L.currHook := by
  rw [← addr_currHookSlot]
  exact h.load64_eq fits_currHookSlot (by decide) rfl

/-- A field and a word on the host stack have no address in common. -/
theorem Layout.Room.disjoint_field {sp : Word} (h : L.Room sp 8) (f : Field) :
    ByteMem.Disjoint (L.field f) 8 (sp - 8) 8 := by
  intro x hf hx
  rw [← addr_fieldSlot] at hf
  have hstate : L.regions.Contains .state x := (fits_fieldSlot f).contains hf
  have hstack : L.regions.Contains .stack x := h.contains (k := 8) (le_refl 8) hx
  exact Regions.not_contains_of_ne (by decide) hstate hstack

end Slots

/-! ## The stack -/

@[simp] theorem Machine.top_push (m : Machine) (v : Word) : (m.push v).top = v := by
  simp [Machine.push, Machine.top, load64_store64]

@[simp] theorem Machine.drop_push (m : Machine) (v : Word) :
    (m.push v).drop = { m with mem := (m.push v).mem } := by
  simp [Machine.push, Machine.drop]

/-- A push leaves the word that was on top. -/
theorem Machine.load64_push (m : Machine) (v : Word) :
    load64 (m.push v).mem (m.reg .rsp) = m.top := by
  have hdisj := disjoint_above (a := m.reg .rsp - 8) (n := 8) (i := 8) (k := 8) (by decide)
    (by decide)
  change ByteMem.Disjoint (m.reg .rsp - 8) 8 (m.reg .rsp - 8 + 8) 8 at hdisj
  rw [BitVec.sub_add_cancel] at hdisj
  exact load64_patch_of_disjoint hdisj

/-- A push writes to the host stack only. -/
theorem sameOff_push {L : Layout} {m : Machine} (v : Word) (hroom : L.Room (m.reg .rsp) 8) :
    L.SameOff m.mem (m.push v).mem := by
  intro x hx
  exact patch_of_not_inRange fun hin => hx (hroom.contains (le_refl 8) hin)

/-! ## Running a text -/

section Run

variable {callee : Word → Machine → Machine}

@[simp] theorem run_nil (m : Machine) : run callee m [] = some m := rfl

@[simp] theorem run_cons (m : Machine) (c : Code) (cs : List Code) :
    run callee m (c :: cs) = (step callee m c).bind fun m' => run callee m' cs := rfl

theorem run_append (m : Machine) (cs ds : List Code) :
    run callee m (cs ++ ds) = (run callee m cs).bind fun m' => run callee m' ds := by
  rw [run, List.foldlM_append]
  rfl

theorem run_append_of_eq {m m' : Machine} {cs ds : List Code} (h : run callee m cs = some m') :
    run callee m (cs ++ ds) = run callee m' ds := by
  rw [run_append, h, Option.bind_some]

/-- Registers outside the list `rs` are the same in both machines. -/
def KeepsRegs (rs : List Reg) (m m' : Machine) : Prop := ∀ r, r ∉ rs → m'.reg r = m.reg r

theorem KeepsRegs.trans {rs : List Reg} {m m' m'' : Machine} (h : KeepsRegs rs m m')
    (h' : KeepsRegs rs m' m'') : KeepsRegs rs m m'' := by
  intro r hr
  rw [h' r hr, h r hr]

theorem KeepsRegs.mono {rs rs' : List Reg} {m m' : Machine} (h : KeepsRegs rs m m')
    (hsub : rs ⊆ rs') : KeepsRegs rs' m m' :=
  fun r hr => h r (fun hin => hr (hsub hin))

/-- The parts of the processor that the moves through `rax` do not touch. -/
structure SameCpu (m m' : Machine) : Prop where
  flags : m'.flags = m.flags
  mxcsr : m'.mxcsr = m.mxcsr

theorem SameCpu.trans {m m' m'' : Machine} (h : SameCpu m m') (h' : SameCpu m' m'') :
    SameCpu m m'' :=
  ⟨h'.flags.trans h.flags, h'.mxcsr.trans h.mxcsr⟩

end Run

/-! ## The two functions that are called -/

/-- The registers that a function may change. -/
def callerSaved : List Reg := [.rax, .rcx, .rdx, .rsi, .rdi, .r8, .r9, .r10, .r11]

/-- What a call of one of the two `mxcsr` functions leaves as it was.  Its
return address and its locals are in the `frame` bytes below `rsp`. -/
structure Called (L : Layout) (m m' : Machine) : Prop where
  regs : KeepsRegs callerSaved m m'
  vec : m'.vec = m.vec
  system : systemBits m'.flags.val = systemBits m.flags.val
  mem : ∀ x, ¬ InRange L.mxcsr 8 x →
    ¬ InRange (m.reg .rsp - BitVec.ofNat 64 L.frame) L.frame x → m'.mem x = m.mem x

/-- `save_mxcsr` stores `MXCSR` in the variable, `restore_mxcsr` loads the low
half of the variable and leaves it alone.  Both are compiled code that follows
the calling convention, run on a stack with room for it. -/
structure MxcsrCalls (L : Layout) (callee : Word → Machine → Machine) : Prop where
  save : ∀ m, L.Room (m.reg .rsp) L.frame → Called L m (callee L.saveMxcsr m)
  save_mxcsr : ∀ m, L.Room (m.reg .rsp) L.frame → (callee L.saveMxcsr m).mxcsr = m.mxcsr
  save_variable : ∀ m, L.Room (m.reg .rsp) L.frame →
    load64 (callee L.saveMxcsr m).mem L.mxcsr = m.mxcsr.setWidth 64
  restore : ∀ m, L.Room (m.reg .rsp) L.frame → Called L m (callee L.restoreMxcsr m)
  restore_mxcsr : ∀ m, L.Room (m.reg .rsp) L.frame →
    (callee L.restoreMxcsr m).mxcsr = (load64 m.mem L.mxcsr).setWidth 32
  restore_variable : ∀ m, L.Room (m.reg .rsp) L.frame →
    load64 (callee L.restoreMxcsr m).mem L.mxcsr = load64 m.mem L.mxcsr

theorem Called.off {L : Layout} {m m' : Machine} (h : Called L m m')
    (hroom : L.Room (m.reg .rsp) L.frame) {x : Word} (hvar : ¬ InRange L.mxcsr 8 x)
    (hstack : ¬ L.regions.Contains .stack x) : m'.mem x = m.mem x :=
  h.mem x hvar fun hx => hstack (hroom.contains (le_refl _) hx)

end Dryadalis.Stub
