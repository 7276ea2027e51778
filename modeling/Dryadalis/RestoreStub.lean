import Dryadalis.StubLayout

/-!
# Restoring the guest registers

The restore stub reads the state structure and writes to the host stack alone,
so every part of it loads from a memory that is the same off the stack.  The
flags come last but for the stack pointer and the jump: nothing after the
`popfq` changes a flag.

`run_restore` is for every content of the state structure.  What `popfq` does
not load at privilege level 3 stays as the processor has it.
-/

namespace Dryadalis.Stub

open ByteMem

section Restore

variable {L : Layout} {callee : Word → Machine → Machine}

/-! ## Memory to vector registers -/

def loadXmm (p : Word) (i : Fin 16) : List Code := [.movImm .rax (xmm p i), .movapsLoad i]

def loadYmm (p : Word) (i : Fin 16) : List Code := [.movImm .rax (ymm p i), .vmovupsLoad i]

theorem vecFill_vecFill (n : Nat) (v : Fin 32 → Byte) (f : Nat → Byte) :
    vecFill n (vecFill n v f) f = vecFill n v f := by
  funext j
  simp only [vecFill]
  split <;> rfl

/-- `m` after the vector register `i` is loaded with the `n` bytes at `a`. -/
def Machine.loadVec (m : Machine) (n : Nat) (a : Word) (i : Fin 16) : Machine :=
  { m with
    reg := Function.update m.reg .rax a
    vec := Function.update m.vec i (vecFill n (m.vec i) (window m.mem a)) }

variable (callee) in
theorem run_loadXmm {p : Word} (hv : L.vectors = .sse p) (m : Machine) (i : Fin 16) :
    run callee m (loadXmm p i) = some (m.loadVec 16 (xmm p i) i) := by
  have halign := xmm_aligned (L.aligned p hv) i
  simp [loadXmm, step, Machine.setReg, Machine.Aligned, Reg.fit, Reg.isSegment, halign,
    Machine.loadVec]

variable (callee) in
theorem run_loadYmm (p : Word) (m : Machine) (i : Fin 16) :
    run callee m (loadYmm p i) = some (m.loadVec 32 (ymm p i) i) := by
  simp [loadYmm, step, Machine.setReg, Reg.fit, Reg.isSegment, Machine.loadVec]

theorem run_loadVecs {text : Fin 16 → List Code} {a : Fin 16 → Word} {n : Nat}
    (hload : ∀ m i, run callee m (text i) = some (m.loadVec n (a i) i)) (is : List (Fin 16))
    (m : Machine) :
    ∃ v, run callee m (is.flatMap text) = some { m with
      reg := Function.update m.reg .rax v
      vec := fun i => if i ∈ is then vecFill n (m.vec i) (window m.mem (a i)) else m.vec i } := by
  induction is generalizing m with
  | nil => exact ⟨m.reg .rax, by simp⟩
  | cons i is ih =>
    obtain ⟨v, hv⟩ := ih (m.loadVec n (a i) i)
    refine ⟨v, ?_⟩
    rw [List.flatMap_cons, run_append_of_eq (hload m i), hv]
    have hvec : (fun j => if j ∈ is then
          vecFill n ((m.loadVec n (a i) i).vec j) (window m.mem (a j))
        else (m.loadVec n (a i) i).vec j) =
        fun j => if j ∈ i :: is then vecFill n (m.vec j) (window m.mem (a j)) else m.vec j := by
      funext j
      by_cases hj : j = i
      · subst hj
        simp [Machine.loadVec, vecFill_vecFill]
      · simp [Machine.loadVec, hj]
    simp only [Machine.loadVec, Function.update_idem] at hvec ⊢
    rw [hvec]

/-! ## Memory to registers -/

def loadReg (h : Handler) (r : Reg) : List Code := [.movabsLoad (h.field r.field), .mov r .rax]

variable (callee) in
theorem run_loadRegs (h : Handler) (rs : List Reg) (hrs : .rax ∉ rs) (m : Machine) :
    ∃ v, run callee m (rs.flatMap (loadReg h)) = some { m with
      reg := fun r =>
        if r = .rax then v
        else if r ∈ rs then r.fit (load64 m.mem (h.field r.field)) else m.reg r } := by
  induction rs generalizing m with
  | nil =>
    refine ⟨m.reg .rax, ?_⟩
    have hreg : (fun r => if r = .rax then m.reg .rax else m.reg r) = m.reg := by
      funext r
      split
      · rename_i hr
        rw [hr]
      · rfl
    simp [hreg]
  | cons r rs ih =>
    rw [List.mem_cons, not_or] at hrs
    let m₁ : Machine := { m with
      reg := Function.update (Function.update m.reg .rax (load64 m.mem (h.field r.field))) r
        (r.fit (load64 m.mem (h.field r.field))) }
    have hstep : run callee m (loadReg h r) = some m₁ := by
      have hfit : ∀ v, Reg.rax.fit v = v := fun _ => rfl
      simp [loadReg, step, Machine.setReg, hfit, m₁]
    obtain ⟨v, hv⟩ := ih hrs.2 m₁
    refine ⟨v, ?_⟩
    rw [List.flatMap_cons, run_append_of_eq hstep, hv]
    congr 2
    funext r'
    by_cases hrax : r' = .rax
    · rw [if_pos hrax, if_pos hrax]
    · rw [if_neg hrax, if_neg hrax]
      by_cases hr : r' = r
      · subst hr
        simp [m₁]
      · simp [m₁, hr, hrax]

/-! ## The texts -/

/-- The registers that the restore stub loads through `rax`. -/
def loadedRegs : List Reg :=
  [.rbx, .rcx, .rdx, .rdi, .rsi, .rbp, .es, .ss, .ds,
   .r8, .r9, .r10, .r11, .r12, .r13, .r14, .r15]

/-- The tail of the restore stub. -/
def restoreTail (h : Handler) : List Code :=
  [.movabsLoad (h.field .rsp), .push .rax, .movabsLoad (h.field .rflags), .push .rax, .popfq,
   .pop .rsp, .movabsLoad (h.field .rip), .jmp .rax]

theorem restoreXmms_eq (p : Word) : restoreXmms p = some (allVecs.flatMap (loadXmm p)) :=
  rfl

theorem restoreYmms_eq (h : Handler) (p : Word) :
    restoreYmms h p =
      some (allVecs.flatMap (loadYmm p) ++ [.movImm .rax h.restoreMxcsr, .call .rax]) :=
  rfl

/-- Every register of the restore stub is printed with its own field. -/
theorem restoreRegs_eq (h : Handler) : restoreRegs h = some (loadedRegs.flatMap (loadReg h)) :=
  rfl

theorem restoreExit_eq (h : Handler) : restoreExit h = some (restoreTail h) :=
  rfl

theorem restoreHook_eq (h : Handler) : restoreHook h = some [.movabsLoad (h.field .rax)] :=
  rfl

/-! ## The parts of the restore stub -/

/-- The vector registers of `m`, and on the AVX2 path its `MXCSR`, are those
that are stored in the memory `μ`. -/
structure VecsFrom (L : Layout) (μ : Word → Byte) (m : Machine) : Prop where
  xmm : ∀ p, L.vectors = .sse p → ∀ (i : Fin 16) (j : Fin 32), j.val < 16 →
    m.vec i j = window μ (xmm p i) j
  ymm : ∀ p, L.vectors = .avx2 p → ∀ (i : Fin 16) (j : Fin 32),
    m.vec i j = window μ (ymm p i) j
  mxcsr : ∀ p, L.vectors = .avx2 p → m.mxcsr = (load64 μ L.mxcsr).setWidth 32

theorem VecsFrom.congr {μ : Word → Byte} {m m' : Machine} (h : VecsFrom L μ m)
    (hvec : m'.vec = m.vec) (hmxcsr : m'.mxcsr = m.mxcsr) : VecsFrom L μ m' where
  xmm p hv i j hj := by rw [hvec, h.xmm p hv i j hj]
  ymm p hv i j := by rw [hvec, h.ymm p hv i j]
  mxcsr p hv := by rw [hmxcsr, h.mxcsr p hv]

theorem mem_allVecs (i : Fin 16) : i ∈ allVecs := by
  revert i
  decide

/-- `restore_mxcsr` writes to the host stack only. -/
theorem sameOff_restore (hcalls : MxcsrCalls L callee) {m : Machine}
    (hroom : L.Room (m.reg .rsp) L.frame) :
    L.SameOff m.mem (callee L.restoreMxcsr m).mem := by
  intro x hx
  by_cases hvar : InRange L.mxcsr 8 x
  · obtain ⟨i, hi, rfl⟩ := exists_of_inRange hvar
    exact load64_eq_iff.mp (hcalls.restore_variable m hroom) i hi
  · exact (hcalls.restore m hroom).off hroom hvar hx

theorem run_restoreVecs (hcalls : MxcsrCalls L callee) {text : List Code}
    (htext : restoreVecs L.toHandler = some text) {m : Machine}
    (hroom : L.Room (m.reg .rsp) L.frame) :
    ∃ m', run callee m text = some m' ∧ VecsFrom L m.mem m' ∧ L.SameOff m.mem m'.mem ∧
      KeepsRegs callerSaved m m' ∧ systemBits m'.flags.val = systemBits m.flags.val := by
  unfold restoreVecs at htext
  split at htext
  · rename_i p hv
    rw [restoreXmms_eq] at htext
    cases htext
    obtain ⟨v, hrun⟩ := run_loadVecs (run_loadXmm callee hv) allVecs m
    refine ⟨_, hrun, ⟨?_, by simp [hv], by simp [hv]⟩, Layout.SameOff.refl _, ?_, rfl⟩
    · intro q hq i j hj
      rw [hv] at hq
      cases hq
      simp [mem_allVecs, vecFill, hj]
    · intro r hr
      have hrax : r ≠ .rax := fun he => hr (he ▸ by decide)
      simp [hrax]
  · rename_i p hv
    rw [restoreYmms_eq] at htext
    cases htext
    obtain ⟨v, hrun⟩ := run_loadVecs (run_loadYmm callee p) allVecs m
    -- the machine that calls `restore_mxcsr`
    let m₁ : Machine := { m with
      reg := Function.update m.reg .rax L.restoreMxcsr
      vec := fun i => vecFill 32 (m.vec i) (window m.mem (ymm p i)) }
    have hroom₁ : L.Room (m₁.reg .rsp) L.frame := by simpa [m₁] using hroom
    have hcalled := hcalls.restore m₁ hroom₁
    have hcall : run callee m (allVecs.flatMap (loadYmm p) ++
        [.movImm .rax L.restoreMxcsr, .call .rax]) = some (callee L.restoreMxcsr m₁) := by
      rw [run_append_of_eq hrun]
      simp [step, Machine.setReg, Reg.fit, Reg.isSegment, mem_allVecs, m₁]
    refine ⟨callee L.restoreMxcsr m₁, hcall, ⟨by simp [hv], ?_, ?_⟩,
      sameOff_restore hcalls hroom₁, ?_, hcalled.system⟩
    · intro q hq i j
      rw [hv] at hq
      cases hq
      rw [hcalled.vec]
      simp [m₁, vecFill]
    · exact fun _ _ => hcalls.restore_mxcsr m₁ hroom₁
    · intro r hr
      have hrax : r ≠ .rax := fun he => hr (he ▸ by decide)
      rw [hcalled.regs r hr]
      simp [m₁, hrax]
  · cases htext
  · rename_i hv
    cases htext
    exact ⟨m, rfl, ⟨by simp [hv], by simp [hv], by simp [hv]⟩, Layout.SameOff.refl _,
      fun _ _ => rfl, rfl⟩

variable (callee) in
/-- The tail takes the flags and the stack pointer off the host stack and goes
on at the address in the `rip` field. -/
theorem run_restoreTail {m : Machine} (hroom : L.Room (m.reg .rsp) 16) :
    ∃ m', run callee m (restoreTail L.toHandler) = some m' ∧
      m'.reg .rsp = load64 m.mem (L.field .rsp) ∧ KeepsRegs [.rax, .rsp] m m' ∧
      m'.flags = m.flags.load (load64 m.mem (L.field .rflags)) ∧
      m'.rip = load64 m.mem (L.field .rip) ∧ L.SameOff m.mem m'.mem ∧
      m'.vec = m.vec ∧ m'.mxcsr = m.mxcsr := by
  let rsp := load64 m.mem (L.field .rsp)
  let rflags := load64 m.mem (L.field .rflags)
  let rip := load64 m.mem (L.field .rip)
  -- the two pushes
  let m₁ : Machine := { m with reg := Function.update m.reg .rax rsp }
  let m₂ := m₁.push rsp
  let m₃ : Machine := { m₂ with reg := Function.update m₂.reg .rax rflags }
  let m₄ := m₃.push rflags
  have hsp₁ : m₁.reg .rsp = m.reg .rsp := by simp [m₁]
  have hsp₃ : m₃.reg .rsp = m.reg .rsp - 8 := by simp [m₃, m₂, Machine.push, hsp₁]
  have hroom₁ : L.Room (m₁.reg .rsp) 8 := by
    rw [hsp₁]
    exact hroom.mono (by decide)
  have hroom₃ : L.Room (m₃.reg .rsp) 8 := by
    rw [hsp₃]
    exact hroom.sub (k := 8) (by decide)
  have hoff₂ : L.SameOff m.mem m₂.mem := sameOff_push rsp hroom₁
  have hoff₄ : L.SameOff m.mem m₄.mem := hoff₂.trans (sameOff_push rflags hroom₃)
  have hrflags : load64 m₂.mem (L.field .rflags) = rflags := hoff₂.load64_field .rflags
  have hrip : load64 m₄.mem (L.field .rip) = rip := hoff₄.load64_field .rip
  -- the two pops: the second word is still under the first one
  let m₅ : Machine := { m₃ with mem := m₄.mem, flags := m.flags.load rflags }
  have htop : m₅.top = rsp :=
    calc m₅.top = load64 m₄.mem (m₃.reg .rsp) := rfl
      _ = m₃.top := Machine.load64_push m₃ rflags
      _ = m₂.top := by simp [Machine.top, m₃]
      _ = rsp := Machine.top_push m₁ rsp
  let m₆ : Machine := { m₅ with
    reg := Function.update (Function.update m₅.reg .rsp rsp) .rax rip
    rip := rip }
  have hrun₂ : run callee m [.movabsLoad (L.field .rsp), .push .rax] = some m₂ := by
    have hrax : m₁.reg .rax = rsp := by simp [m₁]
    calc run callee m [.movabsLoad (L.field .rsp), .push .rax]
        = some (m₁.push (m₁.reg .rax)) := rfl
      _ = some m₂ := by rw [hrax]
  have hrun₄ : run callee m₂ [.movabsLoad (L.field .rflags), .push .rax] = some m₄ := by
    have hload : m₂.setReg .rax (load64 m₂.mem (L.field .rflags)) = m₃ := by
      rw [hrflags]
      rfl
    have hrax : m₃.reg .rax = rflags := by simp [m₃]
    calc run callee m₂ [.movabsLoad (L.field .rflags), .push .rax]
        = run callee (m₂.setReg .rax (load64 m₂.mem (L.field .rflags))) [.push .rax] := rfl
      _ = some (m₃.push (m₃.reg .rax)) := by
          rw [hload]
          rfl
      _ = some m₄ := by rw [hrax]
  have hrun₅ : run callee m₄ [.popfq] = some m₅ := by
    have hdrop : m₄.drop = { m₃ with mem := m₄.mem } := Machine.drop_push m₃ rflags
    have htop₄ : m₄.top = rflags := Machine.top_push m₃ rflags
    calc run callee m₄ [.popfq]
        = some { m₄.drop with flags := m₄.flags.load m₄.top } := rfl
      _ = some m₅ := by
          rw [hdrop, htop₄]
          rfl
  have hrun₆ : run callee m₅ [.pop .rsp, .movabsLoad (L.field .rip), .jmp .rax] = some m₆ := by
    have hpop : m₅.drop.setReg .rsp m₅.top =
        { m₅ with reg := Function.update m₅.reg .rsp rsp } := by
      rw [htop]
      simp [Machine.setReg, Machine.drop, Reg.fit, Reg.isSegment]
    have hload : load64 m₅.mem (L.field .rip) = rip := hrip
    calc run callee m₅ [.pop .rsp, .movabsLoad (L.field .rip), .jmp .rax]
        = run callee (m₅.drop.setReg .rsp m₅.top) [.movabsLoad (L.field .rip), .jmp .rax] := rfl
      _ = some m₆ := by
          rw [hpop]
          simp [step, Machine.setReg, Reg.fit, Reg.isSegment, hload, m₆]
  refine ⟨m₆, ?_, ?_, ?_, rfl, rfl, hoff₄, rfl, rfl⟩
  · calc run callee m (restoreTail L.toHandler)
        = run callee m₂ [.movabsLoad (L.field .rflags), .push .rax, .popfq, .pop .rsp,
            .movabsLoad (L.field .rip), .jmp .rax] := run_append_of_eq hrun₂
      _ = run callee m₄ [.popfq, .pop .rsp, .movabsLoad (L.field .rip), .jmp .rax] :=
          run_append_of_eq hrun₄
      _ = run callee m₅ [.pop .rsp, .movabsLoad (L.field .rip), .jmp .rax] :=
          run_append_of_eq hrun₅
      _ = some m₆ := hrun₆
  · simp [m₆, rsp]
  · intro r hr
    simp only [List.mem_cons, List.not_mem_nil, or_false, not_or] at hr
    simp [m₆, m₅, m₃, m₂, m₁, Machine.push, hr.1, hr.2]

/-! ## From the dispatcher to the block -/

/-- The processor `m'` holds what the memory of `m` has in the state structure:
the general registers, three of the selectors, the flags that `popfq` loads, the
vector registers of the active path, and the address that the stub jumps to. -/
structure Restored (L : Layout) (m m' : Machine) : Prop where
  reg : ∀ r : Reg, r.isSegment = false → m'.reg r = load64 m.mem (L.field r.field)
  selector : ∀ r ∈ [Reg.es, Reg.ss, Reg.ds], m'.reg r = load64 m.mem (L.field r.field) &&& 0xFFFF
  kept : ∀ r ∈ [Reg.cs, Reg.gs, Reg.fs], m'.reg r = m.reg r
  flags : m'.flags.val =
    (load64 m.mem (L.field .rflags) &&& userFlags) ||| systemBits m.flags.val
  vecs : VecsFrom L m.mem m'
  rip : m'.rip = load64 m.mem (L.field .rip)

theorem mem_loadedRegs {r : Reg} (hseg : r.isSegment = false) :
    r ∈ Reg.rax :: Reg.rsp :: loadedRegs := by
  cases r <;> first | decide | cases hseg

theorem exists_restoreVecs {h : Handler} (hvecs : ∀ p, h.vectors ≠ .avx512 p) :
    ∃ text, restoreVecs h = some text := by
  unfold restoreVecs
  split
  · exact ⟨_, restoreXmms_eq _⟩
  · exact ⟨_, restoreYmms_eq _ _⟩
  · rename_i p hv
    exact absurd hv (hvecs p)
  · exact ⟨[], rfl⟩

theorem restore_of_run {h : Handler} {m m₀ m₁ : Machine} {hook stub : List Code}
    (hstub : craftRestoreStub h = some stub) (hhook : restoreHook h = some hook)
    (hrun₀ : run callee m stub = some m₀) (hrun₁ : run callee m₀ hook = some m₁) :
    restore callee h m = some m₁ := by
  simp only [restore, hhook, hstub, hrun₀, hrun₁, Option.bind_eq_bind, Option.bind_some]

variable (callee) in
/-- The stub from the registers on, and the hook. -/
theorem run_restoreRegs {m : Machine} (hroom : L.Room (m.reg .rsp) 16) :
    ∃ m₃ m', run callee m (loadedRegs.flatMap (loadReg L.toHandler) ++ restoreTail L.toHandler) =
        some m₃ ∧
      run callee m₃ [.movabsLoad (L.field .rax)] = some m' ∧
      (∀ r ∈ .rax :: .rsp :: loadedRegs,
        m'.reg r = r.fit (load64 m.mem (L.field r.field))) ∧
      KeepsRegs (.rax :: .rsp :: loadedRegs) m m' ∧
      m'.flags = m.flags.load (load64 m.mem (L.field .rflags)) ∧
      m'.rip = load64 m.mem (L.field .rip) ∧ L.SameOff m.mem m'.mem ∧
      m'.vec = m.vec ∧ m'.mxcsr = m.mxcsr := by
  obtain ⟨v, hrun₂⟩ := run_loadRegs callee L.toHandler loadedRegs (by decide) m
  let m₂ : Machine := { m with
    reg := fun r =>
      if r = .rax then v
      else if r ∈ loadedRegs then r.fit (load64 m.mem (L.field r.field)) else m.reg r }
  have hloaded : ∀ r ∈ loadedRegs, r ≠ .rax →
      m₂.reg r = r.fit (load64 m.mem (L.field r.field)) := by
    intro r hr hrax
    simp only [m₂, hrax, hr, if_false, if_true]
  have hkept : ∀ r, r ≠ .rax → r ∉ loadedRegs → m₂.reg r = m.reg r := by
    intro r hrax hr
    simp only [m₂, hrax, hr, if_false]
  have hroom₂ : L.Room (m₂.reg .rsp) 16 := by
    rw [hkept .rsp (by decide) (by decide)]
    exact hroom
  obtain ⟨m₃, hrun₃, hrsp₃, hregs₃, hflags₃, hrip₃, hoff₃, hvec₃, hmxcsr₃⟩ :=
    run_restoreTail callee hroom₂
  -- the hook
  let m₄ : Machine := { m₃ with
    reg := Function.update m₃.reg .rax (load64 m₃.mem (L.field .rax)) }
  have hrun₄ : run callee m₃ [.movabsLoad (L.field .rax)] = some m₄ := by
    simp [step, Machine.setReg, Reg.fit, Reg.isSegment, m₄]
  have hfinal : ∀ r, r ≠ .rax → r ≠ .rsp → m₄.reg r = m₂.reg r := by
    intro r hrax hrsp
    simp only [m₄, ne_eq, hrax, not_false_eq_true, Function.update_of_ne]
    exact hregs₃ r (by simp [hrax, hrsp])
  refine ⟨m₃, m₄, ?_, hrun₄, ?_, ?_, hflags₃, hrip₃, hoff₃, hvec₃, hmxcsr₃⟩
  · rw [run_append_of_eq hrun₂, hrun₃]
  · intro r hr
    by_cases hrax : r = .rax
    · subst hrax
      simp only [m₄, Function.update_self]
      exact hoff₃.load64_field .rax
    · by_cases hsp : r = .rsp
      · subst hsp
        simp only [m₄, ne_eq, reduceCtorEq, not_false_eq_true, Function.update_of_ne]
        exact hrsp₃
      · have hin : r ∈ loadedRegs := by simpa [hrax, hsp] using hr
        rw [hfinal r hrax hsp, hloaded r hin hrax]
  · intro r hr
    simp only [List.mem_cons, not_or] at hr
    rw [hfinal r hr.1 hr.2.1, hkept r hr.1 hr.2.2]

/-- The restore stub and the restore hook, for any content of the state
structure. -/
theorem run_restore (hcalls : MxcsrCalls L callee) (hvecs : ∀ p, L.vectors ≠ .avx512 p)
    {m : Machine} (hroom : L.Room (m.reg .rsp) L.frame) :
    ∃ m', restore callee L.toHandler m = some m' ∧ Restored L m m' ∧
      L.SameOff m.mem m'.mem := by
  obtain ⟨text, htext⟩ := exists_restoreVecs hvecs
  obtain ⟨m₁, hrun₁, hvecs₁, hoff₁, hregs₁, hsys₁⟩ := run_restoreVecs hcalls htext hroom
  have hroom₁ : L.Room (m₁.reg .rsp) 16 := by
    rw [hregs₁ .rsp (by decide)]
    exact hroom.mono L.two_words_le
  -- the rest reads a memory that is the same off the stack
  obtain ⟨m₃, m₄, hrun₃, hrun₄, hloaded, hkept, hflags, hrip, hoff₄, hvec, hmxcsr⟩ :=
    run_restoreRegs callee hroom₁
  have hstub : craftRestoreStub L.toHandler =
      some (text ++ (loadedRegs.flatMap (loadReg L.toHandler) ++ restoreTail L.toHandler)) := by
    simp only [craftRestoreStub, htext, restoreRegs_eq, restoreExit_eq, Option.bind_eq_bind,
      Option.bind_some, List.append_assoc, pure]
  have hrun : run callee m
      (text ++ (loadedRegs.flatMap (loadReg L.toHandler) ++ restoreTail L.toHandler)) =
        some m₃ := by
    rw [run_append_of_eq hrun₁, hrun₃]
  have hvalue : ∀ r ∈ .rax :: .rsp :: loadedRegs,
      m₄.reg r = r.fit (load64 m.mem (L.field r.field)) := by
    intro r hr
    rw [hloaded r hr, hoff₁.load64_field]
  refine ⟨m₄, restore_of_run hstub (restoreHook_eq L.toHandler) hrun hrun₄, ?_,
    hoff₁.trans hoff₄⟩
  refine ⟨?_, ?_, ?_, ?_, hvecs₁.congr hvec hmxcsr, ?_⟩
  · intro r hseg
    rw [hvalue r (mem_loadedRegs hseg), Reg.fit, hseg]
    simp
  · intro r hr
    have hin : r ∈ Reg.rax :: Reg.rsp :: loadedRegs ∧ r.isSegment = true := by
      revert r
      decide
    rw [hvalue r hin.1, Reg.fit, if_pos hin.2]
  · intro r hr
    have hout : r ∉ Reg.rax :: Reg.rsp :: loadedRegs ∧ r ∉ callerSaved := by
      revert r
      decide
    rw [hkept r hout.1, hregs₁ r hout.2]
  · rw [hflags]
    change (load64 m₁.mem (L.field .rflags) &&& userFlags) ||| systemBits m₁.flags.val = _
    rw [hoff₁.load64_field, hsys₁]
  · rw [hrip]
    exact hoff₁.load64_field .rip

end Restore

end Dryadalis.Stub
