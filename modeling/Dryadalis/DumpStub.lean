import Dryadalis.StubLayout

/-!
# Saving the guest registers

The dump hook and the dump stub move some forty registers through `rax` and a
borrowed stack.  Each part of them is a list of writes to slots, and to the host
stack (`Wrote`), so that reading a field back at the end is one use of
`window_writeAll`: `dumpWrites_apart` says that no slot is written twice.

`run_dump` goes from the hooked instruction to the dispatcher, and
`Wrote.recorded` reads the state structure there.
-/

namespace Dryadalis.Stub

open ByteMem

section Run

variable {callee : Word → Machine → Machine}

/-! ## Registers to memory -/

/-- The two instructions that store a register. -/
def storeReg (h : Handler) (r : Reg) : List Code :=
  [.mov .rax r, .movabsStore (h.field r.field)]

/-- The block that `storeReg` writes. -/
def regBlock (m : Machine) (r : Reg) : Slot Region × (Nat → Byte) :=
  (fieldSlot r.field, byteOf (m.reg r))

variable (callee) in
theorem run_storeRegs (L : Layout) (rs : List Reg) (hrs : .rax ∉ rs) (m : Machine) :
    ∃ v, run callee m (rs.flatMap (storeReg L.toHandler)) = some { m with
      reg := Function.update m.reg .rax v
      mem := L.regions.writeAll m.mem (rs.map (regBlock m)) } := by
  induction rs generalizing m with
  | nil => exact ⟨m.reg .rax, by simp⟩
  | cons r rs ih =>
    rw [List.mem_cons, not_or] at hrs
    -- the machine after the first register
    have hstep : run callee m (storeReg L.toHandler r) = some { m with
        reg := Function.update m.reg .rax (m.reg r)
        mem := store64 m.mem (L.field r.field) (m.reg r) } := by
      simp [storeReg, step, Machine.setReg, Reg.fit, Reg.isSegment]
    obtain ⟨v, hv⟩ := ih hrs.2 { m with
      reg := Function.update m.reg .rax (m.reg r)
      mem := store64 m.mem (L.field r.field) (m.reg r) }
    have hblocks : rs.map (regBlock { m with
        reg := Function.update m.reg .rax (m.reg r)
        mem := store64 m.mem (L.field r.field) (m.reg r) }) = rs.map (regBlock m) := by
      apply List.map_congr_left
      intro r' hr'
      have hne : r' ≠ .rax := fun he => hrs.2 (he ▸ hr')
      simp [regBlock, hne]
    refine ⟨v, ?_⟩
    rw [List.flatMap_cons, run_append_of_eq hstep, hv, hblocks, Function.update_idem]
    rfl

/-! ## Vector registers to memory -/

/-- The instructions that store one register on the SSE path. -/
def storeXmm (p : Word) (i : Fin 16) : List Code :=
  if i = vec0 then [.movImm .rax (xmm p i), .movapsStore vec0]
  else [.movImm .rax (xmm p i), .movaps vec0 i, .movapsStore vec0]

/-- The instructions that store one register on the AVX2 path. -/
def storeYmm (p : Word) (i : Fin 16) : List Code :=
  [.movImm .rax (ymm p i), .vmovupsStore i]

/-- What storing the vector register `i` in the slot `s` does.  `xmm0` may be
lost, since the SSE path moves the others through it. -/
structure StoredVec (L : Layout) (s : Slot Region) (i : Fin 16) (m m' : Machine) : Prop where
  mem : m'.mem = patch m.mem (L.regions.addr s) 0 s.len (vecBytes (m.vec i))
  vec : ∀ j, j ≠ vec0 → m'.vec j = m.vec j
  regs : KeepsRegs [.rax] m m'
  cpu : SameCpu m m'

theorem vecBytes_vecFill {n k : Nat} (v : Fin 32 → Byte) (f : Nat → Byte) (hk : k < n)
    (hn : n ≤ 32) : vecBytes (vecFill n v f) k = f k := by
  have hval : (Fin.ofNat 32 k).val = k := Nat.mod_eq_of_lt (by omega)
  rw [vecBytes, vecFill, hval, if_pos hk]

variable (callee) in
theorem run_storeXmm (L : Layout) {p : Word} (hv : L.vectors = .sse p) (m : Machine)
    (i : Fin 16) :
    ∃ m', run callee m (storeXmm p i) = some m' ∧ StoredVec L (xmmSlot i) i m m' := by
  have halign := xmm_aligned (L.aligned p hv) i
  have hreg : KeepsRegs [.rax] m (m.setReg .rax (xmm p i)) := by
    intro r hr
    rw [List.mem_singleton] at hr
    simp [Machine.setReg, hr]
  by_cases hi : i = vec0
  · subst hi
    refine ⟨{ m.setReg .rax (xmm p vec0) with
      mem := patch m.mem (xmm p vec0) 0 16 (vecBytes (m.vec vec0)) }, ?_, ?_, ?_, hreg, rfl, rfl⟩
    · simp [storeXmm, step, Machine.setReg, Machine.Aligned, Reg.fit, Reg.isSegment, halign]
    · rw [addr_xmmSlot hv]
      rfl
    · exact fun _ _ => rfl
  · refine ⟨{ m.setReg .rax (xmm p i) with
      vec := Function.update m.vec vec0 (vecFill 16 (m.vec vec0) (vecBytes (m.vec i)))
      mem := patch m.mem (xmm p i) 0 16 (vecBytes (m.vec i)) }, ?_, ?_, ?_, hreg, rfl, rfl⟩
    · have hpatch := patch_congr (m := m.mem) (a := xmm p i) (n := 16)
        fun _ hk => vecBytes_vecFill (m.vec vec0) (vecBytes (m.vec i)) hk (by decide)
      simp [storeXmm, hi, step, Machine.setReg, Machine.Aligned, Reg.fit, Reg.isSegment, halign,
        hpatch]
    · rw [addr_xmmSlot hv]
      rfl
    · exact fun j hj => Function.update_of_ne hj _ _

variable (callee) in
theorem run_storeYmm (L : Layout) {p : Word} (hv : L.vectors = .avx2 p) (m : Machine)
    (i : Fin 16) :
    ∃ m', run callee m (storeYmm p i) = some m' ∧ StoredVec L (ymmSlot i) i m m' := by
  refine ⟨{ m.setReg .rax (ymm p i) with
    mem := patch m.mem (ymm p i) 0 32 (vecBytes (m.vec i)) }, ?_, ?_, ?_, ?_, rfl, rfl⟩
  · simp [storeYmm, step, Machine.setReg, Reg.fit, Reg.isSegment]
  · rw [addr_ymmSlot hv]
    rfl
  · exact fun _ _ => rfl
  · intro r hr
    rw [List.mem_singleton] at hr
    simp [Machine.setReg, hr]

/-- The block of a vector register. -/
def vecBlock (slot : Fin 16 → Slot Region) (m : Machine) (i : Fin 16) :
    Slot Region × (Nat → Byte) :=
  (slot i, vecBytes (m.vec i))

variable {L : Layout} {text : Fin 16 → List Code} {slot : Fin 16 → Slot Region}

theorem run_storeHighVecs
    (hstore : ∀ m i, ∃ m', run callee m (text i) = some m' ∧ StoredVec L (slot i) i m m')
    (is : List (Fin 16)) (h0 : vec0 ∉ is) (m : Machine) :
    ∃ m', run callee m (is.flatMap text) = some m' ∧
      m'.mem = L.regions.writeAll m.mem (is.map (vecBlock slot m)) ∧
      KeepsRegs [.rax] m m' ∧ SameCpu m m' := by
  induction is generalizing m with
  | nil => exact ⟨m, rfl, rfl, fun _ _ => rfl, rfl, rfl⟩
  | cons i is ih =>
    rw [List.mem_cons, not_or] at h0
    obtain ⟨m₁, hrun₁, hst⟩ := hstore m i
    obtain ⟨m₂, hrun₂, hmem, hregs, hcpu⟩ := ih h0.2 m₁
    have hblocks : is.map (vecBlock slot m₁) = is.map (vecBlock slot m) := by
      apply List.map_congr_left
      intro j hj
      have hne : j ≠ vec0 := fun he => h0.2 (he ▸ hj)
      rw [vecBlock, hst.vec j hne, vecBlock]
    refine ⟨m₂, ?_, ?_, hst.regs.trans hregs, hst.cpu.trans hcpu⟩
    · rw [List.flatMap_cons, run_append_of_eq hrun₁, hrun₂]
    · rw [hmem, hblocks, hst.mem]
      rfl

/-- All sixteen registers, the first of them before the others may be lost. -/
theorem run_storeVecs
    (hstore : ∀ m i, ∃ m', run callee m (text i) = some m' ∧ StoredVec L (slot i) i m m')
    (m : Machine) :
    ∃ m', run callee m (allVecs.flatMap text) = some m' ∧
      m'.mem = L.regions.writeAll m.mem (allVecs.map (vecBlock slot m)) ∧
      KeepsRegs [.rax] m m' ∧ SameCpu m m' := by
  obtain ⟨m₁, hrun₁, hst⟩ := hstore m vec0
  obtain ⟨m₂, hrun₂, hmem, hregs, hcpu⟩ :=
    run_storeHighVecs hstore highVecs (by decide) m₁
  have hblocks : highVecs.map (vecBlock slot m₁) = highVecs.map (vecBlock slot m) := by
    apply List.map_congr_left
    intro j hj
    have hne : j ≠ vec0 := by
      rintro rfl
      exact absurd hj (by decide)
    rw [vecBlock, hst.vec j hne, vecBlock]
  refine ⟨m₂, ?_, ?_, hst.regs.trans hregs, hst.cpu.trans hcpu⟩
  · rw [allVecs, List.flatMap_cons, run_append_of_eq hrun₁, hrun₂]
  · rw [hmem, hblocks, hst.mem]
    rfl

end Run

/-! ## What the dump stub writes -/

/-- The memory of `m'` is that of `m` after the writes `ws`, off the host stack. -/
def Wrote (L : Layout) (ws : List (Slot Region × (Nat → Byte))) (m m' : Machine) : Prop :=
  L.SameOff (L.regions.writeAll m.mem ws) m'.mem

section Wrote

variable {L : Layout} {m m' m'' : Machine} {ws vs : List (Slot Region × (Nat → Byte))}

theorem Wrote.of_eq (h : m'.mem = L.regions.writeAll m.mem ws) : Wrote L ws m m' := by
  rw [Wrote, h]
  exact Layout.SameOff.refl _

theorem Wrote.trans (h : Wrote L ws m m') (h' : Wrote L vs m' m'') :
    Wrote L (ws ++ vs) m m'' := by
  intro x hx
  rw [h' x hx, Regions.writeAll_append]
  exact Regions.writeAll_congr vs (h x hx)

/-- The writes that lead from one machine to another, read back. -/
theorem Wrote.window_eq (h : Wrote L ws m m') (hfits : ∀ p ∈ ws, L.regions.Fits p.1)
    (hapart : (ws.map Prod.fst).Pairwise Slot.Apart) {p : Slot Region × (Nat → Byte)}
    (hp : p ∈ ws) (hne : p.1.region ≠ .stack) {i : Nat} (hi : i < p.1.len) :
    window m'.mem (L.regions.addr p.1) i = p.2 i := by
  rw [Layout.SameOff.window_eq h (hfits p hp) hne hi]
  exact Regions.window_writeAll hfits hapart hp hi

/-- The guest's memory is as it was. -/
theorem Wrote.guest (h : Wrote L ws m m') (hfits : ∀ p ∈ ws, L.regions.Fits p.1) {x : Word}
    (hx : L.Guest x) : m'.mem x = m.mem x := by
  rw [h x (hx .stack)]
  apply Regions.writeAll_of_not_inRange
  intro p hp hin
  exact hx p.1.region (Regions.Fits.contains (hfits p hp) hin)

/-- A write to one field. -/
theorem Wrote.store {f : Field} {v : Word} (h : m'.mem = store64 m.mem (L.field f) v) :
    Wrote L [(fieldSlot f, byteOf v)] m m' :=
  Wrote.of_eq h

theorem wrote_push (v : Word) (hroom : L.Room (m.reg .rsp) 8) : Wrote L [] m (m.push v) :=
  sameOff_push v hroom

end Wrote

/-! ## The texts -/

/-- The head of the dump stub, up to the flags. -/
def dumpHead (h : Handler) : List Code :=
  [.mov .rax .rsp, .movabsStore (h.field .rsp), .movImm .rsp h.hostRsp, .pushfq, .pop .rax,
   .movabsStore (h.field .rflags)]

/-- The registers that the dump stub moves through `rax`. -/
def dumpedRegs : List Reg :=
  [.rbx, .rcx, .rdx, .rsi, .rdi, .rbp, .es, .gs, .fs, .cs, .ss, .ds,
   .r8, .r9, .r10, .r11, .r12, .r13, .r14, .r15]

/-- The tail of the dump stub. -/
def dumpTail (h : Handler) : List Code :=
  [.movImm .rdi h.sBinary, .movImm .rax h.dispatcher, .pushImm 0, .push .rax,
   .movabsLoad h.currHook, .movabsStore (h.field .rip), .ret]

theorem dumpHook_eq (h : Handler) :
    dumpHook h = some [.movabsStore (h.field .rax), .movImm .rax STUB_ADDR_DUMP, .jmp .rax] :=
  rfl

/-- Every register of the dump stub is printed with its own field. -/
theorem dumpRegs_eq (h : Handler) :
    dumpRegs h = some (dumpHead h ++ dumpedRegs.flatMap (storeReg h)) :=
  rfl

theorem dumpXmms_eq (p : Word) : dumpXmms p = some (allVecs.flatMap (storeXmm p)) :=
  rfl

theorem dumpYmms_eq (h : Handler) (p : Word) :
    dumpYmms h p =
      some ([.movImm .rax h.saveMxcsr, .call .rax] ++ allVecs.flatMap (storeYmm p)) :=
  rfl

theorem dumpExit_eq (h : Handler) : dumpExit h = some (dumpTail h) :=
  rfl

/-! ## From the hook to the dispatcher -/

section Dump

variable {L : Layout} {callee : Word → Machine → Machine}

variable (callee) in
/-- The head stores the stack pointer and the flags and moves to the host stack. -/
theorem run_dumpHead (m : Machine) :
    ∃ m', run callee m (dumpHead L.toHandler) = some m' ∧
      Wrote L [(fieldSlot .rsp, byteOf (m.reg .rsp)), (fieldSlot .rflags, byteOf m.flags.val)]
        m m' ∧
      m'.reg .rsp = L.hostRsp ∧ KeepsRegs [.rax, .rsp] m m' ∧ m'.vec = m.vec ∧ SameCpu m m' := by
  -- on the host stack, with the guest's `rsp` stored
  let m₁ : Machine := { m with
    reg := Function.update (Function.update m.reg .rax (m.reg .rsp)) .rsp L.hostRsp
    mem := store64 m.mem (L.field .rsp) (m.reg .rsp) }
  let m₂ : Machine := { m₁ with
    reg := Function.update m₁.reg .rax m.flags.val
    mem := store64 (m₁.push m.flags.val).mem (L.field .rflags) m.flags.val }
  have hstored : Wrote L [(fieldSlot .rsp, byteOf (m.reg .rsp))] m m₁ := Wrote.store rfl
  have hpushed : Wrote L [] m₁ (m₁.push m.flags.val) :=
    wrote_push m.flags.val (Layout.room_hostRsp.mono (by decide))
  have hflags : Wrote L [(fieldSlot .rflags, byteOf m.flags.val)] (m₁.push m.flags.val) m₂ :=
    Wrote.store rfl
  refine ⟨m₂, ?_, (hstored.trans hpushed).trans hflags, ?_, ?_, rfl, rfl, rfl⟩
  · simp [dumpHead, step, m₁, m₂, Machine.setReg, Reg.fit, Reg.isSegment]
  · simp [m₁, m₂]
  · intro r hr
    simp only [List.mem_cons, List.not_mem_nil, or_false, not_or] at hr
    simp [m₁, m₂, hr.1, hr.2]

variable (callee) in
/-- The tail records the address of the hook and returns into the dispatcher. -/
theorem run_dumpTail {m : Machine} (hsp : m.reg .rsp = L.hostRsp) :
    ∃ m', run callee m (dumpTail L.toHandler) = some m' ∧
      Wrote L [(fieldSlot .rip, byteOf (load64 m.mem L.currHook))] m m' ∧
      m'.rip = L.dispatcher ∧ m'.reg .rdi = L.sBinary ∧ m'.reg .rsp = L.hostRsp - 8 ∧
      SameCpu m m' := by
  let m₁ : Machine := { m with
    reg := Function.update (Function.update m.reg .rdi L.sBinary) .rax L.dispatcher }
  let m₂ := m₁.push 0
  let m₃ := m₂.push L.dispatcher
  have hsp₁ : m₁.reg .rsp = L.hostRsp := by simp [m₁, hsp]
  have hsp₂ : m₂.reg .rsp = L.hostRsp - 8 := by simp [m₂, Machine.push, hsp₁]
  have hroom₂ : L.Room (L.hostRsp - 8) 8 :=
    (Layout.room_hostRsp.sub (k := 8) (by decide)).mono (by decide)
  have hroom₁ : L.Room (m₁.reg .rsp) 8 := by
    rw [hsp₁]
    exact Layout.room_hostRsp.mono (by decide)
  have hpushed₁ : Wrote L [] m₁ m₂ := wrote_push 0 hroom₁
  have hpushed₂ : Wrote L [] m₂ m₃ := by
    apply wrote_push
    rw [hsp₂]
    exact hroom₂
  have hpushed : Wrote L [] m₁ m₃ := hpushed₁.trans hpushed₂
  have hhook : load64 m₃.mem L.currHook = load64 m.mem L.currHook := hpushed.load64_currHook
  -- the last store leaves the return address that was pushed
  let m₄ : Machine := { m₃ with
    reg := Function.update m₃.reg .rax (load64 m.mem L.currHook)
    mem := store64 m₃.mem (L.field .rip) (load64 m.mem L.currHook) }
  have hstored : Wrote L [(fieldSlot .rip, byteOf (load64 m.mem L.currHook))] m₃ m₄ :=
    Wrote.store rfl
  have htop : m₄.top = L.dispatcher := by
    have hsp₃ : m₃.reg .rsp = L.hostRsp - 8 - 8 := by simp [m₃, Machine.push, hsp₂]
    have htop₃ : m₃.top = L.dispatcher := Machine.top_push m₂ L.dispatcher
    rw [Machine.top, hsp₃] at htop₃
    simp only [Machine.top, m₄, ne_eq, reduceCtorEq, not_false_eq_true, Function.update_of_ne]
    rw [hsp₃, store64, load64_patch_of_disjoint (hroom₂.disjoint_field .rip), htop₃]
  have hrun₁ : run callee m [.movImm .rdi L.sBinary, .movImm .rax L.dispatcher] = some m₁ := by
    simp [step, Machine.setReg, Reg.fit, Reg.isSegment, m₁]
  have hrun₃ : run callee m₁ [.pushImm 0, .push .rax] = some m₃ := by
    have hrax : m₂.reg .rax = L.dispatcher := by simp [m₂, Machine.push, m₁]
    calc run callee m₁ [.pushImm 0, .push .rax] = some (m₂.push (m₂.reg .rax)) := rfl
      _ = some m₃ := by rw [hrax]
  have hrun₄ : run callee m₃ [.movabsLoad L.currHook, .movabsStore (L.field .rip), .ret] =
      some { m₄.drop with rip := m₄.top } := by
    simp [step, Machine.setReg, Reg.fit, Reg.isSegment, hhook, m₄]
  refine ⟨{ m₄.drop with rip := m₄.top }, ?_, hpushed.trans hstored, htop, ?_, ?_, rfl, rfl⟩
  · calc run callee m (dumpTail L.toHandler)
        = run callee m₁ [.pushImm 0, .push .rax, .movabsLoad L.currHook,
            .movabsStore (L.field .rip), .ret] := run_append_of_eq hrun₁
      _ = run callee m₃ [.movabsLoad L.currHook, .movabsStore (L.field .rip), .ret] :=
          run_append_of_eq hrun₃
      _ = some { m₄.drop with rip := m₄.top } := hrun₄
  · simp [Machine.drop, m₄, m₃, m₂, m₁, Machine.push]
  · simp [Machine.drop, m₄, m₃, Machine.push, hsp₂]

/-- What the vector part writes: on the AVX2 path the `MXCSR` variable comes
first. -/
def vecWrites (h : Handler) (m : Machine) : List (Slot Region × (Nat → Byte)) :=
  match h.vectors with
  | .sse _ => allVecs.map (vecBlock xmmSlot m)
  | .avx2 _ =>
    (mxcsrSlot, byteOf (m.mxcsr.setWidth 64)) :: allVecs.map (vecBlock ymmSlot m)
  | _ => []

theorem wrote_save (hcalls : MxcsrCalls L callee) {m : Machine}
    (hroom : L.Room (m.reg .rsp) L.frame) :
    Wrote L [(mxcsrSlot, byteOf (m.mxcsr.setWidth 64))] m (callee L.saveMxcsr m) := by
  intro x hx
  rw [Regions.writeAll_cons, Regions.writeAll_nil, addr_mxcsrSlot]
  change _ = patch m.mem L.mxcsr 0 8 (byteOf (m.mxcsr.setWidth 64)) x
  by_cases hvar : InRange L.mxcsr 8 x
  · have hword := hcalls.save_variable m hroom
    obtain ⟨i, hi, rfl⟩ := exists_of_inRange hvar
    rw [patch_of_inRange hvar, dist_add (by omega), ← hword, byteOf_load64 _ _ hi, window]
  · rw [patch_of_not_inRange hvar]
    exact (hcalls.save m hroom).off hroom hvar hx

/-- The vector part, which leaves the stack pointer where it was. -/
theorem run_dumpVecs (hcalls : MxcsrCalls L callee) {text : List Code}
    (htext : dumpVecs L.toHandler = some text) {m : Machine}
    (hroom : L.Room (m.reg .rsp) L.frame) :
    ∃ m', run callee m text = some m' ∧ Wrote L (vecWrites L.toHandler m) m m' ∧
      m'.reg .rsp = m.reg .rsp ∧ systemBits m'.flags.val = systemBits m.flags.val := by
  unfold dumpVecs at htext
  unfold vecWrites
  split at htext
  · rename_i p hv
    rw [dumpXmms_eq] at htext
    obtain ⟨m', hrun, hmem, hregs, hcpu⟩ := run_storeVecs (run_storeXmm callee L hv) m
    cases htext
    refine ⟨m', hrun, ?_, hregs .rsp (by decide), by rw [hcpu.flags]⟩
    simp only [hv]
    exact Wrote.of_eq hmem
  · rename_i p hv
    rw [dumpYmms_eq] at htext
    cases htext
    let m₁ : Machine := { m with reg := Function.update m.reg .rax L.saveMxcsr }
    have hroom₁ : L.Room (m₁.reg .rsp) L.frame := by simpa [m₁] using hroom
    have hcall : run callee m [.movImm .rax L.saveMxcsr, .call .rax] =
        some (callee L.saveMxcsr m₁) := by
      simp [step, Machine.setReg, Reg.fit, Reg.isSegment, m₁]
    have hcalled := hcalls.save m₁ hroom₁
    obtain ⟨m', hrun, hmem, hregs, hcpu⟩ :=
      run_storeVecs (run_storeYmm callee L hv) (callee L.saveMxcsr m₁)
    have hblocks : allVecs.map (vecBlock ymmSlot (callee L.saveMxcsr m₁)) =
        allVecs.map (vecBlock ymmSlot m) := by
      apply List.map_congr_left
      intro i _
      rw [vecBlock, hcalled.vec, vecBlock]
    refine ⟨m', ?_, ?_, ?_, ?_⟩
    · rw [run_append_of_eq hcall, hrun]
    · simp only [hv]
      rw [hblocks] at hmem
      exact (wrote_save hcalls hroom₁).trans (Wrote.of_eq hmem)
    · rw [hregs .rsp (by decide), hcalled.regs .rsp (by decide)]
      simp [m₁]
    · rw [hcpu.flags, hcalled.system]
  · cases htext
  · rename_i hv
    cases htext
    simp only [hv]
    exact ⟨m, rfl, Wrote.of_eq rfl, rfl, rfl⟩

/-- The fields that are written before the vector part. -/
def regWrites (c : Machine) : List (Slot Region × (Nat → Byte)) :=
  [regBlock c .rax, regBlock c .rsp, (fieldSlot .rflags, byteOf c.flags.val)] ++
    dumpedRegs.map (regBlock c)

/-- Everything that the hook and the dump stub write off the host stack. -/
def dumpWrites (h : Handler) (c : Machine) : List (Slot Region × (Nat → Byte)) :=
  regWrites c ++ vecWrites h c ++ [(fieldSlot .rip, byteOf (load64 c.mem h.currHook))]

theorem vecWrites_congr {h : Handler} {m m' : Machine} (hvec : m'.vec = m.vec)
    (hcpu : SameCpu m m') : vecWrites h m' = vecWrites h m := by
  have hblock : ∀ slot, vecBlock slot m' = vecBlock slot m := by
    intro slot
    funext i
    rw [vecBlock, hvec, vecBlock]
  simp only [vecWrites, hblock, hcpu.mxcsr]

theorem exists_of_mem_regWrites {c : Machine} {p : Slot Region × (Nat → Byte)}
    (hp : p ∈ regWrites c) : ∃ f, p.1 = fieldSlot f := by
  simp only [regWrites, List.cons_append, List.nil_append, List.mem_cons, List.mem_map] at hp
  rcases hp with rfl | rfl | rfl | ⟨r, -, rfl⟩
  · exact ⟨.rax, rfl⟩
  · exact ⟨.rsp, rfl⟩
  · exact ⟨.rflags, rfl⟩
  · exact ⟨r.field, rfl⟩

/-- The vector part writes to its area and to the variable, inside both. -/
theorem fits_of_mem_vecWrites {c : Machine} {p : Slot Region × (Nat → Byte)}
    (hp : p ∈ vecWrites L.toHandler c) :
    L.regions.Fits p.1 ∧ (p.1.region = .vectors ∨ p.1.region = .mxcsr) := by
  unfold vecWrites at hp
  split at hp
  · rename_i q hv
    obtain ⟨i, -, rfl⟩ := List.mem_map.mp hp
    exact ⟨fits_xmmSlot hv i, .inl rfl⟩
  · rename_i q hv
    rcases List.mem_cons.mp hp with rfl | hp
    · exact ⟨fits_mxcsrSlot, .inr rfl⟩
    · obtain ⟨i, -, rfl⟩ := List.mem_map.mp hp
      exact ⟨fits_ymmSlot hv i, .inl rfl⟩
  · cases hp

/-- What is written before the tail is not the cell of the hook's address. -/
theorem load64_currHook_of_wrote {c m : Machine}
    (h : Wrote L (regWrites c ++ vecWrites L.toHandler c) c m) :
    load64 m.mem L.currHook = load64 c.mem L.currHook := by
  rw [Layout.SameOff.load64_currHook h]
  apply load64_congr
  intro i hi
  have hcell : L.regions.Contains .currHook (L.currHook + BitVec.ofNat 64 i) :=
    inRange_add hi (L.regions.size_le .currHook)
  refine Regions.writeAll_of_contains ?_ ?_ hcell
  · intro p hp
    rcases List.mem_append.mp hp with hp | hp
    · obtain ⟨f, hf⟩ := exists_of_mem_regWrites hp
      exact hf ▸ fits_fieldSlot f
    · exact (fits_of_mem_vecWrites hp).1
  · intro p hp
    rcases List.mem_append.mp hp with hp | hp
    · obtain ⟨f, hf⟩ := exists_of_mem_regWrites hp
      simp [hf, fieldSlot]
    · rcases (fits_of_mem_vecWrites hp).2 with hr | hr <;> simp [hr]

theorem dump_of_run {h : Handler} {m m₀ m₁ : Machine} {hook stub : List Code}
    (hhook : dumpHook h = some hook) (hstub : craftHook h = some stub)
    (hrun₀ : run callee m hook = some m₀) (hrun₁ : run callee m₀ stub = some m₁) :
    dump callee h m = some m₁ := by
  simp only [dump, hhook, hstub, hrun₀, hrun₁, Option.bind_eq_bind, Option.bind_some]

theorem exists_dumpVecs {h : Handler} (hvecs : ∀ p, h.vectors ≠ .avx512 p) :
    ∃ text, dumpVecs h = some text := by
  unfold dumpVecs
  split
  · exact ⟨_, dumpXmms_eq _⟩
  · exact ⟨_, dumpYmms_eq _ _⟩
  · rename_i p hv
    exact absurd hv (hvecs p)
  · exact ⟨[], rfl⟩

/-- The registers that the stub stores are still the guest's after its head. -/
theorem regBlock_congr {c m : Machine} (h : KeepsRegs [.rax, .rsp] c m) :
    dumpedRegs.map (regBlock m) = dumpedRegs.map (regBlock c) := by
  apply List.map_congr_left
  intro r hr
  have hout : r ∉ [Reg.rax, Reg.rsp] := by
    revert r
    decide
  rw [regBlock, h r hout, regBlock]

variable (callee) in
/-- The hook, and the stub up to the vector part. -/
theorem run_dumpRegs (c : Machine) :
    ∃ m₀ m, run callee c [.movabsStore (L.field .rax), .movImm .rax STUB_ADDR_DUMP, .jmp .rax] =
        some m₀ ∧
      run callee m₀ (dumpHead L.toHandler ++ dumpedRegs.flatMap (storeReg L.toHandler)) =
        some m ∧
      Wrote L (regWrites c) c m ∧ m.reg .rsp = L.hostRsp ∧ m.vec = c.vec ∧ SameCpu c m := by
  -- the hook: `rax` is stored, and holds the address of the stub
  let m₀ : Machine := { c with
    reg := Function.update c.reg .rax STUB_ADDR_DUMP
    mem := store64 c.mem (L.field .rax) (c.reg .rax)
    rip := STUB_ADDR_DUMP }
  have hrun₀ : run callee c [.movabsStore (L.field .rax), .movImm .rax STUB_ADDR_DUMP,
      .jmp .rax] = some m₀ := by
    simp [step, Machine.setReg, Reg.fit, Reg.isSegment, m₀]
  have hwrote₀ : Wrote L [regBlock c .rax] c m₀ := Wrote.store (f := .rax) rfl
  have hregs₀ : KeepsRegs [.rax, .rsp] c m₀ := by
    intro r hr
    simp only [List.mem_cons, List.not_mem_nil, or_false, not_or] at hr
    simp [m₀, hr.1]
  have hrsp : m₀.reg .rsp = c.reg .rsp := by simp [m₀]
  -- the head of the stub
  obtain ⟨m₁, hrun₁, hwrote₁, hsp₁, hregs₁, hvec₁, hcpu₁⟩ := run_dumpHead (L := L) callee m₀
  rw [hrsp] at hwrote₁
  -- the registers
  obtain ⟨v, hrun₂⟩ := run_storeRegs callee L dumpedRegs (by decide) m₁
  rw [regBlock_congr (hregs₀.trans hregs₁)] at hrun₂
  refine ⟨m₀, { m₁ with
    reg := Function.update m₁.reg .rax v
    mem := L.regions.writeAll m₁.mem (dumpedRegs.map (regBlock c)) }, hrun₀, ?_, ?_, ?_, hvec₁,
    hcpu₁.flags, hcpu₁.mxcsr⟩
  · rw [run_append_of_eq hrun₁, hrun₂]
  · exact (hwrote₀.trans hwrote₁).trans (Wrote.of_eq rfl)
  · simp [hsp₁]

/-- The dump hook and the dump stub, from the hooked instruction to the first
instruction of the dispatcher. -/
theorem run_dump (hcalls : MxcsrCalls L callee) (hvecs : ∀ p, L.vectors ≠ .avx512 p)
    (c : Machine) :
    ∃ m, dump callee L.toHandler c = some m ∧ Wrote L (dumpWrites L.toHandler c) c m ∧
      m.rip = L.dispatcher ∧ m.reg .rdi = L.sBinary ∧ m.reg .rsp = L.hostRsp - 8 ∧
      systemBits m.flags.val = systemBits c.flags.val := by
  obtain ⟨text, htext⟩ := exists_dumpVecs hvecs
  obtain ⟨m₀, m₂, hrun₀, hrun₂, hwrote₂, hsp₂, hvec₂, hcpu₂⟩ := run_dumpRegs (L := L) callee c
  -- the vector registers
  have hroom : L.Room (m₂.reg .rsp) L.frame := by
    rw [hsp₂]
    exact Layout.room_hostRsp.mono (le_trans L.frame_le (by decide))
  obtain ⟨m₃, hrun₃, hwrote₃, hsp₃, hsys₃⟩ := run_dumpVecs hcalls htext hroom
  rw [vecWrites_congr hvec₂ hcpu₂] at hwrote₃
  have hwrote : Wrote L (regWrites c ++ vecWrites L.toHandler c) c m₃ := hwrote₂.trans hwrote₃
  -- the tail
  obtain ⟨m₄, hrun₄, hwrote₄, hrip, hrdi, hsp₄, hcpu₄⟩ :=
    run_dumpTail callee (hsp₃.trans hsp₂)
  rw [load64_currHook_of_wrote hwrote] at hwrote₄
  have hstub : craftHook L.toHandler =
      some (dumpHead L.toHandler ++ dumpedRegs.flatMap (storeReg L.toHandler) ++ (text ++
        dumpTail L.toHandler)) := by
    simp only [craftHook, dumpRegs_eq, htext, dumpExit_eq, Option.bind_eq_bind, Option.bind_some,
      List.append_assoc, pure]
  have hrun : run callee m₀ (dumpHead L.toHandler ++
      dumpedRegs.flatMap (storeReg L.toHandler) ++ (text ++ dumpTail L.toHandler)) = some m₄ :=
    calc run callee m₀ (dumpHead L.toHandler ++
          dumpedRegs.flatMap (storeReg L.toHandler) ++ (text ++ dumpTail L.toHandler))
        = run callee m₂ (text ++ dumpTail L.toHandler) := run_append_of_eq hrun₂
      _ = run callee m₃ (dumpTail L.toHandler) := run_append_of_eq hrun₃
      _ = some m₄ := hrun₄
  refine ⟨m₄, dump_of_run (dumpHook_eq L.toHandler) hstub hrun₀ hrun, hwrote.trans hwrote₄,
    hrip, hrdi, hsp₄, ?_⟩
  rw [hcpu₄.flags, hsys₃, hcpu₂.flags]

end Dump

/-! ## What the state structure holds then -/

/-- The state structure of `m` records the processor `c`: each register in its
own field, the vector registers of the active path in their area, and `rip` from
the cell that `curr_hook` points to. -/
structure Recorded (L : Layout) (c m : Machine) : Prop where
  reg : ∀ r : Reg, load64 m.mem (L.field r.field) = c.reg r
  rflags : load64 m.mem (L.field .rflags) = c.flags.val
  rip : load64 m.mem (L.field .rip) = load64 c.mem L.currHook
  xmm : ∀ p, L.vectors = .sse p → ∀ (i : Fin 16) (j : Fin 32), j.val < 16 →
    window m.mem (xmm p i) j = c.vec i j
  ymm : ∀ p, L.vectors = .avx2 p → ∀ (i : Fin 16) (j : Fin 32),
    window m.mem (ymm p i) j = c.vec i j
  mxcsr : ∀ p, L.vectors = .avx2 p → load64 m.mem L.mxcsr = c.mxcsr.setWidth 64

section Recorded

variable {L : Layout} {c m : Machine}

/-- The slots that are written, with those of the vector part in `vecs`. -/
def dumpSlots (vecs : List (Slot Region)) : List (Slot Region) :=
  [fieldSlot .rax, fieldSlot .rsp, fieldSlot .rflags] ++
    dumpedRegs.map (fun r => fieldSlot r.field) ++ vecs ++ [fieldSlot .rip]

/-- No field is written twice, by a swapped argument or otherwise. -/
theorem dumpWrites_apart (h : Handler) (c : Machine) :
    ((dumpWrites h c).map Prod.fst).Pairwise Slot.Apart := by
  have hslots : (dumpWrites h c).map Prod.fst = dumpSlots ((vecWrites h c).map Prod.fst) := by
    simp [dumpWrites, regWrites, dumpSlots, regBlock, Reg.field, Function.comp_def]
  rw [hslots, vecWrites]
  split
  · rw [List.map_map]
    change (dumpSlots (allVecs.map xmmSlot)).Pairwise Slot.Apart
    decide +kernel
  · rw [List.map_cons, List.map_map]
    change (dumpSlots (mxcsrSlot :: allVecs.map ymmSlot)).Pairwise Slot.Apart
    decide +kernel
  · change (dumpSlots []).Pairwise Slot.Apart
    decide +kernel

theorem fits_of_mem_dumpWrites {p : Slot Region × (Nat → Byte)}
    (hp : p ∈ dumpWrites L.toHandler c) : L.regions.Fits p.1 := by
  simp only [dumpWrites, List.mem_append, List.mem_singleton] at hp
  rcases hp with (hp | hp) | rfl
  · obtain ⟨f, hf⟩ := exists_of_mem_regWrites hp
    exact hf ▸ fits_fieldSlot f
  · exact (fits_of_mem_vecWrites hp).1
  · exact fits_fieldSlot .rip

theorem region_ne_stack {p : Slot Region × (Nat → Byte)}
    (hp : p ∈ dumpWrites L.toHandler c) : p.1.region ≠ .stack := by
  simp only [dumpWrites, List.mem_append, List.mem_singleton] at hp
  rcases hp with (hp | hp) | rfl
  · obtain ⟨f, hf⟩ := exists_of_mem_regWrites hp
    simp [hf, fieldSlot]
  · rcases (fits_of_mem_vecWrites hp).2 with hr | hr <;> simp [hr]
  · simp [fieldSlot]

/-- Every block that is written is there at the end. -/
theorem window_of_mem_dumpWrites (h : Wrote L (dumpWrites L.toHandler c) c m)
    {p : Slot Region × (Nat → Byte)} (hp : p ∈ dumpWrites L.toHandler c) {i : Nat}
    (hi : i < p.1.len) : window m.mem (L.regions.addr p.1) i = p.2 i :=
  h.window_eq (fun _ hq => fits_of_mem_dumpWrites hq) (dumpWrites_apart L.toHandler c) hp
    (region_ne_stack hp) hi

theorem load64_of_mem_dumpWrites (h : Wrote L (dumpWrites L.toHandler c) c m) {f : Field}
    {v : Word} (hp : (fieldSlot f, byteOf v) ∈ dumpWrites L.toHandler c) :
    load64 m.mem (L.field f) = v := by
  apply load64_eq_of_window
  intro i hi
  rw [← addr_fieldSlot]
  exact window_of_mem_dumpWrites h hp hi

theorem mem_dumpWrites_of_vec {p : Slot Region × (Nat → Byte)}
    (hp : p ∈ vecWrites L.toHandler c) : p ∈ dumpWrites L.toHandler c := by
  simp [dumpWrites, hp]

theorem Wrote.recorded (h : Wrote L (dumpWrites L.toHandler c) c m) : Recorded L c m where
  reg r := by
    apply load64_of_mem_dumpWrites h
    cases r <;> simp [dumpWrites, regWrites, regBlock, dumpedRegs, Reg.field]
  rflags := by
    apply load64_of_mem_dumpWrites h
    simp [dumpWrites, regWrites]
  rip := by
    apply load64_of_mem_dumpWrites h
    simp [dumpWrites]
  xmm p hv i j hj := by
    have hmem : vecBlock xmmSlot c i ∈ vecWrites L.toHandler c := by
      simp only [vecWrites, hv]
      exact List.mem_map_of_mem (by revert i; decide)
    have hwin := window_of_mem_dumpWrites h (mem_dumpWrites_of_vec hmem) hj
    simpa [vecBlock, addr_xmmSlot hv, vecBytes] using hwin
  ymm p hv i j := by
    have hmem : vecBlock ymmSlot c i ∈ vecWrites L.toHandler c := by
      simp only [vecWrites, hv]
      exact List.mem_cons_of_mem _ (List.mem_map_of_mem (by revert i; decide))
    have hwin := window_of_mem_dumpWrites h (mem_dumpWrites_of_vec hmem) j.isLt
    simpa [vecBlock, addr_ymmSlot hv, vecBytes] using hwin
  mxcsr p hv := by
    have hmem : (mxcsrSlot, byteOf (c.mxcsr.setWidth 64)) ∈ vecWrites L.toHandler c := by
      simp only [vecWrites, hv]
      exact List.mem_cons_self
    apply load64_eq_of_window
    intro i hi
    rw [← addr_mxcsrSlot]
    exact window_of_mem_dumpWrites h (mem_dumpWrites_of_vec hmem) hi

end Recorded

end Dryadalis.Stub
