import Dryadalis.Indirect

/-!
# Returns

`__eval_target` pops the return address and moves `rsp` up by 8.  It never looks
at the operand of the instruction, so the form `ret n`, which moves `rsp` up by
another `n` bytes, is emulated as a plain `ret`.

The second half is about calls and returns together.  `Nested` is a properly
nested run: guest code, emulated calls and emulated returns in any order, where
each callee ends in a return and leaves `rsp` as it found it.  What happens
between two emulated instructions is left open, except that it does not write the
return addresses of the frames that are still open.  `Nested.slot_kept` is the
invariant of a run, and the pairing of calls and returns follows from it.
-/

namespace Dryadalis

open ByteMem

/-! ## One return -/

/-- The operands of a near return, without and with an immediate. -/
def retOperands : Option (BitVec 16) → List Operand
  | none => []
  | some n => [.imm (n.setWidth 64)]

/-- The bytes that a return drops above the return address. -/
def retDrop : Option (BitVec 16) → Word
  | none => 0
  | some n => n.setWidth 64

/-- The emulated return does what the processor does exactly when there is
nothing to drop. -/
theorem evalTargetInsn_ret_eq_iff {k : Kernel} {i : Insn} {instruction : Word} {e : Engine}
    (hlead : i.lead = some .RET) (drop : Word) :
    evalTargetInsn k i instruction e =
        .ok (load64 e.space.byte e.state.rsp)
          { e with state := { e.state with rsp := e.state.rsp + 8 + drop } } ↔
      drop = 0 := by
  rw [evalTargetInsn_ret hlead]
  constructor
  · intro h
    have hrsp := congrArg (fun r => (Exec.final r).state.rsp) h
    have hsum : e.state.rsp + 8 = e.state.rsp + 8 + drop := hrsp
    bv_omega
  · rintro rfl
    have hzero : e.state.rsp + 8 + 0 = e.state.rsp + 8 := BitVec.add_zero _
    rw [hzero]
    rfl

/-! ## Calls and returns together -/

/-- A return of a run, against its call: the address after the call and `rsp`
before it, the address that the return went to and `rsp` after it. -/
structure Return where
  next : Word
  rspBefore : Word
  target : Word
  rspAfter : Word

/-- A properly nested run from one engine state to another, with the returns it
made.  `slots` are the addresses of the return addresses on the stack. -/
inductive Nested (k : Kernel) : List Word → Engine → List Return → Engine → Prop where
  | guest {slots e e'}
      (keeps : ∀ slot ∈ slots, load64 e'.space.byte slot = load64 e.space.byte slot) :
      Nested k slots e [] e'
  | append {slots e rs e₁ rs' e₂} (first : Nested k slots e rs e₁)
      (second : Nested k slots e₁ rs' e₂) : Nested k slots e (rs ++ rs') e₂
  | call {slots e i a t e₁ rs e₂ j b t' e₃} (isCall : i.lead = some .CALL)
      (enter : evalTargetInsn k i a e = .ok t e₁)
      (apart : ∀ slot ∈ slots, Disjoint (e.state.rsp - 8) 8 slot 8)
      (body : Nested k ((e.state.rsp - 8) :: slots) e₁ rs e₂)
      (balanced : e₂.state.rsp = e₁.state.rsp)
      (isRet : j.lead = some .RET) (leave : evalTargetInsn k j b e₂ = .ok t' e₃) :
      Nested k slots e (rs ++ [⟨e.state.rip + i.len, e.state.rsp, t', e₃.state.rsp⟩]) e₃

/-- The evaluation of an operand reads the guest and does not change it. -/
theorem evalOperand_keeps (i : Insn) :
    Exec.Follows (Exec.Kept fun e : Engine => (e.state, e.space)) (evalOperand i) := by
  unfold evalOperand
  refine Exec.Follows.bind Exec.Follows.get fun e => ?_
  have hfail : Exec.Follows (Exec.Kept fun e : Engine => (e.state, e.space))
      (do emit fun _ _ => .targetError; return minusOne : Eng Word) :=
    Exec.Follows.bind (Exec.Follows.modify fun _ => rfl) fun _ => Exec.Follows.pure _
  split
  · exact Exec.Follows.pure _
  · exact Exec.Follows.pure _
  · split
    · exact Exec.Follows.pure _
    · exact hfail
  · exact hfail

/-- What an emulated call does to the guest, whatever its operand is. -/
theorem evalTargetInsn_call_guest {k : Kernel} {i : Insn} {a t : Word} {e e' : Engine}
    (hlead : i.lead = some .CALL) (h : evalTargetInsn k i a e = .ok t e') :
    e'.state = (pushReturn e i.len).state ∧ e'.space = (pushReturn e i.len).space := by
  rw [evalTargetInsn_call hlead] at h
  have hkept : (e'.state, e'.space) = _ := (evalOperand_keeps i).of_ok h
  exact Prod.mk.inj hkept

/-- What an emulated return does to the guest. -/
theorem evalTargetInsn_ret_guest {k : Kernel} {i : Insn} {a t : Word} {e e' : Engine}
    (hlead : i.lead = some .RET) (h : evalTargetInsn k i a e = .ok t e') :
    t = load64 e.space.byte e.state.rsp ∧ e' = popReturn e := by
  rw [evalTargetInsn_ret hlead] at h
  cases h
  exact ⟨rfl, rfl⟩

/-- A run keeps the return addresses of the frames that were open before it. -/
theorem Nested.slot_kept {k : Kernel} {slots : List Word} {e e' : Engine} {rs : List Return}
    (h : Nested k slots e rs e') :
    ∀ slot ∈ slots, load64 e'.space.byte slot = load64 e.space.byte slot := by
  induction h with
  | guest keeps => exact keeps
  | append first second ih ih' =>
    intro slot hslot
    rw [ih' slot hslot, ih slot hslot]
  | @call slots e i a t e₁ rs e₂ j b t' e₃ isCall enter apart body balanced isRet leave ih =>
    intro slot hslot
    obtain ⟨-, hspace⟩ := evalTargetInsn_call_guest isCall enter
    obtain ⟨-, rfl⟩ := evalTargetInsn_ret_guest isRet leave
    calc load64 (popReturn e₂).space.byte slot
        = load64 e₁.space.byte slot := ih slot (List.mem_cons_of_mem _ hslot)
      _ = load64 (pushReturn e i.len).space.byte slot := by rw [hspace]
      _ = load64 e.space.byte slot := load64_patch_of_disjoint (apart slot hslot)

/-- Every return of a nested run goes to the instruction after its call, with
`rsp` as it was before the call. -/
theorem Nested.paired {k : Kernel} {slots : List Word} {e e' : Engine} {rs : List Return}
    (h : Nested k slots e rs e') :
    ∀ r ∈ rs, r.target = r.next ∧ r.rspAfter = r.rspBefore := by
  induction h with
  | guest keeps =>
    intro r hr
    cases hr
  | append first second ih ih' =>
    intro r hr
    rcases List.mem_append.mp hr with hr | hr
    · exact ih r hr
    · exact ih' r hr
  | @call slots e i a t e₁ rs e₂ j b t' e₃ isCall enter apart body balanced isRet leave ih =>
    intro r hr
    rcases List.mem_append.mp hr with hr | hr
    · exact ih r hr
    · rw [List.mem_singleton] at hr
      subst hr
      obtain ⟨hstate, hspace⟩ := evalTargetInsn_call_guest isCall enter
      obtain ⟨rfl, rfl⟩ := evalTargetInsn_ret_guest isRet leave
      have hentry : e₁.state.rsp = e.state.rsp - 8 := by
        rw [hstate]
        rfl
      -- The slot that the call pushed is still there when the callee returns.
      have hslot := body.slot_kept (e.state.rsp - 8) List.mem_cons_self
      constructor
      · show load64 e₂.space.byte e₂.state.rsp = e.state.rip + i.len
        rw [balanced, hentry, hslot, hspace]
        exact load64_store64 _ _ _
      · show e₂.state.rsp + 8 = e.state.rsp
        rw [balanced, hentry, BitVec.sub_add_cancel]

/-- A return is emulated as the processor runs it exactly when it has no bytes to
drop, and in every properly nested run of calls and returns each return goes back
to its call. -/
theorem evalTargetInsn_returns (k : Kernel) :
    (∀ (i : Insn) (instruction : Word) (e : Engine) (n : Option (BitVec 16)),
      i.lead = some .RET → i.operands = retOperands n →
      (evalTargetInsn k i instruction e =
          .ok (load64 e.space.byte e.state.rsp)
            { e with state := { e.state with rsp := e.state.rsp + 8 + retDrop n } } ↔
        n = none ∨ n = some 0)) ∧
    ∀ (slots : List Word) (e e' : Engine) (rs : List Return), Nested k slots e rs e' →
      ∀ r ∈ rs, r.target = r.next ∧ r.rspAfter = r.rspBefore := by
  constructor
  · intro i instruction e n hlead _
    rw [evalTargetInsn_ret_eq_iff hlead]
    cases n with
    | none => simp [retDrop]
    | some n =>
      have hzero : n.setWidth 64 = 0#64 ↔ n = 0 := by
        constructor
        · intro h
          bv_omega
        · rintro rfl
          rfl
      simpa [retDrop] using hzero
  · intro slots e e' rs h
    exact h.paired

/-- A plain `ret`, and a run that calls a function which returns at once. -/
theorem evalTargetInsn_returns_callRax :
    evalTargetInsn Kernel.code nearRet 0x401000 stackEngine =
        .ok (load64 stackEngine.space.byte stackEngine.state.rsp)
          { stackEngine with
            state := { stackEngine.state with rsp := stackEngine.state.rsp + 8 + retDrop none } } ∧
      ∃ r e', Nested Kernel.code [] stackEngine [r] e' ∧
        r.target = r.next ∧ r.rspAfter = r.rspBefore := by
  have hspec := evalTargetInsn_returns Kernel.code
  constructor
  · exact (hspec.1 nearRet 0x401000 stackEngine none rfl rfl).mpr (Or.inl rfl)
  · have henter : evalTargetInsn Kernel.code callRax 0x401000 stackEngine =
        .ok 0x401136 (pushReturn stackEngine 2) := rfl
    have hslots : ∀ slot ∈ ([] : List Word), Disjoint (stackEngine.state.rsp - 8) 8 slot 8 := by
      simp
    have hrun := Nested.call (j := nearRet) (b := 0x401136) rfl henter hslots
      (.guest fun _ _ => rfl) rfl rfl (evalTargetInsn_ret rfl)
    exact ⟨_, _, hrun, hspec.2 _ _ _ _ hrun _ (List.mem_singleton.mpr rfl)⟩

/-- `ret 8` -/
def nearRet8 : Insn :=
  { id := .RET, size := 3, groups := [.RET], operands := retOperands (some 8), rel := none }

/-- `ret 8` leaves `rsp` eight bytes too low. -/
theorem evalTargetInsn_nearRet8 :
    evalTargetInsn Kernel.code nearRet8 0x401000 stackEngine =
        .ok 0x401040 { stackEngine with state := { stackEngine.state with rsp := 0x4ff008 } } ∧
      stackEngine.state.rsp + 8 + retDrop (some 8) = 0x4ff010 := by
  constructor
  · have hload : load64 stackEngine.space.byte 0x4ff000 = 0x401040 := load64_store64 _ _ _
    rw [← hload]
    rfl
  · decide

end Dryadalis
