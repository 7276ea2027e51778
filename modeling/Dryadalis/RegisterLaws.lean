import Dryadalis.Lib.Lanes
import Dryadalis.Registers

/-!
# The laws of the register file

The register map links some seventy names to sixteen cells.  `read_reg` decides the width
of a name by the class it is in, and returns the lane that the name stands for
(`readReg_view`).  `update_reg` does not look at the class: it stores the value in the
whole cell.

`RegisterLaws` is what a write to a part of a register means on the processor: the part
holds the value, the rest of the register and every other register stay, and a 32-bit
write clears the upper half.  `registerLaws_iff` says for which values `update_reg` keeps
these laws.
-/

namespace Dryadalis

open Lanes

/-! ## `update_reg` -/

/-- A store through a pointer of the register map. -/
def StateRtime.write (s : StateRtime) (f : Field) (v : Word) : StateRtime :=
  match f with
  | .rax => { s with rax := v }
  | .rbx => { s with rbx := v }
  | .rcx => { s with rcx := v }
  | .rdx => { s with rdx := v }
  | .rsi => { s with rsi := v }
  | .rdi => { s with rdi := v }
  | .rbp => { s with rbp := v }
  | .rsp => { s with rsp := v }
  | .rip => { s with rip := v }
  | .rflags => { s with rflags := v }
  | .r8 => { s with r8 := v }
  | .r9 => { s with r9 := v }
  | .r10 => { s with r10 := v }
  | .r11 => { s with r11 := v }
  | .r12 => { s with r12 := v }
  | .r13 => { s with r13 := v }
  | .r14 => { s with r14 := v }
  | .r15 => { s with r15 := v }
  | .nullEntry => { s with nullEntry := v }

@[simp] theorem StateRtime.read_write (s : StateRtime) (f f' : Field) (v : Word) :
    (s.write f v).read f' = if f' = f then v else s.read f' := by
  cases f <;> cases f' <;> rfl

/-- `update_reg` -/
def updateReg (key : X86Reg) (value : Word) (s : StateRtime) : StateRtime :=
  s.write (initHashmap key) value

/-! ## The parts of a register -/

/-- The parts of a general register that have a name. -/
inductive View where
  | low8 | high8 | low16 | low32 | full
  deriving DecidableEq, Repr

/-- The bits of a part. -/
def View.lane : View → Lane 64
  | .low8 => ⟨0, 8, by decide⟩
  | .high8 => ⟨8, 8, by decide⟩
  | .low16 => ⟨0, 16, by decide⟩
  | .low32 => ⟨0, 32, by decide⟩
  | .full => ⟨0, 64, by decide⟩

/-- The register and the part that a general-purpose name stands for. -/
def X86Reg.view : X86Reg → Option (Gpr × View)
  | .AL => some (.rax, .low8)
  | .AH => some (.rax, .high8)
  | .AX => some (.rax, .low16)
  | .EAX => some (.rax, .low32)
  | .RAX => some (.rax, .full)
  | .BL => some (.rbx, .low8)
  | .BH => some (.rbx, .high8)
  | .BX => some (.rbx, .low16)
  | .EBX => some (.rbx, .low32)
  | .RBX => some (.rbx, .full)
  | .CL => some (.rcx, .low8)
  | .CH => some (.rcx, .high8)
  | .CX => some (.rcx, .low16)
  | .ECX => some (.rcx, .low32)
  | .RCX => some (.rcx, .full)
  | .DL => some (.rdx, .low8)
  | .DH => some (.rdx, .high8)
  | .DX => some (.rdx, .low16)
  | .EDX => some (.rdx, .low32)
  | .RDX => some (.rdx, .full)
  | .DIL => some (.rdi, .low8)
  | .DI => some (.rdi, .low16)
  | .EDI => some (.rdi, .low32)
  | .RDI => some (.rdi, .full)
  | .SIL => some (.rsi, .low8)
  | .SI => some (.rsi, .low16)
  | .ESI => some (.rsi, .low32)
  | .RSI => some (.rsi, .full)
  | .BPL => some (.rbp, .low8)
  | .BP => some (.rbp, .low16)
  | .EBP => some (.rbp, .low32)
  | .RBP => some (.rbp, .full)
  | .SPL => some (.rsp, .low8)
  | .SP => some (.rsp, .low16)
  | .ESP => some (.rsp, .low32)
  | .RSP => some (.rsp, .full)
  | .R8B => some (.r8, .low8)
  | .R8W => some (.r8, .low16)
  | .R8D => some (.r8, .low32)
  | .R8 => some (.r8, .full)
  | .R9B => some (.r9, .low8)
  | .R9W => some (.r9, .low16)
  | .R9D => some (.r9, .low32)
  | .R9 => some (.r9, .full)
  | .R10B => some (.r10, .low8)
  | .R10W => some (.r10, .low16)
  | .R10D => some (.r10, .low32)
  | .R10 => some (.r10, .full)
  | .R11B => some (.r11, .low8)
  | .R11W => some (.r11, .low16)
  | .R11D => some (.r11, .low32)
  | .R11 => some (.r11, .full)
  | .R12B => some (.r12, .low8)
  | .R12W => some (.r12, .low16)
  | .R12D => some (.r12, .low32)
  | .R12 => some (.r12, .full)
  | .R13B => some (.r13, .low8)
  | .R13W => some (.r13, .low16)
  | .R13D => some (.r13, .low32)
  | .R13 => some (.r13, .full)
  | .R14B => some (.r14, .low8)
  | .R14W => some (.r14, .low16)
  | .R14D => some (.r14, .low32)
  | .R14 => some (.r14, .full)
  | .R15B => some (.r15, .low8)
  | .R15W => some (.r15, .low16)
  | .R15D => some (.r15, .low32)
  | .R15 => some (.r15, .full)
  | _ => none

/-- The mask that `read_reg` applies for a part. -/
def View.masked : View → Word → Word
  | .low8, r => r &&& 0xff
  | .high8, r => (r &&& 0xff00) >>> 8
  | .low16, r => r &&& 0xffff
  | .low32, r => r &&& 0xffffffff
  | .full, r => r &&& 0xffffffffffffffff

theorem View.masked_eq (l : View) (r : Word) : l.masked r = l.lane.read r := by
  cases l with
  | low8 => exact (Lane.read_eq_and (l := View.low8.lane) rfl).symm
  | low16 => exact (Lane.read_eq_and (l := View.low16.lane) rfl).symm
  | low32 => exact (Lane.read_eq_and (l := View.low32.lane) rfl).symm
  | full => exact (Lane.read_eq_and (l := View.full.lane) rfl).symm
  | high8 =>
    rw [Lane.read_eq_shift (l := View.high8.lane) (k := View.low8.lane) rfl rfl,
      Lane.read_eq_and rfl]
    show (r &&& 0xff00) >>> 8 = r >>> 8 &&& 0xff
    rw [BitVec.ushiftRight_and_distrib]
    rfl

/-- The names with a view are the ones that the map links to a general register. -/
theorem view_eq_none_iff (key : X86Reg) :
    key.view = none ↔ initHashmap key ∈ [Field.rip, .rflags, .nullEntry] := by
  have hnull : Field.nullEntry ∈ [Field.rip, .rflags, .nullEntry] := by decide
  -- The families of registers with a number are all linked to `null_entry`.
  cases key <;> first | exact iff_of_true rfl hnull | decide

section Views

variable {key : X86Reg} {g : Gpr} {l : View} {s : StateRtime}

/-- The map links a name to the register it stands for. -/
theorem initHashmap_view (h : key.view = some (g, l)) : initHashmap key = g.field := by
  cases key <;> cases h <;> rfl

/-- `read_reg` returns the bits that the name stands for. -/
theorem readReg_view (h : key.view = some (g, l)) : readReg key s = l.lane.read (s.gpr g) := by
  have hmask : readReg key s = l.masked (s.gpr g) := by
    cases key <;> cases h <;> rfl
  rw [hmask, View.masked_eq]

theorem Gpr.field_inj {g g' : Gpr} : g'.field = g.field ↔ g' = g := by
  cases g <;> cases g' <;> decide

/-- `update_reg` stores the value in the whole register. -/
theorem gpr_updateReg (h : key.view = some (g, l)) (v : Word) (g' : Gpr) :
    (updateReg key v s).gpr g' = if g' = g then v else s.gpr g' := by
  rw [StateRtime.gpr, updateReg, initHashmap_view h, StateRtime.read_write]
  simp only [Gpr.field_inj]
  rfl

end Views

/-! ## Writes -/

/-- What a write of `v` to the part `l` of register `g`, named `key`, has to do.  A 32-bit
write starts from a cleared register, any other one from the register itself. -/
structure RegisterLaws (key : X86Reg) (g : Gpr) (l : View) (s : StateRtime) (v : Word) :
    Prop where
  read : readReg key s = l.lane.read (s.gpr g)
  readBack : readReg key (updateReg key v s) = l.lane.truncate v
  others : ∀ {key' g' l'}, X86Reg.view key' = some (g', l') →
    (g' ≠ g ∨ l.lane.Disjoint l'.lane) → readReg key' (updateReg key v s) = readReg key' s
  outside : l.lane.Agree (if l = .low32 then 0 else s.gpr g) ((updateReg key v s).gpr g)
  cells : ∀ f, f ≠ g.field → (updateReg key v s).read f = s.read f

/-- The values that are already what the whole register `r` has to be after a write to the
part. -/
def View.Fits : View → Word → Word → Prop
  | .full, _, _ => True
  | .low32, _, v => v >>> 32 = 0
  | .low16, r, v => v >>> 16 = r >>> 16
  | .low8, r, v => v >>> 8 = r >>> 8
  | .high8, r, v =>
    v >>> 16 = r >>> 16 ∧ v.setWidth 8 = r.setWidth 8 ∧ (v >>> 8) &&& 0xff = v &&& 0xff

/-- The lower half meets every part. -/
theorem View.not_disjoint_low32 (l : View) : ¬ View.low32.lane.Disjoint l.lane := by
  cases l <;> decide

/-- Nothing outside the part is to change, and the part holds what it is to hold. -/
theorem View.fits_iff (l : View) (r v : Word) :
    l.Fits r v ↔ l.lane.Agree (if l = .low32 then 0 else r) v ∧
      l.lane.read v = l.lane.truncate v := by
  have hbottom {l : View} (hlo : l.lane.lo = 0) (r : Word) :
      l.lane.Agree r v ∧ l.lane.read v = l.lane.truncate v ↔
        v >>> l.lane.width = r >>> l.lane.width :=
    (and_iff_left (Lane.truncate_eq_read hlo).symm).trans (Lane.agree_iff_of_lo hlo)
  cases l with
  | low8 => exact (hbottom (l := .low8) rfl r).symm
  | low16 => exact (hbottom (l := .low16) rfl r).symm
  | low32 => exact (hbottom (l := .low32) rfl 0).symm
  | full =>
    rw [if_neg (by decide), hbottom (l := .full) rfl]
    -- No bit is left above the whole register.
    exact iff_of_true trivial
      ((BitVec.ushiftRight_eq_zero (Nat.le_refl _)).trans
        (BitVec.ushiftRight_eq_zero (Nat.le_refl _)).symm)
  | high8 =>
    have hread : View.high8.lane.read v = (v >>> 8) &&& 0xff :=
      (Lane.read_eq_shift (l := View.high8.lane) (k := View.low8.lane) rfl rfl).trans
        (Lane.read_eq_and rfl)
    have htrunc : View.high8.lane.truncate v = v &&& 0xff :=
      (Lane.truncate_eq_read (l := View.low8.lane) rfl).trans (Lane.read_eq_and rfl)
    rw [if_neg (by decide), Lane.agree_iff, hread, htrunc, and_assoc]
    exact Iff.rfl

section Writes

variable {key : X86Reg} {g : Gpr} {l : View} {s : StateRtime} {v : Word}

/-- Writing to a part keeps the laws exactly when the value fits. -/
theorem registerLaws_iff (h : key.view = some (g, l)) :
    RegisterLaws key g l s v ↔ l.Fits (s.gpr g) v := by
  have hgpr : (updateReg key v s).gpr g = v := by rw [gpr_updateReg h, if_pos rfl]
  have hback : readReg key (updateReg key v s) = l.lane.read v := by
    rw [readReg_view h, hgpr]
  rw [View.fits_iff]
  constructor
  · intro laws
    exact ⟨hgpr ▸ laws.outside, hback ▸ laws.readBack⟩
  · rintro ⟨hout, hread⟩
    refine ⟨readReg_view h, hback.trans hread, ?_, by rw [hgpr]; exact hout, ?_⟩
    · intro key' g' l' h' hdisj
      rw [readReg_view h', readReg_view h', gpr_updateReg h]
      split
      · rename_i heq
        subst heq
        have hsame : l.lane.Disjoint l'.lane := hdisj.resolve_left fun hne => hne rfl
        have hl : l ≠ .low32 := fun hl => View.not_disjoint_low32 l' (hl ▸ hsame)
        rw [if_neg hl] at hout
        exact Lane.read_eq_of_agree hout hsame
      · rfl
    · intro f hf
      rw [updateReg, initHashmap_view h, StateRtime.read_write, if_neg hf]

end Writes

/-- Writing 5 to `EAX` of a cleared state keeps the laws. -/
theorem registerLaws_iff_EAX : RegisterLaws .EAX .rax .low32 .zero 5 :=
  (registerLaws_iff rfl).2 (show (5 : Word) >>> 32 = 0 by decide)

/-- Writing `0x100` to `AL` sets `AH` to 1. -/
theorem updateReg_AL_sets_AH : ¬ RegisterLaws .AL .rax .low8 .zero 0x100 := by
  intro laws
  have hkept := laws.others (show X86Reg.view .AH = some (.rax, .high8) from rfl)
    (Or.inr (by decide))
  exact absurd hkept (by decide)

end Dryadalis
