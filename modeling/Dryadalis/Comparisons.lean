import Dryadalis.Emulation
import Dryadalis.Lib.Compare

/-!
# What a conditional jump decides

After `cmp a, b` a conditional jump is a comparison of `a` and `b`.  `is_jmp_taken` sees
neither of them: it reads `rflags` through the register map, masks it, and combines four
of its bits.  `isJmpTaken_decides` says that the answer is the comparison, whatever the
width of `a` and `b` and whatever the other bits of `rflags` are.

`InsnId.comparison` is the meaning of the jumps, stated on `a` and `b` alone.  The flags
come in with `StateRtime.HasCmp`.
-/

namespace Dryadalis

open Compare Exec

variable {w : Nat}

/-- `rflags` has the four flags that `cmp a, b` leaves.  Nothing is said of its other
bits. -/
structure StateRtime.HasCmp (s : StateRtime) (a b : BitVec w) : Prop where
  carry : s.flag 0 = (flags a b).carry
  zero : s.flag 6 = (flags a b).zero
  sign : s.flag 7 = (flags a b).sign
  overflow : s.flag 11 = (flags a b).overflow

/-- The question about `a` and `b` that a conditional jump answers. -/
def InsnId.comparison (a b : BitVec w) : InsnId → Option Prop
  | .JE => some (a = b)
  | .JNE => some (a ≠ b)
  | .JB => some (a < b)
  | .JBE => some (a ≤ b)
  | .JA => some (b < a)
  | .JAE => some (b ≤ a)
  | .JL => some (a.toInt < b.toInt)
  | .JLE => some (a.toInt ≤ b.toInt)
  | .JG => some (b.toInt < a.toInt)
  | .JGE => some (b.toInt ≤ a.toInt)
  | .JS => some ((a - b).toInt < 0)
  | .JNS => some (0 ≤ (a - b).toInt)
  | .JO => some (a.toInt - b.toInt < -2 ^ (w - 1) ∨ 2 ^ (w - 1) ≤ a.toInt - b.toInt)
  | .JNO => some (-2 ^ (w - 1) ≤ a.toInt - b.toInt ∧ a.toInt - b.toInt < 2 ^ (w - 1))
  | _ => none

/-- `is_jmp_taken` returns, changes nothing, and answers the question `p`. -/
def Decides (id : InsnId) (e : Engine) (p : Prop) : Prop :=
  ∃ t, isJmpTaken id e = .ok t e ∧ (t = true ↔ p)

theorem Decides.of_taken {id : InsnId} {e : Engine} {t : Bool} {p : Prop}
    (ht : id.taken e.state = some t) (h : t = true ↔ p) : Decides id e p :=
  ⟨t, isJmpTaken_eq ht, h⟩

/-- What the four flags say in the state is what they say in the library. -/
theorem taken_iff_comparison {s : StateRtime} {a b : BitVec w} (hcmp : s.HasCmp a b)
    {id : InsnId} {p : Prop} (h : id.comparison a b = some p) :
    ∃ t, id.taken s = some t ∧ (t = true ↔ p) := by
  unfold InsnId.taken
  simp only [hcmp.carry, hcmp.zero, hcmp.sign, hcmp.overflow]
  cases id <;> cases h
  case JE => exact ⟨_, rfl, zero_iff⟩
  case JNE => exact ⟨_, rfl, not_zero_iff⟩
  case JA => exact ⟨_, rfl, not_carry_and_not_zero_iff⟩
  case JAE => exact ⟨_, rfl, not_carry_iff⟩
  case JB => exact ⟨_, rfl, carry_iff⟩
  case JBE => exact ⟨_, rfl, carry_or_zero_iff⟩
  case JG => exact ⟨_, rfl, not_zero_and_sign_eq_overflow_iff⟩
  case JGE => exact ⟨_, rfl, sign_eq_overflow_iff⟩
  case JL => exact ⟨_, rfl, sign_ne_overflow_iff⟩
  case JLE => exact ⟨_, rfl, zero_or_sign_ne_overflow_iff⟩
  case JO => exact ⟨_, rfl, overflow_iff⟩
  case JNO => exact ⟨_, rfl, not_overflow_iff⟩
  case JS => exact ⟨_, rfl, sign_iff⟩
  case JNS => exact ⟨_, rfl, not_sign_iff⟩

/-- After `cmp a, b` every conditional jump on the four flags decides its comparison of
`a` and `b`, and the two jumps on `rcx` look at its low 32 bits and at all of it. -/
theorem isJmpTaken_decides (a b : BitVec w) (e : Engine) :
    (e.state.HasCmp a b → ∀ id p, id.comparison a b = some p → Decides id e p) ∧
      Decides .JECXZ e (e.state.rcx.setWidth 32 = 0) ∧ Decides .JRCXZ e (e.state.rcx = 0) := by
  refine ⟨?_, .of_taken rfl beq_iff_eq, .of_taken rfl beq_iff_eq⟩
  intro hcmp id p h
  obtain ⟨t, ht, hp⟩ := taken_iff_comparison hcmp h
  exact .of_taken ht hp

/-- A comparison at the end of the signed range: only `OF` is set, and `-128 < 1`. -/
theorem isJmpTaken_decides_overflow :
    Decides .JL
      { Engine.fresh (codeSpace fun _ => 0) with
        state := { StateRtime.zero with rflags := OF } }
      ((0x80 : BitVec 8).toInt < (1 : BitVec 8).toInt) :=
  (isJmpTaken_decides (0x80 : BitVec 8) 1 _).1
    ⟨by decide, by decide, by decide, by decide⟩ .JL _ rfl

end Dryadalis
