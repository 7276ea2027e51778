import Mathlib

/-!
# The flags of a comparison

A processor compares two words by subtracting them and keeping four flags of the
difference.  `flags a b` computes the flags from the difference alone, for words of any
width, and the lemmas below say what each of them, and each pair that a condition
combines, means for `a` and `b`.

* `carry_iff` is the unsigned order, `zero_iff` is equality;
* `sign_iff` is the sign of the difference, and `overflow_iff` says that the difference
  of the signed values is not the value of a word;
* `sign_ne_overflow_iff` is the signed order.

The second half has one lemma for each condition that a jump can test.
-/

namespace Compare

variable {w : Nat}

/-- The four flags that comparisons are decided by. -/
structure Flags where
  carry : Bool
  zero : Bool
  sign : Bool
  overflow : Bool
  deriving DecidableEq, Repr

/-- The flags of `a - b`.  The carry is the borrow out of the top bit, which is the top
bit of the difference when it is taken with one bit more. -/
def flags (a b : BitVec w) : Flags where
  carry := (a.setWidth (w + 1) - b.setWidth (w + 1)).msb
  zero := a - b == 0
  sign := (a - b).msb
  overflow := a.msb != b.msb && (a - b).msb != a.msb

variable {a b : BitVec w}

theorem carry_iff : (flags a b).carry = true ↔ a < b := by
  have ha := a.isLt
  have hb := b.isLt
  have hpow : 2 ^ (w + 1) = 2 * 2 ^ w := by rw [Nat.pow_succ, Nat.mul_comm]
  have ha' : (a.setWidth (w + 1)).toNat = a.toNat := by
    rw [BitVec.toNat_setWidth, Nat.mod_eq_of_lt (by omega)]
  have hb' : (b.setWidth (w + 1)).toNat = b.toNat := by
    rw [BitVec.toNat_setWidth, Nat.mod_eq_of_lt (by omega)]
  show (a.setWidth (w + 1) - b.setWidth (w + 1)).msb = true ↔ _
  rw [BitVec.msb_eq_decide, decide_eq_true_eq, BitVec.toNat_sub, ha', hb', hpow, BitVec.lt_def,
    Nat.add_sub_cancel]
  constructor
  · intro h
    by_contra hlt
    have hsum : 2 * 2 ^ w - b.toNat + a.toNat = 2 * 2 ^ w + (a.toNat - b.toNat) := by omega
    rw [hsum, Nat.add_mod_left, Nat.mod_eq_of_lt (by omega)] at h
    omega
  · intro h
    rw [Nat.mod_eq_of_lt (by omega)]
    omega

theorem zero_iff : (flags a b).zero = true ↔ a = b := by
  show (a - b == 0) = true ↔ _
  rw [beq_iff_eq]
  exact sub_eq_zero

theorem sign_iff : (flags a b).sign = true ↔ (a - b).toInt < 0 := by
  show (a - b).msb = true ↔ _
  rw [BitVec.msb_eq_toInt, decide_eq_true_eq]

/-- The bit formula of the overflow flag is the overflow of the signed subtraction. -/
theorem overflow_eq : (flags a b).overflow = a.ssubOverflow b := by
  show (a.msb != b.msb && (a - b).msb != a.msb) = _
  rw [BitVec.ssubOverflow_eq]
  cases a.msb <;> cases b.msb <;> cases (a - b).msb <;> rfl

theorem overflow_iff : (flags a b).overflow = true ↔
    a.toInt - b.toInt < -2 ^ (w - 1) ∨ 2 ^ (w - 1) ≤ a.toInt - b.toInt := by
  rw [overflow_eq, BitVec.ssubOverflow, Bool.or_eq_true, decide_eq_true_eq, decide_eq_true_eq]
  exact Or.comm

/-- The sign of the difference is the wrong way round exactly when it overflows. -/
theorem sign_ne_overflow_iff :
    ((flags a b).sign != (flags a b).overflow) = true ↔ a.toInt < b.toInt := by
  have hsign := sign_iff (a := a) (b := b)
  by_cases hover : (flags a b).overflow = true
  · rw [hover, bne_iff_ne, ne_eq, hsign, BitVec.toInt_sub]
    rcases overflow_iff.1 hover with hlow | hhigh
    · obtain ⟨hneg, hpos, hmod⟩ := BitVec.toInt_sub_toInt_lt_twoPow_iff.1 hlow
      omega
    · obtain ⟨hpos, hneg, hmod⟩ := BitVec.twoPow_le_toInt_sub_toInt_iff.1 hhigh
      omega
  · rw [Bool.not_eq_true] at hover
    have hno : ¬ a.ssubOverflow b = true := by
      rw [← overflow_eq, hover]
      decide
    rw [hover, Bool.bne_false, hsign, BitVec.toInt_sub_of_not_ssubOverflow hno]
    omega

/-! ## The conditions that combine flags -/

theorem not_carry_iff : (!(flags a b).carry) = true ↔ b ≤ a := by
  rw [Bool.not_eq_true', ← Bool.not_eq_true, carry_iff, BitVec.not_lt]

theorem not_zero_iff : (!(flags a b).zero) = true ↔ a ≠ b := by
  rw [Bool.not_eq_true', ← Bool.not_eq_true, zero_iff]

theorem carry_or_zero_iff : ((flags a b).carry || (flags a b).zero) = true ↔ a ≤ b := by
  rw [Bool.or_eq_true, carry_iff, zero_iff, BitVec.le_def, BitVec.lt_def, ← BitVec.toNat_inj]
  omega

theorem not_carry_and_not_zero_iff :
    (!(flags a b).carry && !(flags a b).zero) = true ↔ b < a := by
  rw [← Bool.not_or, Bool.not_eq_true', ← Bool.not_eq_true, carry_or_zero_iff, BitVec.not_le]

theorem sign_eq_overflow_iff :
    ((flags a b).sign == (flags a b).overflow) = true ↔ b.toInt ≤ a.toInt := by
  have h := sign_ne_overflow_iff (a := a) (b := b)
  rw [bne_iff_ne] at h
  rw [beq_iff_eq, ← Int.not_lt, ← h, not_not]

theorem zero_or_sign_ne_overflow_iff :
    ((flags a b).zero || (flags a b).sign != (flags a b).overflow) = true ↔
      a.toInt ≤ b.toInt := by
  rw [Bool.or_eq_true, zero_iff, sign_ne_overflow_iff, ← BitVec.toInt_inj]
  omega

theorem not_zero_and_sign_eq_overflow_iff :
    (!(flags a b).zero && (flags a b).sign == (flags a b).overflow) = true ↔
      b.toInt < a.toInt := by
  rw [Bool.and_eq_true, not_zero_iff, sign_eq_overflow_iff, ne_eq, ← BitVec.toInt_inj]
  omega

theorem not_sign_iff : (!(flags a b).sign) = true ↔ 0 ≤ (a - b).toInt := by
  rw [Bool.not_eq_true', ← Bool.not_eq_true, sign_iff, Int.not_lt]

theorem not_overflow_iff : (!(flags a b).overflow) = true ↔
    -2 ^ (w - 1) ≤ a.toInt - b.toInt ∧ a.toInt - b.toInt < 2 ^ (w - 1) := by
  rw [Bool.not_eq_true', ← Bool.not_eq_true, overflow_iff, not_or, Int.not_lt, Int.not_le]

/-- A subtraction that overflows at the ends of the signed range: the difference of the
smallest word and 1 is positive. -/
example : flags (0x80 : BitVec 8) 1 =
    { carry := false, zero := false, sign := false, overflow := true } := by decide

end Compare
