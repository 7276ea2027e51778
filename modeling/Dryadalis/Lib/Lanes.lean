import Mathlib

/-!
# Lanes of a register

Several names of a register file can stand for parts of one register.  A `Lane n` is such
a part, a run of bits of an `n`-bit register, and its value is read into the low bits of
a word.

`Agree l r v` says that `r` and `v` are the same outside the lane.  A lane that is
disjoint from it then reads the same from both (`read_eq_of_agree`), and `agree_iff` says
the same with the bits above the lane and the bits below it as words.
-/

namespace Lanes

variable {n : Nat}

/-- The `width` bits from bit `lo` of an `n`-bit register. -/
structure Lane (n : Nat) where
  lo : Nat
  width : Nat
  inside : lo + width ≤ n

namespace Lane

variable (l m : Lane n)

/-- The lane has the bit. -/
def Covers (i : Nat) : Prop := l.lo ≤ i ∧ i < l.lo + l.width

instance (i : Nat) : Decidable (l.Covers i) := inferInstanceAs (Decidable (_ ∧ _))

/-- The two lanes have no bit in common. -/
def Disjoint : Prop := l.lo + l.width ≤ m.lo ∨ m.lo + m.width ≤ l.lo

instance : Decidable (l.Disjoint m) := inferInstanceAs (Decidable (_ ∨ _))

/-- The value of the lane. -/
def read (r : BitVec n) : BitVec n := (r.extractLsb' l.lo l.width).setWidth n

/-- The value that the lane can hold of a word. -/
def truncate (v : BitVec n) : BitVec n := (v.setWidth l.width).setWidth n

/-- The two registers are the same outside the lane. -/
def Agree (r v : BitVec n) : Prop := ∀ i, i < n → ¬ l.Covers i → v.getLsbD i = r.getLsbD i

variable {l m} {r v : BitVec n}

theorem getLsbD_read (i : Nat) :
    (l.read r).getLsbD i = (decide (i < l.width) && r.getLsbD (l.lo + i)) := by
  have hin := l.inside
  rw [read, BitVec.getLsbD_setWidth, BitVec.getLsbD_extractLsb']
  by_cases hi : i < l.width
  · have hn : i < n := by omega
    rw [decide_eq_true hi, decide_eq_true hn, Bool.true_and]
  · rw [decide_eq_false hi, Bool.false_and, Bool.and_false]

theorem getLsbD_truncate (i : Nat) :
    (l.truncate v).getLsbD i = (decide (i < l.width) && v.getLsbD i) := by
  have hin := l.inside
  rw [truncate, BitVec.getLsbD_setWidth, BitVec.getLsbD_setWidth]
  by_cases hi : i < l.width
  · have hn : i < n := by omega
    rw [decide_eq_true hi, decide_eq_true hn, Bool.true_and]
  · rw [decide_eq_false hi, Bool.false_and, Bool.and_false]

/-- A lane at the bottom of the register is a mask. -/
theorem read_eq_and (hlo : l.lo = 0) : l.read r = r &&& BitVec.ofNat n (2 ^ l.width - 1) := by
  have hin := l.inside
  apply BitVec.eq_of_getLsbD_eq
  intro i hi
  rw [getLsbD_read, hlo, Nat.zero_add, BitVec.getLsbD_and, BitVec.getLsbD_ofNat,
    Nat.testBit_two_pow_sub_one, decide_eq_true hi, Bool.true_and, Bool.and_comm]

/-- A lane is the bottom lane of the shifted register. -/
theorem read_eq_shift {k : Lane n} (hlo : k.lo = 0) (hw : k.width = l.width) :
    l.read r = k.read (r >>> l.lo) := by
  apply BitVec.eq_of_getLsbD_eq
  intro i hi
  rw [getLsbD_read, getLsbD_read, BitVec.getLsbD_ushiftRight, hlo, hw, Nat.zero_add]

theorem truncate_eq_read (hlo : l.lo = 0) : l.truncate v = l.read v := by
  apply BitVec.eq_of_getLsbD_eq
  intro i hi
  rw [getLsbD_read, getLsbD_truncate, hlo, Nat.zero_add]

/-- What changes inside one lane only is not seen in a disjoint lane. -/
theorem read_eq_of_agree (h : l.Agree r v) (hlm : l.Disjoint m) : m.read v = m.read r := by
  have hin := m.inside
  apply BitVec.eq_of_getLsbD_eq
  intro i hi
  rw [getLsbD_read, getLsbD_read]
  by_cases hm : i < m.width
  · have hout : ¬ l.Covers (m.lo + i) := by
      rintro ⟨hlow, hhigh⟩
      rcases hlm with hlm | hlm <;> omega
    rw [h (m.lo + i) (by omega) hout]
  · rw [decide_eq_false hm, Bool.false_and, Bool.false_and]

/-- The bits outside the lane are those above it and those below it. -/
theorem agree_iff : l.Agree r v ↔
    v >>> (l.lo + l.width) = r >>> (l.lo + l.width) ∧ v.setWidth l.lo = r.setWidth l.lo := by
  have hin := l.inside
  constructor
  · intro h
    constructor
    · apply BitVec.eq_of_getLsbD_eq
      intro i hi
      rw [BitVec.getLsbD_ushiftRight, BitVec.getLsbD_ushiftRight]
      by_cases hn : l.lo + l.width + i < n
      · exact h _ hn (by rintro ⟨_, hlt⟩; omega)
      · rw [BitVec.getLsbD_of_ge v _ (by omega), BitVec.getLsbD_of_ge r _ (by omega)]
    · apply BitVec.eq_of_getLsbD_eq
      intro i hi
      rw [BitVec.getLsbD_setWidth, BitVec.getLsbD_setWidth,
        h i (by omega) (by rintro ⟨hge, _⟩; omega)]
  · rintro ⟨habove, hbelow⟩ i hi hout
    by_cases hlow : i < l.lo
    · have hbit := congrArg (fun x => x.getLsbD i) hbelow
      simpa [BitVec.getLsbD_setWidth, hlow] using hbit
    · have hhigh : l.lo + l.width ≤ i := by
        by_contra hlt
        exact hout ⟨by omega, by omega⟩
      have hbit := congrArg (fun x => x.getLsbD (i - (l.lo + l.width))) habove
      simpa [BitVec.getLsbD_ushiftRight, Nat.add_sub_cancel' hhigh] using hbit

/-- Only the bits above it are outside a lane at the bottom. -/
theorem agree_iff_of_lo (hlo : l.lo = 0) : l.Agree r v ↔ v >>> l.width = r >>> l.width := by
  rw [agree_iff, hlo, Nat.zero_add]
  exact and_iff_left (BitVec.eq_of_getLsbD_eq fun i hi => absurd hi (Nat.not_lt_zero i))

end Lane

end Lanes
