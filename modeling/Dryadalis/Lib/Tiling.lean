import Mathlib

/-!
# Tilings of an interval

A loop that works through an interval from the left handles it in pieces.  `Tiles i ps j`
says that the pieces `ps`, in this order, are nonempty, that each starts where the one
before it ended, and that together they are the interval from `i` to `j`.

* `Tiles.bounds` puts every piece inside the interval;
* `Tiles.add_sum` adds up the lengths;
* `Tiles.countP_covers` says that every point is in exactly one piece.
-/

namespace Tiling

/-- The `len` points from `start` on. -/
structure Piece where
  start : Nat
  len : Nat
  deriving DecidableEq, Repr

/-- The piece has the point. -/
def Piece.covers (p : Piece) (k : Nat) : Bool := p.start ≤ k && k < p.start + p.len

@[simp] theorem Piece.covers_iff (p : Piece) (k : Nat) :
    p.covers k = true ↔ p.start ≤ k ∧ k < p.start + p.len := by
  simp [covers]

/-- The pieces cut the interval from `i` to `j`. -/
inductive Tiles : Nat → List Piece → Nat → Prop where
  | nil (i : Nat) : Tiles i [] i
  | cons {p : Piece} {ps : List Piece} {j : Nat} (pos : 0 < p.len)
      (tail : Tiles (p.start + p.len) ps j) : Tiles p.start (p :: ps) j

namespace Tiles

variable {i j k : Nat} {ps : List Piece}

theorem le (h : Tiles i ps j) : i ≤ j := by
  induction h with
  | nil => exact Nat.le_refl _
  | cons pos tail ih => omega

theorem bounds (h : Tiles i ps j) {p : Piece} (hp : p ∈ ps) :
    i ≤ p.start ∧ 0 < p.len ∧ p.start + p.len ≤ j := by
  induction h with
  | nil => simp at hp
  | @cons q ps j pos tail ih =>
    rcases List.mem_cons.mp hp with rfl | hp
    · exact ⟨Nat.le_refl _, pos, tail.le⟩
    · obtain ⟨hstart, hrest⟩ := ih hp
      exact ⟨by omega, hrest⟩

theorem add_sum (h : Tiles i ps j) : i + (ps.map Piece.len).sum = j := by
  induction h with
  | nil => simp
  | cons pos tail ih =>
    rw [List.map_cons, List.sum_cons]
    omega

theorem countP_covers_eq_zero (h : Tiles i ps j) (hk : k < i) :
    ps.countP (Piece.covers · k) = 0 := by
  rw [List.countP_eq_zero]
  intro p hp
  have hstart := (h.bounds hp).1
  simp
  omega

/-- Every point of the interval is in exactly one piece. -/
theorem countP_covers (h : Tiles i ps j) (hi : i ≤ k) (hj : k < j) :
    ps.countP (Piece.covers · k) = 1 := by
  induction h with
  | nil => omega
  | @cons p ps j pos tail ih =>
    by_cases hk : k < p.start + p.len
    · rw [List.countP_cons_of_pos (by simp; omega), tail.countP_covers_eq_zero hk]
    · rw [List.countP_cons_of_neg (by simp; omega), ih (by omega) hj]

end Tiles

end Tiling
