import Dryadalis.Lib.ByteMem

/-!
# Blocks in separate regions

A program that keeps several objects in one memory is described by the regions
they occupy.  A `Regions` value carries the fact that no two of them share an
address, and a `Slot` names some cells of one region by their offset, so that
two slots are apart by arithmetic on offsets alone.

`writeAll m ws` is a memory after a list of writes to slots, in order.  A cell
that no write covers keeps its value (`writeAll_of_not_inRange`), and when the
slots are pairwise apart every one of them holds its own block at the end,
whatever the order (`window_writeAll`).
-/

namespace ByteMem

variable {w : Nat} {β ι : Type}

/-! ## Regions and slots -/

/-- Regions of one memory, no two of which share an address. -/
structure Regions (ι : Type) (w : Nat) where
  base : ι → BitVec w
  size : ι → Nat
  size_le : ∀ i, size i ≤ 2 ^ w
  separate : ∀ i j, i ≠ j → Disjoint (base i) (size i) (base j) (size j)

/-- The `len` cells of a region that start at `offset`. -/
structure Slot (ι : Type) where
  region : ι
  offset : Nat
  len : Nat
deriving DecidableEq

/-- Two slots with no common cell. -/
def Slot.Apart (s t : Slot ι) : Prop :=
  s.region ≠ t.region ∨ s.offset + s.len ≤ t.offset ∨ t.offset + t.len ≤ s.offset

instance [DecidableEq ι] (s t : Slot ι) : Decidable (s.Apart t) :=
  inferInstanceAs (Decidable (_ ∨ _ ∨ _))

namespace Regions

variable (R : Regions ι w)

/-- The address `x` lies in the region `i`. -/
def Contains (i : ι) (x : BitVec w) : Prop := InRange (R.base i) (R.size i) x

def addr (s : Slot ι) : BitVec w := R.base s.region + BitVec.ofNat w s.offset

/-- The slot stays inside its region. -/
def Fits (s : Slot ι) : Prop := s.offset + s.len ≤ R.size s.region

variable {R}

theorem Fits.contains {s : Slot ι} (hs : R.Fits s) {x : BitVec w}
    (hx : InRange (R.addr s) s.len x) : R.Contains s.region x := by
  obtain ⟨j, hj, rfl⟩ := exists_of_inRange hx
  have hle := R.size_le s.region
  unfold Fits at hs
  rw [Contains, InRange, addr, BitVec.add_assoc, ← BitVec.ofNat_add, dist_add (by omega)]
  omega

theorem not_contains_of_ne {i j : ι} (h : i ≠ j) {x : BitVec w} (hx : R.Contains i x) :
    ¬ R.Contains j x :=
  R.separate i j h x hx

/-- Slots that are apart have disjoint ranges of addresses. -/
theorem disjoint_of_apart {s t : Slot ι} (hs : R.Fits s) (ht : R.Fits t) (h : s.Apart t) :
    Disjoint (R.addr s) s.len (R.addr t) t.len := by
  intro x hxs hxt
  by_cases hr : s.region = t.region
  · obtain ⟨i, hi, rfl⟩ := exists_of_inRange hxs
    obtain ⟨j, hj, he⟩ := exists_of_inRange hxt
    have hle := R.size_le t.region
    have hs' : s.offset + s.len ≤ R.size t.region := hr ▸ hs
    have ht' : t.offset + t.len ≤ R.size t.region := ht
    -- both sides are distances from the base of the one region
    have hdist := congrArg (dist (R.base t.region)) he
    rw [addr, addr, hr, BitVec.add_assoc, BitVec.add_assoc, ← BitVec.ofNat_add,
      ← BitVec.ofNat_add, dist_add (by omega), dist_add (by omega)] at hdist
    rcases h with h | h | h
    · exact h hr
    · omega
    · omega
  · exact not_contains_of_ne hr (hs.contains hxs) (ht.contains hxt)

/-! ## Writes to slots -/

/-- The memory after a list of writes, each of a buffer to a slot. -/
def writeAll (R : Regions ι w) (m : BitVec w → β) (ws : List (Slot ι × (Nat → β))) :
    BitVec w → β :=
  ws.foldl (fun m p => patch m (R.addr p.1) 0 p.1.len p.2) m

@[simp] theorem writeAll_nil (m : BitVec w → β) : R.writeAll m [] = m := rfl

@[simp] theorem writeAll_cons (m : BitVec w → β) (p : Slot ι × (Nat → β))
    (ws : List (Slot ι × (Nat → β))) :
    R.writeAll m (p :: ws) = R.writeAll (patch m (R.addr p.1) 0 p.1.len p.2) ws := rfl

theorem writeAll_append (m : BitVec w → β) (ws vs : List (Slot ι × (Nat → β))) :
    R.writeAll m (ws ++ vs) = R.writeAll (R.writeAll m ws) vs := by
  rw [writeAll, List.foldl_append]
  rfl

/-- A cell after the writes depends on that cell of the memory before them. -/
theorem writeAll_congr {m m' : BitVec w → β} {x : BitVec w} (ws : List (Slot ι × (Nat → β)))
    (h : m x = m' x) : R.writeAll m ws x = R.writeAll m' ws x := by
  induction ws generalizing m m' with
  | nil => exact h
  | cons p ws ih =>
    rw [writeAll_cons, writeAll_cons]
    apply ih
    rw [patch_apply, patch_apply, h]

theorem writeAll_of_not_inRange {m : BitVec w → β} {x : BitVec w}
    {ws : List (Slot ι × (Nat → β))} (h : ∀ p ∈ ws, ¬ InRange (R.addr p.1) p.1.len x) :
    R.writeAll m ws x = m x := by
  induction ws generalizing m with
  | nil => rfl
  | cons p ws ih =>
    rw [writeAll_cons, ih (fun q hq => h q (List.mem_cons_of_mem p hq)),
      patch_of_not_inRange (h p List.mem_cons_self)]

/-- A cell of a region that no write is to. -/
theorem writeAll_of_contains {m : BitVec w → β} {x : BitVec w} {i : ι}
    {ws : List (Slot ι × (Nat → β))} (hfits : ∀ p ∈ ws, R.Fits p.1)
    (hne : ∀ p ∈ ws, p.1.region ≠ i) (hx : R.Contains i x) : R.writeAll m ws x = m x := by
  apply writeAll_of_not_inRange
  intro p hp hin
  exact not_contains_of_ne (hne p hp) ((hfits p hp).contains hin) hx

/-- Each of the slots holds its own block when they are pairwise apart. -/
theorem window_writeAll {m : BitVec w → β} {ws : List (Slot ι × (Nat → β))}
    (hfits : ∀ p ∈ ws, R.Fits p.1) (hapart : (ws.map Prod.fst).Pairwise Slot.Apart)
    {p : Slot ι × (Nat → β)} (hp : p ∈ ws) {i : Nat} (hi : i < p.1.len) :
    window (R.writeAll m ws) (R.addr p.1) i = p.2 i := by
  have hlen : p.1.len ≤ 2 ^ w := by
    have hfit := hfits p hp
    have hle := R.size_le p.1.region
    unfold Fits at hfit
    omega
  induction ws generalizing m with
  | nil => cases hp
  | cons q ws ih =>
    rw [List.map_cons, List.pairwise_cons] at hapart
    have hfits' : ∀ r ∈ ws, R.Fits r.1 := fun r hr => hfits r (List.mem_cons_of_mem q hr)
    rcases List.mem_cons.mp hp with rfl | hmem
    · -- the first write: the later ones are all somewhere else
      rw [writeAll_cons, window, writeAll_of_not_inRange, patch_of_inRange (inRange_add hi hlen),
        dist_add (by omega)]
      intro r hr hin
      have hdisj := disjoint_of_apart (hfits p hp) (hfits' r hr)
        (hapart.1 r.1 (List.mem_map_of_mem hr))
      exact hdisj _ (inRange_add hi hlen) hin
    · exact ih hfits' hapart.2 hmem

end Regions

end ByteMem
