import Mathlib

/-!
# Memories indexed by machine words

A memory is a total function from the addresses `BitVec w` to cells.  Every
range below is modular: `[a, a + n)` is the set of addresses at distance less
than `n` from `a`, so a range may run over the end of the address space.

* `dist a x` is the distance from `a` up to `x`, and `InRange a n x` says that
  it is less than `n`.
* `patch m a k n f` writes the cells `f k, …, f (k + n - 1)` at `a + k, …`.
  It is what one `memmove` into the memory does, with `f` the source buffer.
* `window m a` is the memory seen as a buffer that starts at `a`, and `fill` is
  the `memmove` in the other direction.
* `overlay m d` writes the cells that the partial map `d` names.

The lemmas say how these compose: adjacent patches join, a patch is undone by
the window that was under it, and an overlay that stays out of a range commutes
with a patch of that range.

The last group is about little-endian words in a memory of bytes.
-/

namespace ByteMem

variable {w : Nat} {β : Type}

/-! ## Modular ranges -/

/-- The distance from `a` up to `x`, modulo the size of the address space. -/
def dist (a x : BitVec w) : Nat := (x - a).toNat

/-- The address `x` is one of the `n` addresses that start at `a`. -/
def InRange (a : BitVec w) (n : Nat) (x : BitVec w) : Prop := dist a x < n

instance (a : BitVec w) (n : Nat) (x : BitVec w) : Decidable (InRange a n x) :=
  inferInstanceAs (Decidable (dist a x < n))

@[simp] theorem dist_self (a : BitVec w) : dist a a = 0 := by
  simp [dist]

@[simp] theorem add_dist (a x : BitVec w) : a + BitVec.ofNat w (dist a x) = x := by
  rw [dist, BitVec.ofNat_toNat, BitVec.setWidth_eq, BitVec.add_comm, BitVec.sub_add_cancel]

theorem dist_add {a : BitVec w} {i : Nat} (hi : i < 2 ^ w) :
    dist a (a + BitVec.ofNat w i) = i := by
  rw [dist, BitVec.add_comm, BitVec.add_sub_cancel, BitVec.toNat_ofNat, Nat.mod_eq_of_lt hi]

theorem dist_sub {a x : BitVec w} {k : Nat} (hk : k ≤ dist a x) :
    dist a (x - BitVec.ofNat w k) = dist a x - k := by
  have hlt : dist a x < 2 ^ w := (x - a).isLt
  have hx : x - BitVec.ofNat w k = a + BitVec.ofNat w (dist a x - k) := by
    nth_rewrite 1 [← add_dist a x]
    rw [show dist a x = dist a x - k + k by omega, BitVec.ofNat_add, ← BitVec.add_assoc,
      BitVec.add_sub_cancel, Nat.add_sub_cancel]
  rw [hx, dist_add (by omega)]

theorem inRange_add {a : BitVec w} {n i : Nat} (hi : i < n) (hn : n ≤ 2 ^ w) :
    InRange a n (a + BitVec.ofNat w i) := by
  rw [InRange, dist_add (by omega)]
  exact hi

theorem exists_of_inRange {a x : BitVec w} {n : Nat} (h : InRange a n x) :
    ∃ i, i < n ∧ x = a + BitVec.ofNat w i :=
  ⟨dist a x, h, (add_dist a x).symm⟩

/-- A range that stays below the end of the address space, as an interval. -/
theorem inRange_iff {a x : BitVec w} {n : Nat} (hn : a.toNat + n ≤ 2 ^ w) :
    InRange a n x ↔ a.toNat ≤ x.toNat ∧ x.toNat < a.toNat + n := by
  have ha := a.isLt
  have hx := x.isLt
  rw [InRange, dist, BitVec.toNat_sub]
  by_cases h : a.toNat ≤ x.toNat
  · have hmod : (2 ^ w - a.toNat + x.toNat) % 2 ^ w = x.toNat - a.toNat := by
      rw [show 2 ^ w - a.toNat + x.toNat = x.toNat - a.toNat + 2 ^ w by omega,
        Nat.add_mod_right, Nat.mod_eq_of_lt (by omega)]
    omega
  · rw [Nat.mod_eq_of_lt (by omega)]
    omega

/-- The `k` addresses below `x` lie in a range that starts at least `k` below it
and ends at `x` or later. -/
theorem inRange_of_below {a x y : BitVec w} {k n : Nat} (hk : k ≤ dist a x) (hn : dist a x ≤ n)
    (hw : n ≤ 2 ^ w) (hy : InRange (x - BitVec.ofNat w k) k y) : InRange a n y := by
  obtain ⟨j, hj, rfl⟩ := exists_of_inRange hy
  have hd : x - BitVec.ofNat w k = a + BitVec.ofNat w (dist a x - k) := by
    rw [← dist_sub hk, add_dist]
  rw [hd, BitVec.add_assoc, ← BitVec.ofNat_add]
  exact inRange_add (by omega) hw

/-- Two ranges with no common address. -/
def Disjoint (a : BitVec w) (n : Nat) (b : BitVec w) (k : Nat) : Prop :=
  ∀ x, InRange a n x → ¬ InRange b k x

theorem Disjoint.symm {a b : BitVec w} {n k : Nat} (h : Disjoint a n b k) :
    Disjoint b k a n :=
  fun x hb ha => h x ha hb

theorem disjoint_of_le {a b : BitVec w} {n k : Nat} (h : a.toNat + n ≤ b.toNat)
    (hk : b.toNat + k ≤ 2 ^ w) : Disjoint a n b k := by
  intro x hx hy
  rw [inRange_iff (by omega)] at hx
  rw [inRange_iff hk] at hy
  omega

/-- A range that starts `i` cells above another one, and stops before the
address space has wrapped back to it, is disjoint from it. -/
theorem disjoint_above {a : BitVec w} {n i k : Nat} (hi : n ≤ i) (hk : i + k ≤ 2 ^ w) :
    Disjoint a n (a + BitVec.ofNat w i) k := by
  intro x ha hb
  obtain ⟨j, hj, rfl⟩ := exists_of_inRange hb
  rw [InRange, BitVec.add_assoc, ← BitVec.ofNat_add, dist_add (by omega)] at ha
  omega

/-! ## Patches and windows -/

/-- Write the cells `f k, …, f (k + n - 1)` of the buffer `f` at the addresses
`a + k, …, a + (k + n - 1)`. -/
def patch (m : BitVec w → β) (a : BitVec w) (k n : Nat) (f : Nat → β) : BitVec w → β :=
  fun x => if k ≤ dist a x ∧ dist a x < k + n then f (dist a x) else m x

/-- The memory seen as a buffer that starts at `a`. -/
def window (m : BitVec w → β) (a : BitVec w) : Nat → β :=
  fun i => m (a + BitVec.ofNat w i)

/-- Copy the cells `k, …, k + n - 1` of the buffer `f` into the buffer `buf`. -/
def fill (buf : Nat → β) (k n : Nat) (f : Nat → β) : Nat → β :=
  fun i => if k ≤ i ∧ i < k + n then f i else buf i

theorem window_add (m : BitVec w → β) (a : BitVec w) (i j : Nat) :
    window m (a + BitVec.ofNat w i) j = window m a (i + j) := by
  rw [window, window, BitVec.add_assoc, ← BitVec.ofNat_add]

theorem patch_of_inRange {m : BitVec w → β} {a x : BitVec w} {n : Nat} {f : Nat → β}
    (h : InRange a n x) : patch m a 0 n f x = f (dist a x) := by
  rw [patch, if_pos ⟨Nat.zero_le _, by simpa [InRange] using h⟩]

theorem patch_of_not_inRange {m : BitVec w → β} {a x : BitVec w} {n : Nat} {f : Nat → β}
    (h : ¬ InRange a n x) : patch m a 0 n f x = m x := by
  rw [patch, if_neg (fun hx => h (by simpa [InRange] using hx.2))]

theorem patch_apply (m : BitVec w → β) (a x : BitVec w) (n : Nat) (f : Nat → β) :
    patch m a 0 n f x = if InRange a n x then f (dist a x) else m x := by
  split
  · rename_i h
    exact patch_of_inRange h
  · rename_i h
    exact patch_of_not_inRange h

@[simp] theorem patch_zero (m : BitVec w → β) (a : BitVec w) (k : Nat) (f : Nat → β) :
    patch m a k 0 f = m := by
  funext x
  rw [patch, if_neg (by omega)]

@[simp] theorem fill_zero (buf : Nat → β) (k : Nat) (f : Nat → β) : fill buf k 0 f = buf := by
  funext i
  rw [fill, if_neg (by omega)]

/-- Two adjacent patches from one buffer are one patch. -/
theorem patch_append (m : BitVec w → β) (a : BitVec w) (k n : Nat) (f : Nat → β) :
    patch (patch m a 0 k f) a k n f = patch m a 0 (k + n) f := by
  funext x
  simp only [patch, Nat.zero_le, Nat.zero_add, true_and]
  split_ifs with h1 h2 h3 h4 <;> first | rfl | omega

/-- Two adjacent fills from one buffer are one fill. -/
theorem fill_append (buf : Nat → β) (k n : Nat) (f : Nat → β) :
    fill (fill buf 0 k f) k n f = fill buf 0 (k + n) f := by
  funext i
  simp only [fill, Nat.zero_le, Nat.zero_add, true_and]
  split_ifs with h1 h2 h3 h4 <;> first | rfl | omega

theorem fill_of_lt {buf f : Nat → β} {n i : Nat} (h : i < n) : fill buf 0 n f i = f i := by
  rw [fill, if_pos ⟨Nat.zero_le _, by omega⟩]

theorem window_patch {m : BitVec w → β} {a : BitVec w} {n i : Nat} {f : Nat → β}
    (hi : i < n) (hn : n ≤ 2 ^ w) : window (patch m a 0 n f) a i = f i := by
  rw [window, patch_of_inRange (inRange_add hi hn), dist_add (by omega)]

theorem patch_congr {m : BitVec w → β} {a : BitVec w} {n : Nat} {f g : Nat → β}
    (h : ∀ i, i < n → f i = g i) : patch m a 0 n f = patch m a 0 n g := by
  funext x
  by_cases hx : InRange a n x
  · rw [patch_of_inRange hx, patch_of_inRange hx, h _ hx]
  · rw [patch_of_not_inRange hx, patch_of_not_inRange hx]

theorem patch_congr_from {m : BitVec w → β} {a : BitVec w} {k n : Nat} {f g : Nat → β}
    (h : ∀ i, k ≤ i → i < k + n → f i = g i) : patch m a k n f = patch m a k n g := by
  funext x
  rw [patch, patch]
  split
  · rename_i hx
    exact h _ hx.1 hx.2
  · rfl

/-- The later of two patches of one range wins. -/
theorem patch_patch_same (m : BitVec w → β) (a : BitVec w) (n : Nat) (f g : Nat → β) :
    patch (patch m a 0 n f) a 0 n g = patch m a 0 n g := by
  funext x
  by_cases h : InRange a n x
  · rw [patch_of_inRange h, patch_of_inRange h]
  · rw [patch_of_not_inRange h, patch_of_not_inRange h, patch_of_not_inRange h]

/-- Changing a part of a patch is a patch with the changed cells. -/
theorem patch_fill (m : BitVec w → β) (a : BitVec w) {k n len : Nat} (h : k + n ≤ len)
    (buf f : Nat → β) :
    patch (patch m a 0 len buf) a k n f = patch m a 0 len (fill buf k n f) := by
  funext x
  simp only [patch, fill, Nat.zero_le, Nat.zero_add, true_and]
  split_ifs with h1 h2 h3 <;> first | rfl | omega

/-- A patch with the cells that are already there changes nothing. -/
theorem patch_eq_self {m : BitVec w → β} {a : BitVec w} {n : Nat} {f : Nat → β}
    (h : ∀ i, i < n → f i = window m a i) : patch m a 0 n f = m := by
  funext x
  by_cases hx : InRange a n x
  · rw [patch_of_inRange hx, h _ hx, window, add_dist]
  · exact patch_of_not_inRange hx

/-- A window of a range that a patch does not meet. -/
theorem window_patch_of_disjoint {m : BitVec w → β} {a b : BitVec w} {n k i : Nat}
    {f : Nat → β} (h : Disjoint a n b k) (hi : i < k) (hk : k ≤ 2 ^ w) :
    window (patch m a 0 n f) b i = window m b i := by
  rw [window, patch_of_not_inRange (fun ha => h _ ha (inRange_add hi hk)), window]

/-! ## Overlays -/

/-- The memory after the writes that the partial map `d` names. -/
def overlay (m : BitVec w → β) (d : BitVec w → Option β) : BitVec w → β :=
  fun x => (d x).getD (m x)

theorem overlay_of_none {m : BitVec w → β} {d : BitVec w → Option β} {x : BitVec w}
    (h : d x = none) : overlay m d x = m x := by
  rw [overlay, h, Option.getD_none]

/-- An overlay that writes nothing in a range commutes with a patch of it. -/
theorem overlay_patch {m : BitVec w → β} {d : BitVec w → Option β} {a : BitVec w} {n : Nat}
    {f : Nat → β} (h : ∀ x, InRange a n x → d x = none) :
    overlay (patch m a 0 n f) d = patch (overlay m d) a 0 n f := by
  funext x
  by_cases hx : InRange a n x
  · rw [overlay_of_none (h x hx), patch_of_inRange hx, patch_of_inRange hx]
  · rw [overlay, patch_of_not_inRange hx, patch_of_not_inRange hx, overlay]

/-! ## Lists of cells -/

/-- The `n` cells that start at `a`, in order. -/
def bytesAt (m : BitVec w → β) (a : BitVec w) (n : Nat) : List β :=
  (List.range n).map (window m a)

theorem bytesAt_take (m : BitVec w → β) (a : BitVec w) {k n : Nat} (h : k ≤ n) :
    (bytesAt m a n).take k = bytesAt m a k := by
  rw [bytesAt, bytesAt, ← List.map_take, List.take_range, Nat.min_eq_left h]

theorem bytesAt_congr {m m' : BitVec w → β} {a : BitVec w} {n : Nat}
    (h : ∀ i, i < n → window m a i = window m' a i) : bytesAt m a n = bytesAt m' a n := by
  apply List.map_congr_left
  intro i hi
  exact h i (List.mem_range.mp hi)

theorem bytesAt_two {m : BitVec w → β} {a : BitVec w} {b₀ b₁ : β} (h₀ : m a = b₀)
    (h₁ : m (a + 1) = b₁) : bytesAt m a 2 = [b₀, b₁] := by
  simp only [bytesAt, window, List.range_succ, List.range_zero, List.nil_append, List.cons_append,
    List.map_cons, List.map_nil, BitVec.add_zero, h₀]
  exact congrArg (fun v => [b₀, v]) h₁

/-! ## Little-endian words -/

/-- The `i`-th byte of a word, from the least significant one up. -/
def byteOf (v : BitVec 64) (i : Nat) : BitVec 8 := v.extractLsb' (8 * i) 8

/-- The little-endian word in the eight bytes at `a`. -/
def load64 (m : BitVec 64 → BitVec 8) (a : BitVec 64) : BitVec 64 :=
  BitVec.ofFnLE fun i : Fin 64 => (window m a (i.val / 8)).getLsbD (i.val % 8)

/-- Store a word, little-endian, in the eight bytes at `a`. -/
def store64 (m : BitVec 64 → BitVec 8) (a v : BitVec 64) : BitVec 64 → BitVec 8 :=
  patch m a 0 8 (byteOf v)

theorem load64_getLsbD (m : BitVec 64 → BitVec 8) (a : BitVec 64) {i : Nat} (hi : i < 64) :
    (load64 m a).getLsbD i = (window m a (i / 8)).getLsbD (i % 8) := by
  rw [load64, BitVec.getLsbD_ofFnLE, dif_pos hi]

/-- The bytes of the word that was loaded are the bytes of the memory. -/
theorem byteOf_load64 (m : BitVec 64 → BitVec 8) (a : BitVec 64) {i : Nat} (hi : i < 8) :
    byteOf (load64 m a) i = window m a i := by
  apply BitVec.eq_of_getLsbD_eq
  intro j hj
  rw [byteOf, BitVec.getLsbD_extractLsb', load64_getLsbD m a (by omega)]
  have hdiv : (8 * i + j) / 8 = i := by omega
  have hmod : (8 * i + j) % 8 = j := by omega
  rw [hdiv, hmod]
  simp [hj]

theorem load64_congr {m m' : BitVec 64 → BitVec 8} {a b : BitVec 64}
    (h : ∀ i, i < 8 → window m a i = window m' b i) : load64 m a = load64 m' b := by
  apply BitVec.eq_of_getLsbD_eq
  intro i hi
  rw [load64_getLsbD m a hi, load64_getLsbD m' b hi, h _ (by omega)]

/-- Two words in memory are equal exactly when their eight bytes are. -/
theorem load64_eq_iff {m m' : BitVec 64 → BitVec 8} {a b : BitVec 64} :
    load64 m a = load64 m' b ↔ ∀ i, i < 8 → window m a i = window m' b i := by
  refine ⟨fun h i hi => ?_, load64_congr⟩
  rw [← byteOf_load64 m a hi, ← byteOf_load64 m' b hi, h]

/-- A load reads back the word that was stored. -/
theorem load64_store64 (m : BitVec 64 → BitVec 8) (a v : BitVec 64) :
    load64 (store64 m a v) a = v := by
  apply BitVec.eq_of_getLsbD_eq
  intro i hi
  rw [load64_getLsbD _ a hi, store64, window_patch (by omega) (by decide), byteOf,
    BitVec.getLsbD_extractLsb']
  have hsum : 8 * (i / 8) + i % 8 = i := by omega
  rw [hsum, decide_eq_true (Nat.mod_lt i (by decide)), Bool.true_and]

theorem load64_eq_of_window {m : BitVec 64 → BitVec 8} {a v : BitVec 64}
    (h : ∀ i, i < 8 → window m a i = byteOf v i) : load64 m a = v := by
  rw [← load64_store64 m a v]
  apply load64_congr
  intro i hi
  rw [h i hi, store64, window_patch hi (by decide)]

/-- A load from a range that a patch does not meet. -/
theorem load64_patch_of_disjoint {m : BitVec 64 → BitVec 8} {a b : BitVec 64} {n : Nat}
    {f : Nat → BitVec 8} (h : Disjoint a n b 8) :
    load64 (patch m a 0 n f) b = load64 m b :=
  load64_congr fun _ hi => window_patch_of_disjoint h hi (by decide)

end ByteMem
