import Dryadalis.Lib.Exec
import Dryadalis.Kernel

/-!
# The auxiliary vector

`add_auxvt` appends a pair to an area of zero words, and `auxvt` looks an identifier up.
Neither keeps a length, and neither goes by pairs.  The end of the vector is the first zero
word that is followed by another one, and a lookup stops at the first word that is equal to
the identifier.

So a zero value is overwritten by the next identifier, which `packed` describes, and a
value that is equal to an identifier is taken for it.  `auxvRoundTrip_iff` says for which
sequences of pairs neither happens.
-/

namespace Dryadalis

open Exec

/-! ## Words in memory -/

/-- Memory of words, by index.  `written` has the indices that were written, newest first.
The last two fields are the ones of `dbi_handler` that `setup_stack` sets. -/
structure StackMem where
  words : List Word
  written : List Nat
  rsp : Word
  baseGuestStack : Word

/-- `segv` is an access past the last word, `overflow` an `int` index that overflows. -/
inductive StackStop where
  | segv | overflow
  deriving DecidableEq, Repr

/-- A function that fills memory. -/
abbrev Stk := EStateM StackStop StackMem

/-- `base[i] = w` -/
def storeWord (i : Nat) (w : Word) : Stk Unit := do
  let m ← get
  if i < m.words.length then
    set { m with words := m.words.set i w, written := i :: m.written }
  else
    throw .segv

/-- `INT_MAX` -/
def INT_MAX : Nat := 2 ^ 31 - 1

/-! ## `add_auxvt` and `auxvt` -/

/-- The loop of `add_auxvt`.  `none` is an access past the last word. -/
def endOfAuxv : List Word → Option Nat
  | a :: b :: rest =>
    if a ≠ 0 ∨ b ≠ 0 then (endOfAuxv (b :: rest)).map (· + 1) else some 0
  | _ => none

/-- `add_auxvt` with `base_auxvt` at index `base`. -/
def addAuxvt (id : Word) (base : Nat) (val : Word) : Stk Unit := do
  let m ← get
  match endOfAuxv (m.words.drop base) with
  | some iTarget =>
    if INT_MAX ≤ iTarget then
      throw .overflow
    storeWord (base + iTarget) id
    storeWord (base + iTarget + 1) val
  | none => throw .segv

/-- A sequence of calls of `add_auxvt`. -/
def addAuxvts (base : Nat) : List (Word × Word) → Stk Unit
  | [] => return ()
  | p :: ps => do
    addAuxvt p.1 base p.2
    addAuxvts base ps

/-- The loop of `auxvt`. -/
def auxvtIndex (id : Word) : List Word → Option Nat
  | a :: b :: rest =>
    if a ≠ id ∧ (a ≠ 0 ∨ b ≠ 0) then (auxvtIndex id (b :: rest)).map (· + 1) else some 0
  | _ => none

/-- `auxvt`.  `none` is an access past the last word, or an index that overflows. -/
def auxvt (orig : List Word) (id : Word) : Option Word :=
  match auxvtIndex id orig with
  | some iOrig => if INT_MAX ≤ iOrig then none else orig[iOrig + 1]?
  | none => none

/-! ## Scanning -/

/-- The scan goes over nonzero words to the first two zero words. -/
theorem endOfAuxv_append {l : List Word} (hl : ∀ w ∈ l, w ≠ 0) (rest : List Word) :
    endOfAuxv (l ++ 0 :: 0 :: rest) = some l.length := by
  induction l with
  | nil => rfl
  | cons a l ih =>
    have ha : a ≠ 0 := hl a List.mem_cons_self
    have hl' := ih fun w hw => hl w (List.mem_cons_of_mem a hw)
    cases l with
    | nil =>
      rw [List.nil_append] at hl'
      rw [List.cons_append, List.nil_append, endOfAuxv, if_pos (Or.inl ha), hl']
      rfl
    | cons b l =>
      rw [List.cons_append] at hl'
      rw [List.cons_append, List.cons_append, endOfAuxv, if_pos (Or.inl ha), hl']
      rfl

/-- The lookup goes over nonzero words to the first one that is equal to the identifier. -/
theorem auxvtIndex_append {id b : Word} {l : List Word} (hl : ∀ w ∈ l, w ≠ 0 ∧ w ≠ id)
    (rest : List Word) : auxvtIndex id (l ++ id :: b :: rest) = some l.length := by
  induction l with
  | nil =>
    rw [List.nil_append, auxvtIndex, if_neg fun h => h.1 rfl]
    rfl
  | cons a l ih =>
    obtain ⟨ha, hid⟩ := hl a List.mem_cons_self
    have hl' := ih fun w hw => hl w (List.mem_cons_of_mem a hw)
    cases l with
    | nil =>
      rw [List.nil_append] at hl'
      rw [List.cons_append, List.nil_append, auxvtIndex, if_pos ⟨hid, Or.inl ha⟩, hl']
      rfl
    | cons c l =>
      rw [List.cons_append] at hl'
      rw [List.cons_append, List.cons_append, auxvtIndex, if_pos ⟨hid, Or.inl ha⟩, hl']
      rfl

theorem auxvt_append {id b : Word} {l : List Word} (hl : ∀ w ∈ l, w ≠ 0 ∧ w ≠ id)
    (hlen : l.length < INT_MAX) (rest : List Word) : auxvt (l ++ id :: b :: rest) id = some b := by
  rw [auxvt, auxvtIndex_append hl]
  show (if INT_MAX ≤ l.length then none else _) = _
  rw [if_neg (Nat.not_le.2 hlen), List.getElem?_append_right (Nat.le_succ _),
    Nat.succ_sub (Nat.le_refl _), Nat.sub_self]
  rfl

/-! ## Appending -/

theorem storeWord_at {m : StackMem} {pre post : List Word} {x : Word} {i : Nat} (w : Word)
    (hm : m.words = pre ++ x :: post) (hi : i = pre.length) :
    storeWord i w m =
      .ok () { m with words := pre ++ w :: post, written := i :: m.written } := by
  subst hi
  have hlt : pre.length < m.words.length := by rw [hm]; simp
  have hset : m.words.set pre.length w = pre ++ w :: post := by
    rw [hm, List.set_append_right _ _ (Nat.le_refl _), Nat.sub_self]
    rfl
  rw [storeWord, bind_of_ok (get_apply m), if_pos hlt, hset]
  rfl

/-- The end of the vector is where the two zero words are. -/
theorem endOfAuxv_drop {m : StackMem} {pre l post : List Word} {base : Nat}
    (hm : m.words = pre ++ (l ++ 0 :: 0 :: post)) (hbase : base = pre.length)
    (hl : ∀ w ∈ l, w ≠ 0) : endOfAuxv (m.words.drop base) = some l.length := by
  rw [hm, hbase, List.drop_left, endOfAuxv_append hl]

/-- A pair goes where the two zero words are. -/
theorem addAuxvt_at {m : StackMem} {pre l post : List Word} {base : Nat} (id val : Word)
    (hm : m.words = pre ++ (l ++ 0 :: 0 :: post)) (hbase : base = pre.length)
    (hl : ∀ w ∈ l, w ≠ 0) (hlen : l.length < INT_MAX) :
    addAuxvt id base val m = .ok ()
      { m with
        words := pre ++ (l ++ id :: val :: post)
        written := (base + l.length + 1) :: (base + l.length) :: m.written } := by
  have hm₀ : m.words = (pre ++ l) ++ 0 :: 0 :: post := by rw [hm, List.append_assoc]
  let m₁ : StackMem :=
    { m with words := (pre ++ l) ++ id :: 0 :: post, written := (base + l.length) :: m.written }
  have hm₁ : m₁.words = (pre ++ l ++ [id]) ++ 0 :: post := by simp [m₁]
  have hid : storeWord (base + l.length) id m = .ok () m₁ :=
    storeWord_at id hm₀ (by rw [hbase, List.length_append])
  rw [addAuxvt, bind_of_ok (get_apply m), endOfAuxv_drop hm hbase hl]
  simp only [if_neg (Nat.not_le.2 hlen)]
  rw [bind_of_ok hid, storeWord_at val hm₁ (by simp [hbase, Nat.add_assoc])]
  simp [m₁]

/-! ## A sequence of pairs -/

/-- What is left of a pair when the next one has been added: a zero value is overwritten. -/
def packedEntry (p : Word × Word) : List Word := if p.2 = 0 then [p.1] else [p.1, p.2]

/-- The words before the end of the vector. -/
def packed (ps : List (Word × Word)) : List Word := ps.flatMap packedEntry

@[simp] theorem packed_nil : packed [] = [] := rfl

@[simp] theorem packed_cons (p : Word × Word) (ps : List (Word × Word)) :
    packed (p :: ps) = packedEntry p ++ packed ps := List.flatMap_cons

theorem packed_append (ps qs : List (Word × Word)) : packed (ps ++ qs) = packed ps ++ packed qs :=
  List.flatMap_append

theorem packedEntry_ne_zero {p : Word × Word} (hp : p.1 ≠ 0) : ∀ w ∈ packedEntry p, w ≠ 0 := by
  intro w hw
  rw [packedEntry] at hw
  split at hw
  · rw [List.mem_singleton.1 hw]
    exact hp
  · rename_i hval
    rcases List.mem_pair.1 hw with rfl | rfl
    · exact hp
    · exact hval

theorem append_packedEntry_ne_zero {l : List Word} {p : Word × Word} (hl : ∀ w ∈ l, w ≠ 0)
    (hp : p.1 ≠ 0) : ∀ w ∈ l ++ packedEntry p, w ≠ 0 := by
  intro w hw
  rcases List.mem_append.1 hw with hw | hw
  · exact hl w hw
  · exact packedEntry_ne_zero hp w hw

/-- The pair and the zero words after it. -/
theorem packedEntry_zeros (p : Word × Word) (r : Nat) :
    p.1 :: p.2 :: List.replicate r 0 =
      packedEntry p ++ List.replicate (r + 2 - (packedEntry p).length) 0 := by
  rw [packedEntry]
  split
  · rename_i hval
    rw [hval]
    rfl
  · rfl

theorem packedEntry_length_le (p : Word × Word) : (packedEntry p).length ≤ 2 := by
  rw [packedEntry]
  split <;> simp

/-- The number of words that adding the pairs writes to. -/
def extent : List (Word × Word) → Nat
  | [] => 0
  | p :: ps => max 2 ((packedEntry p).length + extent ps)

/-- Only a zero value at the end is written and not part of the vector. -/
theorem extent_bounds (ps : List (Word × Word)) :
    (packed ps).length ≤ extent ps ∧ extent ps ≤ (packed ps).length + 1 := by
  induction ps with
  | nil => exact ⟨Nat.le_refl _, Nat.zero_le _⟩
  | cons p ps ih =>
    have hpos : 1 ≤ (packedEntry p).length := by
      rw [packedEntry]
      split <;> simp
    rw [packed_cons, List.length_append, extent]
    omega

section Run

variable {ps : List (Word × Word)} {pre post : List Word} {base : Nat}

/-- One step of the run, with the zero words counted. -/
theorem addAuxvt_step {m : StackMem} {l : List Word} {r : Nat} (p : Word × Word)
    (hbase : base = pre.length) (hm : m.words = pre ++ (l ++ (List.replicate r 0 ++ post)))
    (hl : ∀ w ∈ l, w ≠ 0) (hr : 2 ≤ r) (hlen : l.length < INT_MAX) :
    addAuxvt p.1 base p.2 m = .ok ()
      { m with
        words := pre ++ ((l ++ packedEntry p) ++
          (List.replicate (r - (packedEntry p).length) 0 ++ post))
        written := (base + l.length + 1) :: (base + l.length) :: m.written } := by
  obtain ⟨r, rfl⟩ := Nat.exists_eq_add_of_le' hr
  have hwords : l ++ p.1 :: p.2 :: (List.replicate r 0 ++ post) = (l ++ packedEntry p) ++
      (List.replicate (r + 2 - (packedEntry p).length) 0 ++ post) := by
    rw [← List.cons_append, ← List.cons_append, packedEntry_zeros, List.append_assoc,
      List.append_assoc]
  rw [← hwords]
  exact addAuxvt_at p.1 p.2 hm hbase hl hlen

theorem addAuxvt_overflow {m : StackMem} {l : List Word} {r : Nat} (id val : Word)
    (hbase : base = pre.length) (hm : m.words = pre ++ (l ++ (List.replicate r 0 ++ post)))
    (hl : ∀ w ∈ l, w ≠ 0) (hr : 2 ≤ r) (hlen : INT_MAX ≤ l.length) :
    addAuxvt id base val m = .error .overflow m := by
  obtain ⟨r, rfl⟩ := Nat.exists_eq_add_of_le' hr
  rw [addAuxvt, bind_of_ok (get_apply m), endOfAuxv_drop hm hbase hl]
  simp only [if_pos hlen]
  rfl

/-- All pairs are added when there is room for them and no index overflows. -/
theorem addAuxvts_run (hbase : base = pre.length) (hid : ∀ p ∈ ps, p.1 ≠ 0) {m : StackMem}
    {l : List Word} {r : Nat} (hm : m.words = pre ++ (l ++ (List.replicate r 0 ++ post)))
    (hl : ∀ w ∈ l, w ≠ 0) (hr : extent ps ≤ r) (hlen : l.length + extent ps ≤ INT_MAX + 1) :
    ∃ ws, addAuxvts base ps m = .ok ()
        { m with
          words := pre ++ ((l ++ packed ps) ++
            (List.replicate (r - (packed ps).length) 0 ++ post))
          written := ws ++ m.written } ∧
      ∀ i ∈ ws, i < base + l.length + extent ps := by
  induction ps generalizing m l r with
  | nil =>
    refine ⟨[], ?_, fun i hi => absurd hi List.not_mem_nil⟩
    rw [packed_nil, List.append_nil, List.length_nil, Nat.sub_zero, List.nil_append, ← hm]
    rfl
  | cons p ps ih =>
    rw [extent] at hr hlen ⊢
    have hl' := append_packedEntry_ne_zero hl (hid p List.mem_cons_self)
    obtain ⟨ws, hrun, hws⟩ := ih (fun q hq => hid q (List.mem_cons_of_mem p hq))
      (m := { m with
        words := pre ++ ((l ++ packedEntry p) ++
          (List.replicate (r - (packedEntry p).length) 0 ++ post))
        written := (base + l.length + 1) :: (base + l.length) :: m.written })
      rfl hl' (by omega) (by rw [List.length_append]; omega)
    refine ⟨ws ++ [base + l.length + 1, base + l.length], ?_, ?_⟩
    · rw [addAuxvts, bind_of_ok (addAuxvt_step p hbase hm hl (by omega) (by omega)), hrun]
      simp [Nat.sub_sub]
    · intro i hi
      rcases List.mem_append.1 hi with hi | hi
      · have hlt := hws i hi
        rw [List.length_append] at hlt
        omega
      · rcases List.mem_pair.1 hi with rfl | rfl <;> omega

/-- A run that adds all pairs has not let an index overflow. -/
theorem addAuxvts_no_overflow (hbase : base = pre.length) (hid : ∀ p ∈ ps, p.1 ≠ 0)
    {m m' : StackMem} {l : List Word} {r : Nat}
    (hm : m.words = pre ++ (l ++ (List.replicate r 0 ++ post))) (hl : ∀ w ∈ l, w ≠ 0)
    (hr : extent ps ≤ r) (hlen : l.length ≤ INT_MAX + 1)
    (hrun : addAuxvts base ps m = .ok () m') : l.length + extent ps ≤ INT_MAX + 1 := by
  induction ps generalizing m l r with
  | nil => exact hlen
  | cons p ps ih =>
    rw [extent] at hr ⊢
    rw [addAuxvts] at hrun
    have hlt : l.length < INT_MAX := by
      by_contra hge
      have hfull := addAuxvt_overflow p.1 p.2 hbase hm hl (by omega) (Nat.not_lt.1 hge)
      rw [bind_of_error hfull] at hrun
      cases hrun
    have hl' := append_packedEntry_ne_zero hl (hid p List.mem_cons_self)
    have hentry := packedEntry_length_le p
    rw [bind_of_ok (addAuxvt_step p hbase hm hl (by omega) hlt)] at hrun
    have hrest := ih (fun q hq => hid q (List.mem_cons_of_mem p hq)) rfl hl' (by omega)
      (by rw [List.length_append]; omega) hrun
    rw [List.length_append] at hrest
    omega

end Run

/-! ## By pairs -/

/-- The pairs as words. -/
def pairWords (ps : List (Word × Word)) : List Word := ps.flatMap fun p => [p.1, p.2]

@[simp] theorem pairWords_nil : pairWords [] = [] := rfl

@[simp] theorem pairWords_cons (p : Word × Word) (ps : List (Word × Word)) :
    pairWords (p :: ps) = p.1 :: p.2 :: pairWords ps := List.flatMap_cons

theorem pairWords_append (ps qs : List (Word × Word)) :
    pairWords (ps ++ qs) = pairWords ps ++ pairWords qs := List.flatMap_append

@[simp] theorem pairWords_length (ps : List (Word × Word)) :
    (pairWords ps).length = 2 * ps.length := by
  induction ps with
  | nil => rfl
  | cons p ps ih =>
    rw [pairWords_cons, List.length_cons, List.length_cons, List.length_cons, ih]
    omega

/-- Every pair is in its own two words. -/
def StoredByPairs (ps : List (Word × Word)) (words : List Word) : Prop :=
  ∀ k p, ps[k]? = some p → words[2 * k]? = some p.1 ∧ words[2 * k + 1]? = some p.2

theorem storedByPairs_iff {ps : List (Word × Word)} :
    ∀ {words : List Word}, StoredByPairs ps words ↔ pairWords ps <+: words := by
  induction ps with
  | nil =>
    intro words
    exact iff_of_true (fun k p h => by simp at h) (List.nil_prefix)
  | cons p ps ih =>
    intro words
    constructor
    · intro h
      obtain ⟨hid, hval⟩ := h 0 p rfl
      match words, hid, hval with
      | a :: b :: words, hid, hval =>
        obtain rfl : a = p.1 := by simpa using hid
        obtain rfl : b = p.2 := by simpa using hval
        have hrest : StoredByPairs ps words := fun k q hq => h (k + 1) q hq
        rw [pairWords_cons, List.prefix_cons_inj, List.prefix_cons_inj]
        exact ih.1 hrest
    · rintro ⟨rest, rfl⟩ k q hq
      cases k with
      | zero =>
        obtain rfl : p = q := by simpa using hq
        exact ⟨rfl, rfl⟩
      | succ k => exact ih.2 ⟨rest, rfl⟩ k q hq

/-- The vector has its pairs in their places exactly when no value but the last is zero. -/
theorem pairWords_prefix_packed {ps : List (Word × Word)} (hid : ∀ p ∈ ps, p.1 ≠ 0) {r : Nat}
    (hr : extent ps ≤ (packed ps).length + r) :
    pairWords ps <+: packed ps ++ List.replicate r 0 ↔ ∀ p ∈ ps.dropLast, p.2 ≠ 0 := by
  induction ps with
  | nil => exact iff_of_true List.nil_prefix (fun p hp => absurd hp List.not_mem_nil)
  | cons p ps ih =>
    rw [extent, packed_cons, List.length_append] at hr
    have hih := ih (fun q hq => hid q (List.mem_cons_of_mem p hq)) (by omega)
    rw [pairWords_cons, packed_cons, List.append_assoc]
    cases ps with
    | nil =>
      have hzeros := packedEntry_zeros p ((packedEntry p).length + r - 2)
      have hroom : 2 ≤ (packedEntry p).length + r := (Nat.le_max_left 2 _).trans hr
      have hsum : (packedEntry p).length + r - 2 + 2 - (packedEntry p).length = r := by omega
      rw [hsum] at hzeros
      rw [packed_nil, List.nil_append, ← hzeros]
      exact iff_of_true ⟨_, rfl⟩ (fun q hq => absurd hq List.not_mem_nil)
    | cons q ps =>
      rw [List.dropLast_cons_cons, List.forall_mem_cons]
      by_cases hval : p.2 = 0
      · -- The zero value is where the next identifier is.
        refine iff_of_false ?_ fun h => h.1 hval
        rintro ⟨rest, h⟩
        have hq : q.1 ≠ 0 := hid q (by simp)
        rw [packed_cons, packedEntry, if_pos hval, packedEntry] at h
        have hsecond := congrArg (fun ws : List Word => ws[1]?) h
        have hfirst : p.2 = q.1 := by
          split at hsecond <;> simpa using hsecond
        exact hq (hfirst ▸ hval)
      · rw [packedEntry, if_neg hval, List.cons_append, List.cons_append, List.nil_append,
          List.prefix_cons_inj, List.prefix_cons_inj, hih]
        exact (and_iff_right hval).symm

/-! ## The round trip -/

/-- An area of zero words. -/
def zeroArea (n : Nat) : StackMem :=
  { words := List.replicate n 0, written := [], rsp := 0, baseGuestStack := 0 }

/-- Adding the pairs to a zero area of `n` words puts each in its own two words, and every
identifier is then looked up to its value. -/
def AuxvRoundTrip (ps : List (Word × Word)) (n : Nat) : Prop :=
  ∃ m, addAuxvts 0 ps (zeroArea n) = .ok () m ∧ StoredByPairs ps m.words ∧
    ∀ p ∈ ps, auxvt m.words p.1 = some p.2

/-- No value but the last is zero, and a value that is the identifier of a later pair is
followed by the value of that pair, if it is the first such value. -/
structure Unambiguous (ps : List (Word × Word)) : Prop where
  short : ps.length ≤ 2 ^ 30
  nonzero : ∀ p ∈ ps.dropLast, p.2 ≠ 0
  unshadowed : ∀ {u p q v}, ps = u ++ p :: q :: v → (∀ r ∈ u, r.2 ≠ p.2) →
    ∀ r ∈ q :: v, r.1 = p.2 → r.2 = q.1

section RoundTrip

variable {ps : List (Word × Word)} {n : Nat}

/-- No value but the last is zero: the extent is the whole of the pairs. -/
theorem extent_of_nonzero (h : ∀ p ∈ ps.dropLast, p.2 ≠ 0) : extent ps = 2 * ps.length := by
  induction ps with
  | nil => rfl
  | cons p ps ih =>
    have hentry := packedEntry_length_le p
    cases ps with
    | nil =>
      rw [extent, extent]
      simpa using hentry
    | cons q ps =>
      rw [List.dropLast_cons_cons, List.forall_mem_cons] at h
      rw [extent, ih h.2, packedEntry, if_neg h.1, List.length_cons (a := p)]
      simp only [List.length_cons, List.length_nil]
      omega

theorem extent_le (ps : List (Word × Word)) : extent ps ≤ 2 * ps.length := by
  induction ps with
  | nil => exact Nat.le_refl 0
  | cons p ps ih =>
    have hentry := packedEntry_length_le p
    rw [extent, List.length_cons]
    omega

theorem zeroArea_words (n : Nat) :
    (zeroArea n).words = [] ++ ([] ++ (List.replicate n 0 ++ [])) := by
  rw [List.append_nil]
  rfl

/-- The area after all pairs have been added. -/
theorem addAuxvts_zeroArea (hid : ∀ p ∈ ps, p.1 ≠ 0) (hn : extent ps ≤ n)
    (hlen : extent ps ≤ INT_MAX + 1) :
    ∃ m, addAuxvts 0 ps (zeroArea n) = .ok () m ∧
      m.words = packed ps ++ List.replicate (n - (packed ps).length) 0 := by
  obtain ⟨ws, hrun, -⟩ := addAuxvts_run (show 0 = ([] : List Word).length from rfl) hid
    (zeroArea_words n) (fun w hw => absurd hw List.not_mem_nil) hn (by simpa using hlen)
  exact ⟨_, hrun, by simp⟩

theorem pairWords_forall {u : List (Word × Word)} {P : Word → Prop}
    (h : ∀ r ∈ u, P r.1 ∧ P r.2) : ∀ w ∈ pairWords u, P w := by
  intro w hw
  obtain ⟨r, hr, hw⟩ := List.mem_flatMap.1 hw
  rcases List.mem_pair.1 hw with rfl | rfl
  · exact (h r hr).1
  · exact (h r hr).2

section Lookup

variable {words : List Word} {u v : List (Word × Word)} {p q : Word × Word}
  (hid : ∀ p ∈ ps, p.1 ≠ 0) (hdistinct : (ps.map Prod.fst).Nodup)
  (hnonzero : ∀ p ∈ ps.dropLast, p.2 ≠ 0)

include hid hdistinct hnonzero

/-- The words before a pair are neither zero nor the identifier of it or of a later pair, if
no value among them is. -/
theorem pairWords_before {x : Word} (hps : ps = u ++ p :: v) (hx : ∃ r ∈ p :: v, r.1 = x)
    (hu : ∀ r ∈ u, r.2 ≠ x) : ∀ w ∈ pairWords u, w ≠ 0 ∧ w ≠ x := by
  subst hps
  refine pairWords_forall fun r hr => ⟨⟨hid r (by simp [hr]), ?_⟩, hnonzero r ?_, hu r hr⟩
  · obtain ⟨s, hs, rfl⟩ := hx
    rw [List.map_append, List.nodup_append'] at hdistinct
    intro heq
    exact hdistinct.2.2 (List.mem_map_of_mem hr) (heq ▸ List.mem_map_of_mem hs)
  · rw [List.dropLast_append_cons]
    exact List.mem_append_left _ hr

variable (hshort : ps.length ≤ 2 ^ 30) (hwords : pairWords ps <+: words)

include hshort hwords

/-- A pair is found when no value before it is equal to its identifier. -/
theorem auxvt_own (hps : ps = u ++ p :: v) (hu : ∀ r ∈ u, r.2 ≠ p.1) :
    auxvt words p.1 = some p.2 := by
  have hbefore := pairWords_before hid hdistinct hnonzero hps ⟨p, List.mem_cons_self, rfl⟩ hu
  obtain ⟨rest, rfl⟩ := hwords
  subst hps
  rw [pairWords_append, pairWords_cons, List.append_assoc, List.cons_append, List.cons_append]
  refine auxvt_append hbefore ?_ _
  rw [List.length_append, List.length_cons] at hshort
  rw [pairWords_length, INT_MAX]
  omega

/-- A value that is equal to a later identifier is found in its place. -/
theorem auxvt_shadowed (hps : ps = u ++ p :: q :: v) (hu : ∀ r ∈ u, r.2 ≠ p.2)
    (hp : ∃ r ∈ q :: v, r.1 = p.2) : auxvt words p.2 = some q.1 := by
  obtain ⟨r, hr, hrp⟩ := hp
  have hbefore := pairWords_before hid hdistinct hnonzero hps
    ⟨r, List.mem_cons_of_mem p hr, hrp⟩ hu
  have hfirst : p.1 ≠ 0 ∧ p.1 ≠ p.2 := by
    refine ⟨hid p (by simp [hps]), ?_⟩
    intro heq
    rw [hps, List.map_append, List.nodup_append'] at hdistinct
    refine (List.nodup_cons.1 hdistinct.2.1).1 ?_
    rw [heq, ← hrp]
    exact List.mem_map_of_mem hr
  obtain ⟨rest, rfl⟩ := hwords
  subst hps
  have hsplit : pairWords (u ++ p :: q :: v) ++ rest =
      (pairWords u ++ [p.1]) ++ p.2 :: q.1 :: (q.2 :: pairWords v ++ rest) := by
    simp [pairWords_append]
  rw [hsplit]
  refine auxvt_append ?_ ?_ _
  · intro w hw
    rcases List.mem_append.1 hw with hw | hw
    · exact hbefore w hw
    · rw [List.mem_singleton.1 hw]
      exact hfirst
  · rw [List.length_append, List.length_cons, List.length_cons] at hshort
    rw [List.length_append, pairWords_length, List.length_singleton, INT_MAX]
    omega

end Lookup

/-- In an unambiguous vector every identifier is found, at a value that is equal to it or in
its own place. -/
theorem auxvt_unambiguous {words : List Word} (hid : ∀ p ∈ ps, p.1 ≠ 0)
    (hdistinct : (ps.map Prod.fst).Nodup) (h : Unambiguous ps) (hwords : pairWords ps <+: words)
    {p : Word × Word} (hp : p ∈ ps) : auxvt words p.1 = some p.2 := by
  obtain ⟨u, v, hps⟩ := List.append_of_mem hp
  cases hfirst : u.find? fun r => r.2 = p.1 with
  | none =>
    have hu := List.find?_eq_none.1 hfirst
    exact auxvt_own hid hdistinct h.nonzero h.short hwords hps (by simpa using hu)
  | some r =>
    -- The first value that is the identifier is followed by the identifier of `q`.
    obtain ⟨hr, u₁, u₂, rfl, hu₁⟩ := List.find?_eq_some_iff_append.1 hfirst
    have hr' : r.2 = p.1 := of_decide_eq_true hr
    obtain ⟨q, w, hq⟩ : ∃ q w, u₂ ++ p :: v = q :: w :=
      List.exists_cons_of_ne_nil (by simp)
    have hsplit : ps = u₁ ++ r :: q :: w := by
      rw [hps, List.append_assoc, List.cons_append, hq]
    have hpq : p ∈ q :: w := by
      rw [← hq]
      simp
    have hbefore : ∀ s ∈ u₁, s.2 ≠ r.2 := by
      rw [hr']
      simpa using hu₁
    rw [← hr', auxvt_shadowed hid hdistinct h.nonzero h.short hwords hsplit hbefore
      ⟨p, hpq, hr'.symm⟩, h.unshadowed hsplit hbefore p hpq hr'.symm]

theorem auxvRoundTrip_of_unambiguous (hid : ∀ p ∈ ps, p.1 ≠ 0)
    (hdistinct : (ps.map Prod.fst).Nodup) (hn : extent ps ≤ n) (h : Unambiguous ps) :
    AuxvRoundTrip ps n := by
  have hover : extent ps ≤ INT_MAX + 1 := by
    have hshort := h.short
    rw [extent_of_nonzero h.nonzero, INT_MAX]
    omega
  obtain ⟨m, hrun, hwords⟩ := addAuxvts_zeroArea hid hn hover
  have hprefix : pairWords ps <+: m.words := by
    rw [hwords]
    exact (pairWords_prefix_packed hid (by omega)).2 h.nonzero
  exact ⟨m, hrun, storedByPairs_iff.2 hprefix,
    fun p hp => auxvt_unambiguous hid hdistinct h hprefix hp⟩

theorem unambiguous_of_auxvRoundTrip (hid : ∀ p ∈ ps, p.1 ≠ 0)
    (hdistinct : (ps.map Prod.fst).Nodup) (hn : extent ps ≤ n) (h : AuxvRoundTrip ps n) :
    Unambiguous ps := by
  obtain ⟨m, hrun, hstored, hfound⟩ := h
  have hover : extent ps ≤ INT_MAX + 1 := by
    have h := addAuxvts_no_overflow (show 0 = ([] : List Word).length from rfl) hid
      (zeroArea_words n) (fun w hw => absurd hw List.not_mem_nil) hn (Nat.zero_le _) hrun
    simpa using h
  obtain ⟨m', hrun', hwords⟩ := addAuxvts_zeroArea hid hn hover
  obtain rfl : m = m' := by
    rw [hrun] at hrun'
    cases hrun'
    rfl
  have hprefix : pairWords ps <+: m.words := storedByPairs_iff.1 hstored
  have hnonzero : ∀ p ∈ ps.dropLast, p.2 ≠ 0 :=
    (pairWords_prefix_packed hid (by omega)).1 (hwords ▸ hprefix)
  have hshort : ps.length ≤ 2 ^ 30 := by
    rw [extent_of_nonzero hnonzero, INT_MAX] at hover
    omega
  refine ⟨hshort, hnonzero, ?_⟩
  intro u p q v hps hu r hr hrp
  have hshadow := auxvt_shadowed hid hdistinct hnonzero hshort hprefix hps hu ⟨r, hr, hrp⟩
  have hown := hfound r (by rw [hps]; exact List.mem_append_right u (List.mem_cons_of_mem p hr))
  rw [hrp, hshadow] at hown
  exact (Option.some.inj hown).symm

/-- The round trip works exactly for the sequences of pairs that are unambiguous. -/
theorem auxvRoundTrip_iff (hid : ∀ p ∈ ps, p.1 ≠ 0) (hdistinct : (ps.map Prod.fst).Nodup)
    (hn : 2 * ps.length ≤ n) : AuxvRoundTrip ps n ↔ Unambiguous ps := by
  have hroom : extent ps ≤ n := (extent_le ps).trans hn
  exact ⟨unambiguous_of_auxvRoundTrip hid hdistinct hroom,
    auxvRoundTrip_of_unambiguous hid hdistinct hroom⟩

end RoundTrip

/-- Two pairs whose values are neither zero nor identifiers. -/
theorem auxvRoundTrip_iff_two : AuxvRoundTrip [(9, 0x40), (6, 0x10)] 4 := by
  refine (auxvRoundTrip_iff (by simp) (by simp) (by simp)).2 ⟨by simp, by simp, ?_⟩
  intro u p q v h
  cases u with
  | nil =>
    cases h
    intro _ r hr heq
    rw [List.mem_singleton.1 hr] at heq
    exact absurd heq (by decide)
  | cons r u =>
    have hlen := congrArg List.length h
    simp only [List.length_append, List.length_cons, List.length_nil] at hlen
    omega

/-- The zero value of the first pair is overwritten by the identifier of the second. -/
theorem addAuxvt_overwrites_zero : ¬ AuxvRoundTrip [(0x17, 0), (0x1f, 5)] 4 := by
  rintro ⟨m, hrun, hstored, -⟩
  obtain ⟨m', hrun', hwords⟩ := addAuxvts_zeroArea (n := 4)
    (show ∀ p ∈ [((0x17 : Word), (0 : Word)), (0x1f, 5)], p.1 ≠ 0 by simp) (by decide)
    ((extent_le _).trans (by simp [INT_MAX]))
  rw [hrun] at hrun'
  cases hrun'
  have hval := (hstored 0 (0x17, 0) rfl).2
  rw [hwords] at hval
  exact absurd hval (by decide)

end Dryadalis
