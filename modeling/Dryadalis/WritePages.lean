import Dryadalis.ReadRounds

/-!
# The pages of `mem_write`

`memWriteCalls` is `mem_write` with the pages of its calls of `mprotect`, which
`memWrite_eq_calls` ties to `memWrite`.

The loop tests for its end only after a round, so the last round copies nothing.  It still
sets a protection: that of the page of the first byte after the range.  This is a page of
the range exactly when the range does not end with a page.  `WriteOutcome` lists what the
loop can do, and `memWriteCalls_outcome` is the run lemma.

The loop counts in an `int`, which is the count of the source for ranges of less than
`2 ^ 31` bytes.  The results are about those.
-/

namespace Dryadalis

open ByteMem Exec

/-! ## The calls -/

/-- The loop of `mem_write`, with the pages that it calls `mprotect` on. -/
def memWriteCallsLoop (k : Kernel) (dst : Word) (buf : Nat → Byte) (size : Word) :
    Nat → Word → Space → List Word × EStateM.Result Halt Space Int
  | 0, _, m => ([], .error .diverge m)
  | fuel + 1, at_, m =>
    let page := pageAlign (dst + at_)
    match getProt (dst + at_) with
    | none => ([], .ok (-1) m)
    | some prot =>
      let room := PAGE_SZ - pageOfft (dst + at_)
      let sz := if room < size - at_ then room else size - at_
      let raised := if prot.write then [] else [page]
      match (if prot.write then some m else k.mprotectPage m page { prot with write := true }) with
      | none => (raised, .ok (-1) m)
      | some m =>
        if !m.canStore (dst + at_) sz.toNat then (raised, .error .crash m)
        else
          let m := { m with byte := patch m.byte dst at_.toNat sz.toNat buf }
          match k.mprotectPage m page prot with
          | none => (raised ++ [page], .ok (-1) m)
          | some m =>
            if at_ = size then
              (raised ++ [page],
                if copied m buf dst size then .ok (size.setWidth 32).toInt m
                else .error .assertion m)
            else
              let rest := memWriteCallsLoop k dst buf size fuel (throughInt (at_ + sz)) m
              (raised ++ page :: rest.1, rest.2)

/-- `mem_write`, with the pages that it calls `mprotect` on. -/
def memWriteCalls (k : Kernel) (dst : Word) (buf : Nat → Byte) (size : Word) (m : Space) :
    List Word × EStateM.Result Halt Space Int :=
  if !isMappedRange (pageAlign dst) (size + pageOfft dst) then ([], .ok (-1) m)
  else memWriteCallsLoop k dst buf size (size.toNat + 1) 0 m

private theorem memWriteLoop_eq_calls (k : Kernel) (dst : Word) (buf : Nat → Byte) (size : Word) :
    ∀ (fuel : Nat) (at_ : Word) (m : Space),
      memWriteLoop k dst buf size fuel at_ m = (memWriteCallsLoop k dst buf size fuel at_ m).2 := by
  intro fuel
  induction fuel with
  | zero =>
    intro at_ m
    rfl
  | succ fuel ih =>
    intro at_ m
    rw [memWriteLoop, memWriteCallsLoop]
    simp only [getProt, if_true]
    generalize (if PAGE_SZ - pageOfft (dst + at_) < size - at_ then PAGE_SZ - pageOfft (dst + at_)
      else size - at_) = sz
    cases m.canStore (dst + at_) sz.toNat with
    | false => rfl
    | true =>
      cases k.mprotectPage _ (pageAlign (dst + at_)) ⟨true, true, true⟩ with
      | none => rfl
      | some m' =>
        by_cases hend : at_ = size
        · simp [hend]
        · simp [hend, ih]

/-- `memWriteCalls` is `memWrite` with the list of the calls. -/
theorem memWrite_eq_calls (k : Kernel) (dst : Word) (buf : Nat → Byte) (size : Word) (m : Space) :
    memWrite k dst buf size m = (memWriteCalls k dst buf size m).2 := by
  rw [memWrite, memWriteCalls, isMappedRange_eq_true]
  exact memWriteLoop_eq_calls ..

/-! ## What the loop does -/

/-- The number of bytes that a round of the loop at `at_` copies. -/
def roundSize (dst size at_ : Word) : Word :=
  if PAGE_SZ - pageOfft (dst + at_) < size - at_ then PAGE_SZ - pageOfft (dst + at_)
  else size - at_

/-- The next chunk: it stays in the range and in its page, and is empty only at the end. -/
theorem roundSize_spec (dst : Word) {size at_ : Word} (h : at_.toNat ≤ size.toNat) :
    at_.toNat + (roundSize dst size at_).toNat ≤ size.toNat ∧
      (dst.toNat + at_.toNat) % 4096 + (roundSize dst size at_).toNat ≤ 4096 ∧
      (at_ ≠ size → 0 < (roundSize dst size at_).toNat) ∧
      (at_ + roundSize dst size at_).toNat = at_.toNat + (roundSize dst size at_).toNat := by
  have hsub : (size - at_).toNat = size.toNat - at_.toNat :=
    BitVec.toNat_sub_of_le (BitVec.le_def.mpr h)
  have hroom := pageRoom_toNat (dst + at_)
  have hmod : (dst + at_).toNat % 4096 = (dst.toNat + at_.toNat) % 4096 := by
    rw [BitVec.toNat_add]
    omega
  have hsize := size.isLt
  have hfit : at_.toNat + (roundSize dst size at_).toNat ≤ size.toNat ∧
      (dst.toNat + at_.toNat) % 4096 + (roundSize dst size at_).toNat ≤ 4096 := by
    unfold roundSize
    split
    · rename_i hshort
      rw [BitVec.lt_def] at hshort
      omega
    · rename_i hlong
      rw [BitVec.lt_def] at hlong
      omega
  refine ⟨hfit.1, hfit.2, fun hne => ?_, ?_⟩
  · have hne' : at_.toNat ≠ size.toNat := fun h => hne (BitVec.eq_of_toNat_eq h)
    unfold roundSize
    split <;> omega
  · rw [BitVec.toNat_add, Nat.mod_eq_of_lt (by omega)]

/-- Opening pages that could be written already changes nothing about what can be written. -/
theorem stores_allowProt_iff {m : Space} {a : Word} {n i : Nat} {b : Word → Byte}
    (hn : ∀ j, j < n → m.Stores a j) :
    (Space.mk b (allowProt m.prot a n)).Stores a i ↔ m.Stores a i := by
  rw [Space.Stores, Space.Stores]
  simp only [allowProt]
  split
  · rename_i hpage
    obtain ⟨j, hj, heq⟩ := hpage
    have hstore := hn j hj
    rw [Space.Stores, ← heq] at hstore
    exact ⟨fun _ => hstore, fun _ => rfl⟩
  · exact Iff.rfl

/-- What the loop of `mem_write` can do from the byte `i` on.  `whole` goes through every
page up to that of the byte after the range.  `short` stops at the first page that cannot
be protected, after it has copied to that page.  `fault` dies at the first byte that cannot
be written. -/
inductive WriteOutcome (k : Kernel) (m : Space) (dst : Word) (buf : Nat → Byte) (size : Word)
    (i : Nat) : List Word × EStateM.Result Halt Space Int → Prop
  | whole {calls : List Word} {m' : Space}
      (opens : ∀ j, i ≤ j → j ≤ size.toNat → k.Opens dst j)
      (stores : ∀ j, i ≤ j → j < size.toNat → m.Stores dst j)
      (pages : ∀ page, page ∈ calls ↔
        ∃ j, i ≤ j ∧ j ≤ size.toNat ∧ page = pageAlign (dst + BitVec.ofNat 64 j))
      (byte : m'.byte = patch m.byte dst 0 size.toNat buf)
      (prot : m'.prot = allowProt m.prot dst (size.toNat + 1)) :
      WriteOutcome k m dst buf size i (calls, .ok size.toNat m')
  | short {calls : List Word} {m' : Space} {e n : Nat}
      (opens : ∀ j, i ≤ j → j < e → k.Opens dst j)
      (stores : ∀ j, i ≤ j → j ≤ e → j < size.toNat → m.Stores dst j)
      (shut : ¬ k.Opens dst e) (start : i ≤ e) (inRange : e ≤ size.toNat)
      (pages : ∀ page, page ∈ calls ↔
        ∃ j, i ≤ j ∧ j ≤ e ∧ page = pageAlign (dst + BitVec.ofNat 64 j))
      (written : n ≤ size.toNat) (byte : m'.byte = patch m.byte dst 0 n buf)
      (prot : m'.prot = allowProt m.prot dst e) :
      WriteOutcome k m dst buf size i (calls, .ok (-1) m')
  | fault {calls : List Word} {m' : Space} {e : Nat}
      (opens : ∀ j, i ≤ j → j < e → k.Opens dst j)
      (stores : ∀ j, i ≤ j → j < e → m.Stores dst j)
      (faults : ¬ m.Stores dst e) (start : i ≤ e) (inRange : e < size.toNat)
      (pages : ∀ page, page ∈ calls ↔
        ∃ j, i ≤ j ∧ j < e ∧ page = pageAlign (dst + BitVec.ofNat 64 j))
      (byte : m'.byte = patch m.byte dst 0 e buf)
      (prot : m'.prot = allowProt m.prot dst e) :
      WriteOutcome k m dst buf size i (calls, .error .crash m')

section Round

variable {k : Kernel} {m : Space} {dst : Word} {buf : Nat → Byte} {size : Word}

/-- The `memmove` of a round faults at its first byte or not at all. -/
theorem canStore_round_iff {at_ : Word} (hle : at_.toNat ≤ size.toNat) (m' : Space) :
    m'.canStore (dst + at_) (roundSize dst size at_).toNat = true ↔
      (at_ ≠ size → m'.Stores dst at_.toNat) := by
  obtain ⟨hfit, hroom, hpos, -⟩ := roundSize_spec dst hle
  have hsize := size.isLt
  rw [Space.canStore_iff]
  constructor
  · intro hall hne
    have hfirst := hall 0 (hpos hne)
    rw [add_ofNat_add] at hfirst
    exact hfirst
  · intro hstore i hi
    have hne : at_ ≠ size := by
      rintro rfl
      omega
    have hpage := pageAlign_add_of_lt dst (show at_.toNat ≤ at_.toNat + i by omega) (by omega)
      (by omega)
    rw [add_ofNat_add, hpage]
    exact hstore hne

/-- A round whose page can be written and protected. -/
theorem memWriteCallsLoop_of_opens {fuel : Nat} {at_ : Word} {m' : Space}
    (hstore : m'.canStore (dst + at_) (roundSize dst size at_).toNat = true)
    (h : k.Opens dst at_.toNat) :
    memWriteCallsLoop k dst buf size (fuel + 1) at_ m' =
      let page := pageAlign (dst + at_)
      let next := Space.allow
        ⟨patch m'.byte dst at_.toNat (roundSize dst size at_).toNat buf, m'.prot⟩ page
      if at_ = size then
        ([page], if copied next buf dst size then .ok (size.setWidth 32).toInt next
          else .error .assertion next)
      else
        let rest := memWriteCallsLoop k dst buf size fuel
          (throughInt (at_ + roundSize dst size at_)) next
        (page :: rest.1, rest.2) := by
  rw [Kernel.Opens, BitVec.ofNat_toNat, BitVec.setWidth_eq] at h
  rw [roundSize] at hstore
  rw [memWriteCallsLoop]
  simp only [getProt, if_true, hstore, Bool.not_true, Bool.false_eq_true, if_false,
    Kernel.mprotectPage_of_ok h, List.nil_append]
  rfl

/-- A round whose page can be written but not protected. -/
theorem memWriteCallsLoop_of_shut {fuel : Nat} {at_ : Word} {m' : Space}
    (hstore : m'.canStore (dst + at_) (roundSize dst size at_).toNat = true)
    (h : ¬ k.Opens dst at_.toNat) :
    memWriteCallsLoop k dst buf size (fuel + 1) at_ m' =
      ([pageAlign (dst + at_)],
        .ok (-1) ⟨patch m'.byte dst at_.toNat (roundSize dst size at_).toNat buf, m'.prot⟩) := by
  rw [Kernel.Opens, BitVec.ofNat_toNat, BitVec.setWidth_eq] at h
  rw [roundSize] at hstore
  rw [memWriteCallsLoop]
  simp only [getProt, if_true, hstore, Bool.not_true, Bool.false_eq_true, if_false,
    Kernel.mprotectPage, if_neg h, List.nil_append]
  rfl

/-- A round whose page cannot be written. -/
theorem memWriteCallsLoop_of_faults {fuel : Nat} {at_ : Word} {m' : Space}
    (hfault : ¬ m'.canStore (dst + at_) (roundSize dst size at_).toNat = true) :
    memWriteCallsLoop k dst buf size (fuel + 1) at_ m' = ([], .error .crash m') := by
  rw [roundSize, Bool.not_eq_true] at hfault
  rw [memWriteCallsLoop]
  simp only [getProt, if_true, hfault, Bool.not_false]

/-- One more round before a run. -/
theorem WriteOutcome.cons {i n : Nat} {out : List Word × EStateM.Result Halt Space Int}
    (hin : i < n) (hpage : ∀ j, i ≤ j → j < n →
      pageAlign (dst + BitVec.ofNat 64 j) = pageAlign (dst + BitVec.ofNat 64 i))
    (hopen : k.Opens dst i) (hstore : m.Stores dst i) (hn : n ≤ size.toNat)
    (h : WriteOutcome k m dst buf size n out) :
    WriteOutcome k m dst buf size i (pageAlign (dst + BitVec.ofNat 64 i) :: out.1, out.2) := by
  have hfirst : ∀ j, i ≤ j → j < n → k.Opens dst j ∧ m.Stores dst j := by
    intro j hj hlt
    rw [Kernel.Opens, Space.Stores, hpage j hj hlt]
    exact ⟨hopen, hstore⟩
  have hpages : ∀ {bound : Nat → Prop} {calls : List Word}, (∀ j, j < n → bound j) →
      (∀ page, page ∈ calls ↔ ∃ j, n ≤ j ∧ bound j ∧ page = pageAlign (dst + BitVec.ofNat 64 j)) →
      ∀ page, page ∈ pageAlign (dst + BitVec.ofNat 64 i) :: calls ↔
        ∃ j, i ≤ j ∧ bound j ∧ page = pageAlign (dst + BitVec.ofNat 64 j) := by
    intro bound calls hbound hrest page
    rw [List.mem_cons, hrest]
    constructor
    · rintro (rfl | ⟨j, hj, he, rfl⟩)
      · exact ⟨i, le_refl _, hbound i hin, rfl⟩
      · exact ⟨j, by omega, he, rfl⟩
    · rintro ⟨j, hj, he, rfl⟩
      by_cases hlt : j < n
      · exact Or.inl (hpage j hj hlt)
      · exact Or.inr ⟨j, by omega, he, rfl⟩
  cases h with
  | whole opens stores pages byte prot =>
    refine .whole (fun j hj he => ?_) (fun j hj he => ?_) (hpages (fun j hj => by omega) pages)
      byte prot
    · by_cases hlt : j < n
      · exact (hfirst j hj hlt).1
      · exact opens j (by omega) he
    · by_cases hlt : j < n
      · exact (hfirst j hj hlt).2
      · exact stores j (by omega) he
  | short opens stores shut start inRange pages written byte prot =>
    refine .short (fun j hj he => ?_) (fun j hj he hend => ?_) shut (by omega) inRange
      (hpages (fun j hj => by omega) pages) written byte prot
    · by_cases hlt : j < n
      · exact (hfirst j hj hlt).1
      · exact opens j (by omega) he
    · by_cases hlt : j < n
      · exact (hfirst j hj hlt).2
      · exact stores j (by omega) he hend
  | fault opens stores faults start inRange pages byte prot =>
    refine .fault (fun j hj he => ?_) (fun j hj he => ?_) faults (by omega) inRange
      (hpages (fun j hj => by omega) pages) byte prot
    · by_cases hlt : j < n
      · exact (hfirst j hj hlt).1
      · exact opens j (by omega) he
    · by_cases hlt : j < n
      · exact (hfirst j hj hlt).2
      · exact stores j (by omega) he

/-- The run of the round after the last chunk. -/
theorem WriteOutcome.last {m' : Space} (hopen : k.Opens dst size.toNat)
    (hbyte : m'.byte = patch m.byte dst 0 size.toNat buf)
    (hprot : m'.prot = allowProt m.prot dst (size.toNat + 1)) :
    WriteOutcome k m dst buf size size.toNat
      ([pageAlign (dst + BitVec.ofNat 64 size.toNat)], .ok size.toNat m') := by
  refine .whole (fun j hj hlt => ?_) (fun j hj hlt => by omega) (fun page => ?_) hbyte hprot
  · rw [show j = size.toNat by omega]
    exact hopen
  · rw [List.mem_singleton]
    constructor
    · rintro rfl
      exact ⟨_, le_refl _, le_refl _, rfl⟩
    · rintro ⟨j, hj, hlt, rfl⟩
      rw [show j = size.toNat by omega]

/-- The run of a round whose page cannot be protected. -/
theorem WriteOutcome.failed {i n : Nat} {m' : Space} (hle : i ≤ size.toNat)
    (hstore : i < size.toNat → m.Stores dst i) (hshut : ¬ k.Opens dst i) (hn : n ≤ size.toNat)
    (hbyte : m'.byte = patch m.byte dst 0 n buf) (hprot : m'.prot = allowProt m.prot dst i) :
    WriteOutcome k m dst buf size i ([pageAlign (dst + BitVec.ofNat 64 i)], .ok (-1) m') := by
  refine .short (fun j hj hlt => by omega) (fun j hj hlt hend => ?_) hshut (le_refl _) hle
    (fun page => ?_) hn hbyte hprot
  · obtain rfl : j = i := by omega
    exact hstore hend
  · rw [List.mem_singleton]
    constructor
    · rintro rfl
      exact ⟨_, le_refl _, le_refl _, rfl⟩
    · rintro ⟨j, hj, hlt, rfl⟩
      rw [show j = i by omega]

private theorem memWriteCallsLoop_outcome_aux (hint : size.toNat < 2 ^ 31) :
    ∀ (fuel : Nat) (at_ : Word) (m' : Space),
      size.toNat - at_.toNat < fuel → at_.toNat ≤ size.toNat →
      (∀ j, j < at_.toNat → m.Stores dst j) →
      m'.byte = patch m.byte dst 0 at_.toNat buf → m'.prot = allowProt m.prot dst at_.toNat →
      WriteOutcome k m dst buf size at_.toNat
        (memWriteCallsLoop k dst buf size fuel at_ m') := by
  intro fuel
  induction fuel with
  | zero =>
    intro at_ m' hfuel
    omega
  | succ fuel ih =>
    intro at_ m' hfuel hle hpast hbyte hprot
    obtain ⟨hfit, hroom, hpos, hnext⟩ := roundSize_spec dst hle
    have hself : dst + at_ = dst + BitVec.ofNat 64 at_.toNat := by simp
    have hcan : m'.canStore (dst + at_) (roundSize dst size at_).toNat = true ↔ _ :=
      canStore_round_iff hle m'
    have hstores : m'.Stores dst at_.toNat ↔ m.Stores dst at_.toNat := by
      rw [← stores_allowProt_iff (b := m'.byte) hpast, ← hprot]
    by_cases hstore : m'.canStore (dst + at_) (roundSize dst size at_).toNat = true
    · have hstore' : at_ ≠ size → m.Stores dst at_.toNat := fun hne =>
        hstores.mp (hcan.mp hstore hne)
      by_cases hopen : k.Opens dst at_.toNat
      · rw [memWriteCallsLoop_of_opens hstore hopen]
        simp only
        rw [hself, hbyte, hprot, patch_append]
        by_cases hend : at_ = size
        · subst hend
          have hzero : (roundSize dst at_ at_).toNat = 0 := by omega
          have hupdate := update_allowProt m.prot dst (Nat.lt_succ_self at_.toNat)
            fun j hj hlt => by rw [show j = at_.toNat by omega]
          rw [if_pos rfl, hzero, Nat.add_zero, if_pos, setWidth_toInt_of_lt hint]
          · exact WriteOutcome.last hopen rfl hupdate
          · apply copied_of_forall
            intro i hi
            rw [Space.allow_byte, window_patch hi (by omega)]
        · have hlt := hpos hend
          have hpage : ∀ j, at_.toNat ≤ j → j < at_.toNat + (roundSize dst size at_).toNat →
              pageAlign (dst + BitVec.ofNat 64 j) =
                pageAlign (dst + BitVec.ofNat 64 at_.toNat) := fun j hj hlt =>
            pageAlign_add_of_lt dst hj (by omega) (by omega)
          have hupdate := update_allowProt m.prot dst (by omega) hpage
          have hdone : ∀ j, j < at_.toNat + (roundSize dst size at_).toNat → m.Stores dst j := by
            intro j hj
            by_cases hlt : j < at_.toNat
            · exact hpast j hlt
            · rw [Space.Stores, hpage j (by omega) hj]
              exact hstore' hend
          have hrest := ih (at_ + roundSize dst size at_)
            (Space.allow ⟨patch m.byte dst 0 (at_.toNat + (roundSize dst size at_).toNat) buf,
              allowProt m.prot dst at_.toNat⟩ (pageAlign (dst + BitVec.ofNat 64 at_.toNat)))
            (by omega) (by omega) (by rw [hnext]; exact hdone) (by rw [hnext, Space.allow_byte])
            (by rw [hnext]; exact hupdate)
          rw [if_neg hend, throughInt_of_lt (by omega)]
          rw [hnext] at hrest
          exact WriteOutcome.cons (by omega) hpage hopen (hstore' hend) hfit hrest
      · rw [memWriteCallsLoop_of_shut hstore hopen, hbyte, hprot, patch_append, hself]
        refine WriteOutcome.failed hle (fun hlt => hstore' ?_) hopen hfit rfl rfl
        rintro rfl
        omega
    · have hfault : at_ ≠ size ∧ ¬ m.Stores dst at_.toNat := by
        rw [hcan, Classical.not_imp, hstores] at hstore
        exact hstore
      have hne : at_.toNat ≠ size.toNat := fun h => hfault.1 (BitVec.eq_of_toNat_eq h)
      rw [memWriteCallsLoop_of_faults hstore]
      refine .fault (fun j hj hlt => by omega) (fun j hj hlt => by omega) hfault.2 (le_refl _)
        (by omega) (fun page => ?_) hbyte hprot
      constructor
      · intro hpage
        exact absurd hpage List.not_mem_nil
      · rintro ⟨j, hj, hlt, -⟩
        omega

variable (k m dst buf) in
/-- What a call of `mem_write` does. -/
theorem memWriteCalls_outcome (hint : size.toNat < 2 ^ 31) :
    WriteOutcome k m dst buf size 0 (memWriteCalls k dst buf size m) := by
  rw [memWriteCalls, isMappedRange_eq_true]
  exact memWriteCallsLoop_outcome_aux hint (size.toNat + 1) 0 m (by simp) (by simp)
    (fun j hj => absurd hj (Nat.not_lt_zero j)) (by simp) (by simp)

/-- `mem_write` patches the range and returns its size, when every byte of it can be written
and its pages, and that of the byte after it, can be protected. -/
theorem memWrite_spec (m : Space) (buf : Nat → Byte) (hint : size.toNat < 2 ^ 31)
    (hstore : ∀ i, i < size.toNat → m.Stores dst i) (hok : ∀ i, i ≤ size.toNat → k.Opens dst i) :
    memWrite k dst buf size m =
      .ok size.toNat ⟨patch m.byte dst 0 size.toNat buf,
        allowProt m.prot dst (size.toNat + 1)⟩ := by
  have hout := memWriteCalls_outcome k m dst buf hint
  rw [memWrite_eq_calls]
  generalize memWriteCalls k dst buf size m = out at hout
  cases hout with
  | @whole calls m' opens stores pages byte prot =>
    rw [← byte, ← prot]
  | short opens stores shut start inRange pages written byte prot =>
    exact absurd (hok _ inRange) shut
  | fault opens stores faults start inRange pages byte prot =>
    exact absurd (hstore _ inRange) faults

variable (k m dst buf) in
/-- `mem_write` returns or faults, and opens some pages. -/
theorem memWrite_total (hint : size.toNat < 2 ^ 31) :
    ∃ m' : Space, m.Opened m' ∧ ((∃ r : Int, memWrite k dst buf size m = .ok r m') ∨
      memWrite k dst buf size m = .error .crash m') := by
  have hopened : ∀ {m' : Space} {n : Nat}, m'.prot = allowProt m.prot dst n → m.Opened m' := by
    intro m' n hprot page
    have hpage := opened_allowProt m dst n m'.byte page
    rw [← hprot] at hpage
    exact hpage
  have hout := memWriteCalls_outcome k m dst buf hint
  rw [memWrite_eq_calls]
  generalize memWriteCalls k dst buf size m = out at hout
  cases hout with
  | @whole calls m' opens stores pages byte prot =>
    exact ⟨m', hopened prot, Or.inl ⟨size.toNat, rfl⟩⟩
  | @short calls m' e n opens stores shut start inRange pages written byte prot =>
    exact ⟨m', hopened prot, Or.inl ⟨-1, rfl⟩⟩
  | @fault calls m' e opens stores faults start inRange pages byte prot =>
    exact ⟨m', hopened prot, Or.inr rfl⟩

/-- A call that returns a count has protected the page of the first byte, whatever the length
is. -/
theorem memWrite_opens {m' : Space} {r : Int} (h : memWrite k dst buf size m = .ok r m')
    (hr : r ≠ -1) : k.Opens dst 0 := by
  by_contra hshut
  rw [memWrite_eq_calls, memWriteCalls, isMappedRange_eq_true] at h
  by_cases hstore : m.canStore (dst + 0) (roundSize dst size 0).toNat = true
  · rw [Bool.not_true, if_neg Bool.false_ne_true, memWriteCallsLoop_of_shut hstore hshut] at h
    exact hr (EStateM.Result.ok.inj h).1.symm
  · rw [Bool.not_true, if_neg Bool.false_ne_true, memWriteCallsLoop_of_faults hstore] at h
    cases h

end Round

/-! ## The pages of the range -/

/-- The pages of a call are those of its own range, and what happens outside the range does
not matter: the call returns, or dies at a byte of the range that cannot be written, it
changes no other byte, and it writes the range and returns its size when the pages of the
range can be protected. -/
structure TouchesOwn (k : Kernel) (m : Space) (dst : Word) (buf : Nat → Byte) (size : Word)
    (out : List Word × EStateM.Result Halt Space Int) : Prop where
  pages : ∀ page, page ∈ out.1 →
    ∃ i, i < size.toNat ∧ page = pageAlign (dst + BitVec.ofNat 64 i)
  ends : (∃ ret m', out.2 = .ok ret m') ∨
    (∃ m', out.2 = .error .crash m') ∧ ∃ i, i < size.toNat ∧ ¬ m.Stores dst i
  frame : ∀ x, ¬ InRange dst size.toNat x → (final out.2).byte x = m.byte x
  whole : (∀ i, i < size.toNat → k.Opens dst i) →
    ∃ m' : Space, out.2 = .ok size.toNat m' ∧ m'.byte = patch m.byte dst 0 size.toNat buf

/-- The page of the byte after the range is a page of the range when the range does not end
with a page, and no page of it otherwise. -/
theorem nextPage_mem_iff (dst : Word) {size : Word} (hpos : 0 < size.toNat)
    (hlt : size.toNat < 2 ^ 31) :
    (∃ i, i < size.toNat ∧
      pageAlign (dst + BitVec.ofNat 64 size.toNat) = pageAlign (dst + BitVec.ofNat 64 i)) ↔
      (dst.toNat + size.toNat) % 4096 ≠ 0 := by
  have hdst := dst.isLt
  constructor
  · rintro ⟨i, hi, heq⟩
    rw [← BitVec.toNat_inj, pageAlign_toNat, pageAlign_toNat, BitVec.toNat_add, BitVec.toNat_add,
      BitVec.toNat_ofNat, BitVec.toNat_ofNat] at heq
    omega
  · intro hne
    refine ⟨size.toNat - 1, by omega, ?_⟩
    exact pageAlign_add_of_lt dst (by omega) (by omega) (by omega)

section Own

variable (k : Kernel) (m : Space) (dst : Word) (buf : Nat → Byte) (size : Word)

/-- `mem_write` touches only its own pages unless every page of the range can be protected
and one of them cannot be written, or the range ends with a page.  In the first case the
copy dies before the `mprotect`, and in the second `mprotect` is called on the page after
the range too. -/
theorem memWrite_touchesOwn_iff (hpos : 0 < size.toNat) (hlt : size.toNat < 2 ^ 31) :
    TouchesOwn k m dst buf size (memWriteCalls k dst buf size m) ↔
      (∃ i, i < size.toNat ∧ ¬ k.Opens dst i) ∨
        (∀ i, i < size.toNat → m.Stores dst i) ∧ (dst.toNat + size.toNat) % 4096 ≠ 0 := by
  have hnext := nextPage_mem_iff dst hpos hlt
  have hout := memWriteCalls_outcome k m dst buf hlt
  generalize memWriteCalls k dst buf size m = out at hout
  cases hout with
  | @whole calls m' opens stores pages byte prot =>
    have hframe : ∀ x, ¬ InRange dst size.toNat x → m'.byte x = m.byte x := fun x hx => by
      rw [byte, patch_of_not_inRange hx]
    constructor
    · intro howns
      refine Or.inr ⟨fun i hi => stores i (Nat.zero_le i) hi, ?_⟩
      rw [← hnext]
      exact howns.pages _ ((pages _).mpr ⟨size.toNat, Nat.zero_le _, le_refl _, rfl⟩)
    · rintro (⟨i, hi, hshut⟩ | ⟨-, haligned⟩)
      · exact absurd (opens i (Nat.zero_le i) hi.le) hshut
      · refine ⟨fun page hpage => ?_, Or.inl ⟨_, m', rfl⟩, hframe, fun _ => ⟨m', rfl, byte⟩⟩
        obtain ⟨j, -, hj, rfl⟩ := (pages page).mp hpage
        rcases Nat.lt_or_eq_of_le hj with hj | rfl
        · exact ⟨j, hj, rfl⟩
        · exact hnext.mpr haligned
  | @short calls m' e n opens stores shut start inRange pages written byte prot =>
    have hframe : ∀ x, ¬ InRange dst size.toNat x → m'.byte x = m.byte x := fun x hx => by
      rw [byte, patch_of_not_inRange fun h => hx (Nat.lt_of_lt_of_le h written)]
    constructor
    · intro howns
      obtain ⟨i, hi, heq⟩ := howns.pages _ ((pages _).mpr ⟨e, start, le_refl _, rfl⟩)
      refine Or.inl ⟨i, hi, ?_⟩
      rw [Kernel.Opens, ← heq]
      exact shut
    · intro hcond
      -- The page that could not be protected is one of the range.
      obtain ⟨i, hi, heq⟩ : ∃ i, i < size.toNat ∧
          pageAlign (dst + BitVec.ofNat 64 e) = pageAlign (dst + BitVec.ofNat 64 i) := by
        rcases Nat.lt_or_eq_of_le inRange with hlt | rfl
        · exact ⟨e, hlt, rfl⟩
        · rcases hcond with ⟨i, hi, hshut⟩ | ⟨-, haligned⟩
          · exact absurd (opens i (Nat.zero_le i) hi) hshut
          · exact hnext.mpr haligned
      have hshut : ¬ k.Opens dst i := by
        rw [Kernel.Opens, ← heq]
        exact shut
      refine ⟨fun page hpage => ?_, Or.inl ⟨_, m', rfl⟩, hframe,
        fun hall => absurd (hall i hi) hshut⟩
      obtain ⟨j, -, hj, rfl⟩ := (pages page).mp hpage
      by_cases hlt : j < size.toNat
      · exact ⟨j, hlt, rfl⟩
      · rw [show j = e by omega]
        exact ⟨i, hi, heq⟩
  | @fault calls m' e opens stores faults start inRange pages byte prot =>
    have hframe : ∀ x, ¬ InRange dst size.toNat x → m'.byte x = m.byte x := fun x hx => by
      rw [byte, patch_of_not_inRange fun h => hx (Nat.lt_trans h inRange)]
    constructor
    · intro howns
      left
      by_contra hall
      obtain ⟨m'', hret, -⟩ := howns.whole fun i hi => by
        by_contra hshut
        exact hall ⟨i, hi, hshut⟩
      cases hret
    · rintro (⟨i, hi, hshut⟩ | ⟨hstores, -⟩)
      · refine ⟨fun page hpage => ?_, Or.inr ⟨⟨m', rfl⟩, e, inRange, faults⟩, hframe,
          fun hall => absurd (hall i hi) hshut⟩
        obtain ⟨j, -, hj, rfl⟩ := (pages page).mp hpage
        exact ⟨j, by omega, rfl⟩
      · exact absurd (hstores e inRange) faults

end Own

/-- One page of data, and a kernel that knows of no other. -/
def dataPage (p : Prot) : Space := ⟨fun _ => 0, mappedBetween 0x1000 0x2000 p⟩

theorem memWrite_touchesOwn_iff_page_end :
    let k := Kernel.between 0x1000 0x2000
    let m := dataPage ⟨true, true, false⟩
    (0 < (1 : Word).toNat ∧ (1 : Word).toNat < 2 ^ 31) ∧
      (TouchesOwn k m 0x1fff (fun _ => 7) 1 (memWriteCalls k 0x1fff (fun _ => 7) 1 m) ↔
        (∃ i, i < (1 : Word).toNat ∧ ¬ k.Opens 0x1fff i) ∨
          (∀ i, i < (1 : Word).toNat → m.Stores 0x1fff i) ∧
            ((0x1fff : Word).toNat + (1 : Word).toNat) % 4096 ≠ 0) :=
  ⟨⟨by decide, by decide⟩, memWrite_touchesOwn_iff _ _ _ _ _ (by decide) (by decide)⟩

/-- The last byte of the only mapped page is written, and the call returns -1. -/
theorem memWrite_fails_after_page_end :
    let k := Kernel.between 0x1000 0x2000
    let m := dataPage ⟨true, true, false⟩
    (∀ i, i < (1 : Word).toNat → k.Opens 0x1fff i ∧ m.Stores 0x1fff i) ∧
      ¬ TouchesOwn k m 0x1fff (fun _ => 7) 1 (memWriteCalls k 0x1fff (fun _ => 7) 1 m) := by
  intro k m
  have hpages : ∀ i, i < (1 : Word).toNat → k.Opens 0x1fff i ∧ m.Stores 0x1fff i := by decide
  refine ⟨hpages, fun howns => ?_⟩
  obtain ⟨m', hret, -⟩ := howns.whole fun i hi => (hpages i hi).1
  have hfail : ∃ s, (memWriteCalls k 0x1fff (fun _ => 7) 1 m).2 = .ok (-1) s := ⟨_, rfl⟩
  obtain ⟨s, hfail⟩ := hfail
  rw [hfail] at hret
  have hsize := (EStateM.Result.ok.inj hret).1
  simp at hsize

end Dryadalis
