import Dryadalis.Lib.Tiling
import Dryadalis.Memory

/-!
# The rounds of `mem_read`

`Memory` follows what `mem_read` leaves in the buffer.  This file follows its calls of
`round_read`: `readRounds` is `mem_read` again, over any state that a round may change,
and it lists the rounds it made.

* `memReadRounds` has the buffer apart from the memory, as `memRead` has.
  `memRead_eq_rounds` says that it is `memRead` with the list of rounds added.
* `memReadAt` has the buffer in the memory that is read, where a round could overwrite
  bytes that a later round has to copy.  `memReadAt_eq_rounds` says that it is
  `memReadRounds` when the buffer is apart from the range and can be written.

`Outcome` is what the loop can do: the rounds tile the range, or they tile a part of it
and one more round fails or faults.  `readRounds_outcome` is the run lemma, and `RoundSpec`
is what it asks of a single round.
-/

namespace Dryadalis

open ByteMem Exec Tiling

/-! ## The pages of a range -/

/-- The page of the byte at distance `i` from `a` can be protected. -/
def Kernel.Opens (k : Kernel) (a : Word) (i : Nat) : Prop :=
  k.mprotect (pageAlign (a + BitVec.ofNat 64 i)) = true

instance (k : Kernel) (a : Word) (i : Nat) : Decidable (k.Opens a i) :=
  inferInstanceAs (Decidable (_ = true))

/-- The byte at distance `i` from `a` can be read. -/
def Kernel.Loads (k : Kernel) (m : Space) (a : Word) (i : Nat) : Prop :=
  k.loads (m.prot (pageAlign (a + BitVec.ofNat 64 i))) = true

instance (k : Kernel) (m : Space) (a : Word) (i : Nat) : Decidable (k.Loads m a i) :=
  inferInstanceAs (Decidable (_ = true))

/-- The byte at distance `i` from `a` can be written. -/
def Space.Stores (m : Space) (a : Word) (i : Nat) : Prop :=
  Prot.stores (m.prot (pageAlign (a + BitVec.ofNat 64 i))) = true

instance (m : Space) (a : Word) (i : Nat) : Decidable (m.Stores a i) :=
  inferInstanceAs (Decidable (_ = true))

/-- A round that gets to the byte at distance `i` from `a` reads it: there is no fault, and
its page can be protected. -/
def Kernel.Reads (k : Kernel) (m : Space) (a : Word) (i : Nat) : Prop :=
  k.Loads m a i ∧ k.Opens a i

instance (k : Kernel) (m : Space) (a : Word) (i : Nat) : Decidable (k.Reads m a i) :=
  inferInstanceAs (Decidable (_ ∧ _))

/-- The range does not leave its page. -/
def FitsPage (src size : Word) : Prop := ¬ PAGE_SZ - pageOfft src < size

instance (src size : Word) : Decidable (FitsPage src size) := inferInstanceAs (Decidable (¬ _))

theorem fitsPage_iff (src size : Word) :
    FitsPage src size ↔ src.toNat % 4096 + size.toNat ≤ 4096 := by
  have hroom := pageRoom_toNat src
  rw [FitsPage, BitVec.lt_def, hroom]
  omega

theorem Chunk.lt {src size at_ sz : Word} (h : Chunk src size at_ sz) :
    at_.toNat < size.toNat := by
  have hpos := h.pos
  have hrange := h.inRange
  omega

theorem Chunk.next_toNat {src size at_ sz : Word} (h : Chunk src size at_ sz) :
    (at_ + sz).toNat = at_.toNat + sz.toNat := by
  have hrange := h.inRange
  have hsize := size.isLt
  rw [BitVec.toNat_add, Nat.mod_eq_of_lt (by omega)]

/-- A range that does not leave its page is one chunk. -/
theorem Chunk.whole {src size : Word} (hpos : 0 < size.toNat) (h : FitsPage src size) :
    Chunk src size 0 size := by
  rw [fitsPage_iff] at h
  exact ⟨hpos, by simp, by simpa using h, Or.inl (by simp)⟩

/-- A chunk lies in one page. -/
theorem Chunk.page_eq {src size at_ sz : Word} (h : Chunk src size at_ sz) {i : Nat}
    (hi : at_.toNat ≤ i) (hlt : i < at_.toNat + sz.toNat) :
    pageAlign (src + BitVec.ofNat 64 i) = pageAlign (src + BitVec.ofNat 64 at_.toNat) := by
  have hpage := h.inPage
  have hrange := h.inRange
  have hsize := size.isLt
  exact pageAlign_add_of_lt src hi (by omega) (by omega)

theorem Chunk.opens_iff {k : Kernel} {src size at_ sz : Word} (h : Chunk src size at_ sz)
    {i : Nat} (hi : at_.toNat ≤ i) (hlt : i < at_.toNat + sz.toNat) :
    k.Opens src i ↔ k.Opens src at_.toNat := by
  rw [Kernel.Opens, Kernel.Opens, h.page_eq hi hlt]

theorem Chunk.loads_iff {k : Kernel} {m : Space} {src size at_ sz : Word}
    (h : Chunk src size at_ sz) {i : Nat} (hi : at_.toNat ≤ i)
    (hlt : i < at_.toNat + sz.toNat) : k.Loads m src i ↔ k.Loads m src at_.toNat := by
  rw [Kernel.Loads, Kernel.Loads, h.page_eq hi hlt]

theorem Chunk.reads {k : Kernel} {m : Space} {src size at_ sz : Word}
    (h : Chunk src size at_ sz) (hreads : k.Reads m src at_.toNat) {i : Nat}
    (hi : at_.toNat ≤ i) (hlt : i < at_.toNat + sz.toNat) : k.Reads m src i :=
  ⟨(h.loads_iff hi hlt).mpr hreads.1, (h.opens_iff hi hlt).mpr hreads.2⟩

/-- The bytes of a range from the byte `i` of another one on. -/
theorem add_ofNat_add (a : Word) (at_ : Word) (i : Nat) :
    a + at_ + BitVec.ofNat 64 i = a + BitVec.ofNat 64 (at_.toNat + i) := by
  rw [BitVec.ofNat_add, BitVec.ofNat_toNat, BitVec.setWidth_eq, BitVec.add_assoc]

/-- The `memmove` of a chunk faults at its first byte or not at all. -/
theorem Chunk.canLoad_iff {k : Kernel} {m : Space} {src size at_ sz : Word}
    (h : Chunk src size at_ sz) :
    k.canLoad m (src + at_) sz.toNat = true ↔ k.Loads m src at_.toNat := by
  have hpos := h.pos
  rw [k.canLoad_iff]
  constructor
  · intro hall
    have hfirst := hall 0 hpos
    rw [add_ofNat_add] at hfirst
    exact hfirst
  · intro hload i hi
    rw [add_ofNat_add]
    exact (h.loads_iff (Nat.le_add_right _ _) (by omega)).mpr hload

/-- The page has the protection that `get_prot` reports for every page. -/
def Space.allow (m : Space) (page : Word) : Space :=
  { m with prot := Function.update m.prot page (some ⟨true, true, true⟩) }

@[simp] theorem Space.allow_byte (m : Space) (page : Word) : (m.allow page).byte = m.byte := rfl

/-- The protections after the pages of the `n` bytes at `a` have been given the one that
`get_prot` reports. -/
def allowProt (prot : Word → Option Prot) (a : Word) (n : Nat) : Word → Option Prot :=
  fun page =>
    if ∃ i, i < n ∧ page = pageAlign (a + BitVec.ofNat 64 i) then some ⟨true, true, true⟩
    else prot page

@[simp] theorem allowProt_zero (prot : Word → Option Prot) (a : Word) :
    allowProt prot a 0 = prot := by
  funext page
  simp [allowProt]

/-- Setting the protection of one more page. -/
theorem update_allowProt (prot : Word → Option Prot) (a : Word) {i n : Nat} (hi : i < n)
    (hpage : ∀ j, i ≤ j → j < n →
      pageAlign (a + BitVec.ofNat 64 j) = pageAlign (a + BitVec.ofNat 64 i)) :
    Function.update (allowProt prot a i) (pageAlign (a + BitVec.ofNat 64 i))
      (some ⟨true, true, true⟩) = allowProt prot a n := by
  funext page
  by_cases hself : page = pageAlign (a + BitVec.ofNat 64 i)
  · rw [hself, Function.update_self, allowProt, if_pos ⟨i, hi, rfl⟩]
  · rw [Function.update_of_ne hself, allowProt, allowProt]
    congr 1
    apply propext
    constructor
    · rintro ⟨j, hj, heq⟩
      exact ⟨j, by omega, heq⟩
    · rintro ⟨j, hj, heq⟩
      by_cases hlt : j < i
      · exact ⟨j, hlt, heq⟩
      · rw [hpage j (by omega) hj] at heq
        exact absurd heq hself

theorem opened_allowProt (m : Space) (a : Word) (n : Nat) (byte : Word → Byte) :
    m.Opened ⟨byte, allowProt m.prot a n⟩ := by
  intro page
  show allowProt m.prot a n page = _ ∨ allowProt m.prot a n page = _
  rw [allowProt]
  split
  · exact Or.inr rfl
  · exact Or.inl rfl

/-- Opening pages that could be read already changes nothing about what can be read. -/
theorem loads_allowProt_iff {k : Kernel} {m : Space} {a : Word} {n i : Nat}
    {byte : Word → Byte} (hn : ∀ j, j < n → k.Loads m a j) :
    k.Loads ⟨byte, allowProt m.prot a n⟩ a i ↔ k.Loads m a i := by
  rw [Kernel.Loads, Kernel.Loads]
  simp only [allowProt]
  split
  · rename_i hpage
    obtain ⟨j, hj, heq⟩ := hpage
    have hload := hn j hj
    rw [Kernel.Loads, ← heq] at hload
    exact ⟨fun _ => hload, fun _ => rfl⟩
  · exact Iff.rfl

/-- The bytes of the mapped part of an address space. -/
theorem between_reads {lo hi a : Word} {p : Prot} {byte : Word → Byte} {i : Nat}
    (hlo : pageOfft lo = 0) (hle : lo ≤ a) (hp : (Kernel.between lo hi).loads (some p) = true)
    (hlt : a.toNat + i < hi.toNat) :
    (Kernel.between lo hi).Reads ⟨byte, mappedBetween lo hi p⟩ a i := by
  have hmod := mod_of_pageOfft hlo
  have hi64 := hi.isLt
  have hpage := pageAlign_add_toNat (a := a) (i := i) (by omega)
  rw [BitVec.le_def] at hle
  have hin : lo ≤ pageAlign (a + BitVec.ofNat 64 i) ∧ pageAlign (a + BitVec.ofNat 64 i) < hi := by
    rw [BitVec.le_def, BitVec.lt_def, hpage]
    omega
  have hprot : mappedBetween lo hi p (pageAlign (a + BitVec.ofNat 64 i)) = some p := if_pos hin
  refine ⟨?_, ?_⟩
  · simp only [Kernel.Loads, hprot]
    exact hp
  · simp [Kernel.Opens, Kernel.between, hin.1, hin.2]

/-! ## The rounds -/

/-- A call of `round_read` that returned: where it starts, what it has to copy, what it
returned. -/
structure Round where
  offt : Word
  size : Word
  ret : Nat

/-- The part of the range that the round is about. -/
def Round.piece (r : Round) : Piece := ⟨r.offt.toNat, r.size.toNat⟩

/-- The round stays inside one page. -/
def Round.InPage (src : Word) (r : Round) : Prop :=
  (src.toNat + r.offt.toNat) % 4096 + r.size.toNat ≤ 4096

/-- The round stayed inside one page and returned what it was asked for. -/
structure Round.Copied (src : Word) (r : Round) : Prop where
  inPage : r.InPage src
  ret_eq : r.ret = r.size.toNat

section Rounds

variable {σ : Type} (round : Word → Word → σ → EStateM.Result Halt σ Nat) (check : σ → Bool)
  (src size : Word)

/-- The loop of `mem_read`, with its rounds. -/
def readRoundsLoop :
    Nat → Word → Word → Int → Int → σ → List Round × EStateM.Result Halt σ Int
  | 0, _, _, _, _, s => ([], .error .diverge s)
  | fuel + 1, at_, sz, count, ret, s =>
    if at_ = size then ([], if check s then .ok ret s else .error .assertion s)
    else
      match round at_ sz s with
      | .error h s => ([], .error h s)
      | .ok r s =>
        if r = 0 then ([⟨at_, sz, 0⟩], .ok count s)
        else
          let next := at_ + sz
          let sz' :=
            if pageAlign (next + src) = pageAlign (size + src) then size - next else PAGE_SZ
          let rest := readRoundsLoop fuel next sz' (count + r) r s
          (⟨at_, sz, r⟩ :: rest.1, rest.2)

/-- `mem_read`, with its rounds. -/
def readRounds (s : σ) : List Round × EStateM.Result Halt σ Int :=
  if size = 0 then ([], .ok 0 s)
  else if PAGE_SZ - pageOfft src < size then
    readRoundsLoop round check src size (size.toNat + 1) 0 (PAGE_SZ - pageOfft src) 0 0 s
  else
    match round 0 size s with
    | .error h s => ([], .error h s)
    | .ok r s => ([⟨0, size, r⟩], .ok (if r = 0 then -1 else r) s)

end Rounds

/-! ## What a run of rounds does -/

section Run

variable {σ : Type} {round : Word → Word → σ → EStateM.Result Halt σ Nat} {check : σ → Bool}
  {src size : Word} {k : Kernel} {m : Space} {P Q : Nat → σ → Prop}

/-- What the loop asks of a round, where `m` is the space before the first of them.  `P i`
holds of the states in which the first `i` bytes have been copied, and `Q i` after the
round that fails there. -/
structure RoundSpec (round : Word → Word → σ → EStateM.Result Halt σ Nat) (k : Kernel)
    (m : Space) (src size : Word) (P Q : Nat → σ → Prop) : Prop where
  copy : ∀ {at_ sz : Word} {s : σ}, Chunk src size at_ sz → P at_.toNat s →
    k.Reads m src at_.toNat →
      ∃ s', round at_ sz s = .ok sz.toNat s' ∧ P (at_.toNat + sz.toNat) s'
  refuse : ∀ {at_ sz : Word} {s : σ}, Chunk src size at_ sz → P at_.toNat s →
    k.Loads m src at_.toNat → ¬ k.Opens src at_.toNat →
      ∃ s', round at_ sz s = .ok 0 s' ∧ Q at_.toNat s'
  fault : ∀ {at_ sz : Word} {s : σ}, Chunk src size at_ sz → P at_.toNat s →
    ¬ k.Loads m src at_.toNat → round at_ sz s = .error .crash s

/-- What a run of rounds from the byte `i` on can be.  `whole` copies the rest of the
range, and returns what its last round did.  `short` stops at the first byte whose page
cannot be protected, and returns `stop` of it.  `fault` dies at the first byte that cannot
be read. -/
inductive Outcome (k : Kernel) (m : Space) (src size : Word) (P Q : Nat → σ → Prop)
    (stop : Nat → Int) (i : Nat) : List Round × EStateM.Result Halt σ Int → Prop
  | whole {rs : List Round} {last : Round} {s : σ} (ends : rs.getLast? = some last)
      (reads : ∀ j, i ≤ j → j < size.toNat → k.Reads m src j)
      (tiles : Tiles i (rs.map Round.piece) size.toNat)
      (copies : ∀ r ∈ rs, r.Copied src) (done : P size.toNat s) :
      Outcome k m src size P Q stop i (rs, .ok last.ret s)
  | short {rs : List Round} {at_ sz : Word} {s : σ}
      (reads : ∀ j, i ≤ j → j < at_.toNat → k.Reads m src j)
      (loads : k.Loads m src at_.toNat) (shut : ¬ k.Opens src at_.toNat)
      (inRange : at_.toNat < size.toNat)
      (tiles : Tiles i (rs.map Round.piece) at_.toNat)
      (copies : ∀ r ∈ rs, r.Copied src) (failed : Q at_.toNat s) :
      Outcome k m src size P Q stop i (rs ++ [⟨at_, sz, 0⟩], .ok (stop at_.toNat) s)
  | fault {rs : List Round} {at_ : Word} {s : σ}
      (reads : ∀ j, i ≤ j → j < at_.toNat → k.Reads m src j)
      (faults : ¬ k.Loads m src at_.toNat) (inRange : at_.toNat < size.toNat)
      (tiles : Tiles i (rs.map Round.piece) at_.toNat)
      (copies : ∀ r ∈ rs, r.Copied src) (done : P at_.toNat s) :
      Outcome k m src size P Q stop i (rs, .error .crash s)

/-- The round that copies a chunk. -/
theorem Chunk.copied {at_ sz : Word} (h : Chunk src size at_ sz) :
    (⟨at_, sz, sz.toNat⟩ : Round).Copied src :=
  ⟨h.inPage, rfl⟩

/-- One more round before a tiling. -/
theorem Chunk.tiles {at_ sz : Word} (h : Chunk src size at_ sz) {rs : List Round} {j : Nat}
    (hrs : Tiles (at_.toNat + sz.toNat) (rs.map Round.piece) j) :
    Tiles at_.toNat ((⟨at_, sz, sz.toNat⟩ :: rs : List Round).map Round.piece) j :=
  Tiles.cons (p := Round.piece ⟨at_, sz, sz.toNat⟩) h.pos hrs

/-- One more round before a run. -/
theorem Outcome.cons {stop : Nat → Int} {at_ sz : Word}
    {out : List Round × EStateM.Result Halt σ Int} (hc : Chunk src size at_ sz)
    (hreads : k.Reads m src at_.toNat)
    (h : Outcome k m src size P Q stop (at_.toNat + sz.toNat) out) :
    Outcome k m src size P Q stop at_.toNat (⟨at_, sz, sz.toNat⟩ :: out.1, out.2) := by
  have hall : ∀ {n : Nat}, (∀ j, at_.toNat + sz.toNat ≤ j → j < n → k.Reads m src j) →
      ∀ j, at_.toNat ≤ j → j < n → k.Reads m src j := by
    intro n hrest j hj hn
    by_cases hlt : j < at_.toNat + sz.toNat
    · exact hc.reads hreads hj hlt
    · exact hrest j (by omega) hn
  cases h with
  | whole ends reads tiles copies done =>
    exact .whole (by rw [List.getLast?_cons, ends, Option.getD_some]) (hall reads)
      (hc.tiles tiles) (List.forall_mem_cons.mpr ⟨hc.copied, copies⟩) done
  | short reads loads shut inRange tiles copies failed =>
    exact .short (hall reads) loads shut inRange (hc.tiles tiles)
      (List.forall_mem_cons.mpr ⟨hc.copied, copies⟩) failed
  | fault reads faults inRange tiles copies done =>
    exact .fault (hall reads) faults inRange (hc.tiles tiles)
      (List.forall_mem_cons.mpr ⟨hc.copied, copies⟩) done

/-- A run of the one round that ends the range. -/
theorem Outcome.last {stop : Nat → Int} {at_ sz : Word} {s : σ} (hc : Chunk src size at_ sz)
    (hend : at_.toNat + sz.toNat = size.toNat) (hreads : k.Reads m src at_.toNat)
    (hs : P size.toNat s) :
    Outcome k m src size P Q stop at_.toNat ([⟨at_, sz, sz.toNat⟩], .ok sz.toNat s) := by
  have htiles : Tiles (at_.toNat + sz.toNat) (([] : List Round).map Round.piece) size.toNat := by
    rw [hend]
    exact Tiles.nil _
  have hall : ∀ j, at_.toNat ≤ j → j < size.toNat → k.Reads m src j :=
    fun j hj hlt => hc.reads hreads hj (by omega)
  exact .whole rfl hall (hc.tiles htiles) (by simpa using hc.copied) hs

/-- A run of one round that fails. -/
theorem Outcome.failed {stop : Nat → Int} {at_ sz : Word} {s : σ} (hc : Chunk src size at_ sz)
    (hload : k.Loads m src at_.toNat) (hshut : ¬ k.Opens src at_.toNat) (hs : Q at_.toNat s) :
    Outcome k m src size P Q stop at_.toNat ([⟨at_, sz, 0⟩], .ok (stop at_.toNat) s) :=
  have htiles : Tiles at_.toNat (([] : List Round).map Round.piece) at_.toNat := Tiles.nil _
  .short (fun j hj hlt => by omega) hload hshut hc.lt htiles (by simp) hs

/-- A run of one round that faults. -/
theorem Outcome.faulted {stop : Nat → Int} {at_ sz : Word} {s : σ} (hc : Chunk src size at_ sz)
    (hfault : ¬ k.Loads m src at_.toNat) (hs : P at_.toNat s) :
    Outcome k m src size P Q stop at_.toNat ([], .error .crash s) :=
  have htiles : Tiles at_.toNat (([] : List Round).map Round.piece) at_.toNat := Tiles.nil _
  .fault (fun j hj hlt => by omega) hfault hc.lt htiles (by simp) hs

theorem readRoundsLoop_outcome (spec : RoundSpec round k m src size P Q)
    (hcheck : ∀ s, P size.toNat s → check s = true) :
    ∀ (fuel : Nat) (at_ sz : Word) (ret : Int) (s : σ),
      size.toNat - at_.toNat < fuel → Chunk src size at_ sz → P at_.toNat s →
      Outcome k m src size P Q (fun i => (i : Int)) at_.toNat
        (readRoundsLoop round check src size fuel at_ sz at_.toNat ret s) := by
  intro fuel
  induction fuel with
  | zero =>
    intro at_ sz ret s hfuel
    omega
  | succ fuel ih =>
    intro at_ sz ret s hfuel hc hs
    have hpos := hc.pos
    have hrange := hc.inRange
    have hnext := hc.next_toNat
    have hne : at_ ≠ size := by
      rintro rfl
      omega
    rw [readRoundsLoop, if_neg hne]
    by_cases hload : k.Loads m src at_.toNat
    · by_cases hopen : k.Opens src at_.toNat
      · obtain ⟨s', hround, hs'⟩ := spec.copy hc hs ⟨hload, hopen⟩
        simp only [hround]
        rw [if_neg (by omega)]
        by_cases hend : at_ + sz = size
        · -- The loop ends at its next test.
          obtain ⟨n, rfl⟩ : ∃ n, fuel = n + 1 := ⟨fuel - 1, by omega⟩
          have hlast : at_.toNat + sz.toNat = size.toNat := by rw [← hnext, hend]
          rw [hlast] at hs'
          rw [readRoundsLoop, if_pos hend, if_pos (hcheck s' hs')]
          exact Outcome.last hc hlast ⟨hload, hopen⟩ hs'
        · rw [← hnext] at hs'
          have hne' : (at_ + sz).toNat ≠ size.toNat := fun h => hend (BitVec.eq_of_toNat_eq h)
          have hchunk : Chunk src size (at_ + sz) _ :=
            Chunk.next (by omega) (by rcases hc.ends with hends | hends <;> omega)
          have hrest := ih _ _ (sz.toNat : Int) s' (by omega) hchunk hs'
          rw [hnext, Nat.cast_add] at hrest
          exact Outcome.cons hc ⟨hload, hopen⟩ hrest
      · obtain ⟨s', hround, hs'⟩ := spec.refuse hc hs hload hopen
        simp only [hround, if_true]
        exact Outcome.failed hc hload hopen hs'
    · rw [spec.fault hc hs hload]
      exact Outcome.faulted hc hload hs

/-- What a call of `mem_read` does.  Where the range fits in its page, the one round that
fails is answered with -1 instead of a count. -/
theorem readRounds_outcome (spec : RoundSpec round k m src size P Q)
    (hcheck : ∀ s, P size.toNat s → check s = true) (hpos : 0 < size.toNat) {s : σ}
    (hs : P 0 s) :
    Outcome k m src size P Q (fun i => if FitsPage src size then -1 else (i : Int)) 0
      (readRounds round check src size s) := by
  have hne : size ≠ 0 := by
    rintro rfl
    simp at hpos
  rw [readRounds, if_neg hne]
  by_cases hfits : FitsPage src size
  · have hc := Chunk.whole hpos hfits
    rw [if_neg hfits]
    by_cases hload : k.Loads m src 0
    · by_cases hopen : k.Opens src 0
      · obtain ⟨s', hround, hs'⟩ := spec.copy hc hs ⟨hload, hopen⟩
        rw [hround]
        simp only [if_neg (Nat.pos_iff_ne_zero.mp hpos)]
        exact Outcome.last hc (by simp) ⟨hload, hopen⟩ (by simpa using hs')
      · obtain ⟨s', hround, hs'⟩ := spec.refuse hc hs hload hopen
        rw [hround]
        simpa [hfits] using Outcome.failed (P := P) hc hload hopen hs'
    · rw [spec.fault hc hs hload]
      exact Outcome.faulted hc hload hs
  · have hlong : PAGE_SZ - pageOfft src < size := not_not.mp hfits
    rw [if_pos hlong]
    simp only [if_neg hfits]
    exact readRoundsLoop_outcome spec hcheck (size.toNat + 1) 0 _ 0 s (by simp)
      (Chunk.first hlong) hs

end Run

/-! ## A buffer apart from the memory -/

/-- `mem_read` into a buffer apart from the memory, with its rounds. -/
def memReadRounds (k : Kernel) (src size : Word) (s : Reading) :
    List Round × EStateM.Result Halt Reading Int :=
  readRounds (roundRead k src) (fun s => copied s.space s.buf src size) src size s

private theorem memReadLoop_eq_rounds (k : Kernel) (src size : Word) :
    ∀ (fuel : Nat) (at_ sz : Word) (count ret : Int) (s : Reading),
      memReadLoop k src size fuel at_ sz count ret s =
        (readRoundsLoop (roundRead k src) (fun s => copied s.space s.buf src size) src size
          fuel at_ sz count ret s).2 := by
  intro fuel
  induction fuel with
  | zero =>
    intro at_ sz count ret s
    rfl
  | succ fuel ih =>
    intro at_ sz count ret s
    rw [memReadLoop, readRoundsLoop]
    split
    · rfl
    · cases roundRead k src at_ sz s with
      | error h s' => rfl
      | ok r s' =>
        simp only
        split
        · rfl
        · exact ih ..

/-- `memReadRounds` is `memRead` with the list of the rounds. -/
theorem memRead_eq_rounds (k : Kernel) (src size : Word) (s : Reading) :
    memRead k src size s = (memReadRounds k src size s).2 := by
  rw [memRead, memReadRounds, readRounds]
  split
  · rfl
  · split
    · exact memReadLoop_eq_rounds ..
    · cases roundRead k src 0 size s <;> rfl

section Buffer

variable {k : Kernel} {src size : Word} {s : Reading}

/-- With the answers of the stubs, a round copies and then sets the protection. -/
theorem roundRead_of_opens {at_ sz : Word} (hc : Chunk src size at_ sz)
    (hload : k.Loads s.space src at_.toNat) (hopen : k.Opens src at_.toNat) :
    roundRead k src at_ sz s =
      .ok sz.toNat ⟨fill s.buf at_.toNat sz.toNat (window s.space.byte src),
        s.space.allow (pageAlign (src + at_))⟩ := by
  rw [Kernel.Opens, BitVec.ofNat_toNat, BitVec.setWidth_eq] at hopen
  simp [roundRead, getProt, hc.canLoad_iff.mpr hload, hopen, Space.allow]

/-- A round that fails has copied its chunk all the same. -/
theorem roundRead_of_shut {at_ sz : Word} (hc : Chunk src size at_ sz)
    (hload : k.Loads s.space src at_.toNat) (hshut : ¬ k.Opens src at_.toNat) :
    roundRead k src at_ sz s =
      .ok 0 ⟨fill s.buf at_.toNat sz.toNat (window s.space.byte src), s.space⟩ := by
  rw [Kernel.Opens, BitVec.ofNat_toNat, BitVec.setWidth_eq] at hshut
  simp [roundRead, getProt, hc.canLoad_iff.mpr hload, Kernel.mprotectPage, hshut]

/-- The `memmove` of a round runs before any `mprotect`, so it faults where the page cannot
be read. -/
theorem roundRead_of_faults {at_ sz : Word} (hc : Chunk src size at_ sz)
    (hfault : ¬ k.Loads s.space src at_.toNat) : roundRead k src at_ sz s = .error .crash s := by
  have hcan : k.canLoad s.space (src + at_) sz.toNat = false := by
    rw [← Bool.not_eq_true, hc.canLoad_iff]
    exact hfault
  simp [roundRead, getProt, hcan]

variable (k src) in
/-- Whatever a round does, it opens a page or none. -/
theorem roundRead_opened (offt sz : Word) (s : Reading) :
    s.space.Opened (final (roundRead k src offt sz s)).space := by
  have hallow : s.space.Opened (s.space.allow (pageAlign (src + offt))) := by
    intro page
    by_cases hself : page = pageAlign (src + offt)
    · subst hself
      exact Or.inr (Function.update_self ..)
    · exact Or.inl (Function.update_of_ne hself ..)
  simp only [roundRead, isMapped_eq_true, Bool.not_true, Bool.false_eq_true, if_false, getProt,
    if_true, Kernel.mprotectPage]
  cases k.canLoad s.space (src + offt) sz.toNat with
  | false => exact .refl _
  | true =>
    cases k.mprotect (pageAlign (src + offt)) with
    | false => exact .refl _
    | true => exact hallow

variable (src) in
/-- The state after the first `i` bytes have been copied: the buffer is filled, the bytes of
the memory are as before, and the pages are open. -/
def Reading.done (s : Reading) (i : Nat) : Reading :=
  ⟨fill s.buf 0 i (window s.space.byte src), ⟨s.space.byte, allowProt s.space.prot src i⟩⟩

@[simp] theorem Reading.done_zero (s : Reading) : s.done src 0 = s := by
  simp [Reading.done]

@[simp] theorem Reading.done_byte (s : Reading) (i : Nat) :
    (s.done src i).space.byte = s.space.byte := rfl

theorem Reading.done_buf (s : Reading) {i j : Nat} (h : j < i) :
    (s.done src i).buf j = window s.space.byte src j :=
  fill_of_lt h

theorem Reading.copied_done (s : Reading) (size : Word) :
    copied (s.done src size.toNat).space (s.done src size.toNat).buf src size = true :=
  copied_of_forall fun _ hi => s.done_buf hi

variable (src size) in
/-- The states after a round that has failed at the byte `i`.  It has copied its chunk all the
same, up to the end of the range or of the page. -/
structure Reading.Refused (s : Reading) (i : Nat) (s' : Reading) : Prop where
  space : s'.space = (s.done src i).space
  copied : ∃ n, i < n ∧ (n = size.toNat ∨ (src.toNat + n) % 4096 = 0) ∧
    ∀ j, j < n → s'.buf j = window s.space.byte src j

/-- The rounds fill the buffer, leave the bytes of the memory alone, and set the protection
of the pages they get to. -/
theorem memReadRounds_spec (s : Reading) :
    RoundSpec (roundRead k src) k s.space src size
      (fun i s' => s' = s.done src i ∧ ∀ j, j < i → k.Loads s.space src j)
      (s.Refused src size) where
  copy := by
    rintro at_ sz _ hc ⟨rfl, hpast⟩ ⟨hload, hopen⟩
    refine ⟨_, roundRead_of_opens hc ((loads_allowProt_iff hpast).mpr hload) hopen, ?_,
      fun j hj => ?_⟩
    · have hself : src + at_ = src + BitVec.ofNat 64 at_.toNat := by simp
      have hupdate := update_allowProt s.space.prot src (Nat.lt_add_of_pos_right hc.pos)
        fun j hj hlt => hc.page_eq hj hlt
      rw [Reading.done, Reading.done, Space.allow, hself, hupdate, fill_append]
    · by_cases hlt : j < at_.toNat
      · exact hpast j hlt
      · exact (hc.loads_iff (by omega) hj).mpr hload
  refuse := by
    rintro at_ sz _ hc ⟨rfl, hpast⟩ hload hshut
    refine ⟨_, roundRead_of_shut hc ((loads_allowProt_iff hpast).mpr hload) hshut, rfl,
      at_.toNat + sz.toNat, Nat.lt_add_of_pos_right hc.pos, ?_, fun j hj => ?_⟩
    · rw [← Nat.add_assoc]
      exact hc.ends
    · show fill (fill s.buf 0 at_.toNat _) at_.toNat sz.toNat _ j = _
      rw [Reading.done, fill_append]
      exact fill_of_lt hj
  fault := by
    rintro at_ sz _ hc ⟨rfl, hpast⟩ hfault
    exact roundRead_of_faults hc fun h => hfault ((loads_allowProt_iff hpast).mp h)

end Buffer

/-! ## What a call does -/

section Call

variable {k : Kernel} {src size : Word} (s : Reading)

variable (k) in
theorem memReadRounds_outcome (hpos : 0 < size.toNat) :
    Outcome k s.space src size
      (fun i s' => s' = s.done src i ∧ ∀ j, j < i → k.Loads s.space src j)
      (s.Refused src size) (fun i => if FitsPage src size then -1 else (i : Int)) 0
      (memReadRounds k src size s) := by
  apply readRounds_outcome (memReadRounds_spec s) _ hpos
    ⟨s.done_zero.symm, fun j hj => absurd hj (Nat.not_lt_zero j)⟩
  rintro _ ⟨rfl, -⟩
  exact s.copied_done size

/-- `mem_read` fills the buffer with the bytes of the range and returns a positive count,
when every page of the range can be read and protected. -/
theorem memRead_spec (hpos : 0 < size.toNat)
    (hok : ∀ i, i < size.toNat → k.Reads s.space src i) :
    ∃ r : Int, 0 < r ∧ r ≤ size.toNat ∧ memRead k src size s = .ok r (s.done src size.toNat) := by
  have hout : Outcome k s.space src size _ _ _ _ (memReadRounds k src size s) :=
    memReadRounds_outcome k s hpos
  rw [memRead_eq_rounds]
  generalize memReadRounds k src size s = out at hout
  cases hout with
  | @whole rs last s' ends reads tiles copies done =>
    have hmem := List.mem_of_getLast? ends
    obtain ⟨-, hlen, hend⟩ := tiles.bounds (List.mem_map_of_mem hmem)
    have hret := (copies last hmem).ret_eq
    simp only [Round.piece] at hlen hend
    refine ⟨last.ret, by omega, by omega, ?_⟩
    rw [done.1]
  | short reads loads shut inRange tiles copies failed =>
    exact absurd (hok _ inRange).2 shut
  | fault reads faults inRange tiles copies done =>
    exact absurd (hok _ inRange).1 faults

variable (k src size) in
/-- `mem_read` returns or faults.  It changes no byte of the memory, and opens some pages of
it. -/
theorem memRead_total :
    (∃ (r : Int) (s' : Reading), memRead k src size s = .ok r s' ∧
      s'.space.byte = s.space.byte ∧ s.space.Opened s'.space) ∨
    ∃ (s' : Reading) (i : Nat), memRead k src size s = .error .crash s' ∧
      i < size.toNat ∧ ¬ k.Loads s.space src i := by
  by_cases hzero : size = 0
  · exact Or.inl ⟨0, s, if_pos hzero, rfl, .refl _⟩
  have hpos := BitVec.toNat_pos_of_ne_zero hzero
  have hout : Outcome k s.space src size _ _ _ _ (memReadRounds k src size s) :=
    memReadRounds_outcome k s hpos
  rw [memRead_eq_rounds]
  generalize memReadRounds k src size s = out at hout
  cases hout with
  | @whole rs last s' ends reads tiles copies done =>
    exact Or.inl ⟨last.ret, s', rfl, by rw [done.1]; rfl, by
      rw [done.1]
      exact opened_allowProt _ _ _ _⟩
  | @short rs at_ sz s' reads loads shut inRange tiles copies failed =>
    exact Or.inl ⟨_, s', rfl, by rw [failed.space]; rfl, by
      rw [failed.space]
      exact opened_allowProt _ _ _ _⟩
  | @fault rs at_ s' reads faults inRange tiles copies done =>
    exact Or.inr ⟨s', at_.toNat, rfl, inRange, faults⟩

variable (k) in
/-- A range of at most a page of bytes is read or faults, when its first page can be protected.
The chunk of the other page has been copied also where that one cannot be protected. -/
theorem memRead_of_opens (hpos : 0 < size.toNat) (hsize : size.toNat ≤ 4096)
    (hopen : k.Opens src 0) :
    ∃ s' : Reading, s'.space.byte = s.space.byte ∧ s.space.Opened s'.space ∧
      (memRead k src size s = .error .crash s' ∨
        ∃ r : Int, r ≠ -1 ∧ memRead k src size s = .ok r s' ∧
          ∀ j, j < size.toNat → s'.buf j = window s.space.byte src j) := by
  have hopened : ∀ i, s.space.Opened (s.done src i).space := fun i =>
    opened_allowProt s.space src i s.space.byte
  have hout : Outcome k s.space src size _ _ _ _ (memReadRounds k src size s) :=
    memReadRounds_outcome k s hpos
  rw [memRead_eq_rounds]
  generalize memReadRounds k src size s = out at hout
  cases hout with
  | @whole rs last s' ends reads tiles copies done =>
    obtain ⟨rfl, -⟩ := done
    exact ⟨_, s.done_byte _, hopened _, Or.inr ⟨_, by omega, rfl, fun j hj => s.done_buf hj⟩⟩
  | @fault rs at_ s' reads faults inRange tiles copies done =>
    obtain ⟨rfl, -⟩ := done
    exact ⟨_, s.done_byte _, hopened _, Or.inl rfl⟩
  | @short rs at_ sz s' reads loads shut inRange tiles copies failed =>
    have hsrc := src.isLt
    -- The byte that is not reached is the first one of its page, and not of the range.
    have hfirst : at_.toNat ≠ 0 := fun h => shut (h ▸ hopen)
    have hpage : (src.toNat + at_.toNat) % 4096 = 0 := by
      by_contra hmid
      have hprev := (reads (at_.toNat - 1) (Nat.zero_le _) (by omega)).2
      have hsame := pageAlign_add_of_lt src (i := at_.toNat - 1) (j := at_.toNat) (by omega)
        (by omega) (by omega)
      rw [Kernel.Opens, ← hsame] at hprev
      exact shut hprev
    have hlong : ¬ FitsPage src size := by
      rw [fitsPage_iff]
      omega
    obtain ⟨n, hlt, hend, hbuf⟩ := failed.copied
    refine ⟨s', ?_, ?_, Or.inr ⟨_, ?_, rfl, fun j hj => hbuf j (by omega)⟩⟩
    · rw [failed.space]
      rfl
    · rw [failed.space]
      exact hopened _
    · rw [if_neg hlong]
      omega

end Call

/-! ## What is reported -/

/-- The number of bytes that the rounds returned. -/
def delivered (rs : List Round) : Nat := (rs.map Round.ret).sum

theorem delivered_of_tiles {src : Word} {rs : List Round} {i j : Nat}
    (htiles : Tiles i (rs.map Round.piece) j) (hcopied : ∀ r ∈ rs, r.Copied src) :
    i + delivered rs = j := by
  have hret : rs.map Round.ret = (rs.map Round.piece).map Piece.len := by
    rw [List.map_map]
    exact List.map_congr_left fun r hr => (hcopied r hr).ret_eq
  rw [delivered, hret, htiles.add_sum]

/-- The rounds that returned something. -/
def successful (rs : List Round) : List Round := rs.filter fun r => r.ret ≠ 0

theorem successful_of_tiles {src : Word} {rs : List Round} {i j : Nat}
    (htiles : Tiles i (rs.map Round.piece) j) (hcopied : ∀ r ∈ rs, r.Copied src) :
    successful rs = rs := by
  rw [successful, List.filter_eq_self]
  intro r hr
  have hpos := (htiles.bounds (List.mem_map_of_mem hr)).2.1
  rw [(hcopied r hr).ret_eq]
  simpa [Round.piece] using Nat.pos_iff_ne_zero.mp hpos

/-- A call returns unless some byte of the range cannot be read, and a result that is no
error is the number of bytes that the successful rounds delivered.  These are the first
bytes of the range, and all of it when every page of it can be read and protected. -/
structure Reports (k : Kernel) (m : Space) (src size : Word)
    (out : List Round × EStateM.Result Halt Reading Int) : Prop where
  ends : (∃ ret s, out.2 = .ok ret s) ∨
    (∃ s, out.2 = .error .crash s) ∧ ∃ i, i < size.toNat ∧ ¬ k.Loads m src i
  counts : ∀ (ret : Int) (s : Reading), out.2 = .ok ret s → 0 ≤ ret →
    ret = delivered out.1 ∧ delivered out.1 ≤ size.toNat ∧
      Tiles 0 ((successful out.1).map Round.piece) (delivered out.1) ∧
      ∀ i, i < delivered out.1 → s.buf i = window m.byte src i
  whole : (∀ i, i < size.toNat → k.Reads m src i) → ∃ s, out.2 = .ok size.toNat s

section Reported

variable (k : Kernel) {src size : Word} (s : Reading)

/-- A range that fits in its page is read in one round. -/
theorem memReadRounds_of_fits (hpos : 0 < size.toNat) (hfits : FitsPage src size) :
    (memReadRounds k src size s).1 = [] ∨
      ∃ n, (memReadRounds k src size s).1 = [⟨0, size, n⟩] := by
  have hne : size ≠ 0 := by
    rintro rfl
    simp at hpos
  rw [memReadRounds, readRounds, if_neg hne, if_neg hfits]
  cases roundRead k src 0 size s with
  | error h s' => exact Or.inl rfl
  | ok r s' => exact Or.inr ⟨r, rfl⟩

/-- `mem_read` reports what it read for a range inside one page, and for a range of which
some page cannot be read or protected.  It fails for every range over several pages that it
reads to the end: it returns the size of the last chunk. -/
theorem memRead_reports_iff (hpos : 0 < size.toNat) :
    Reports k s.space src size (memReadRounds k src size s) ↔
      FitsPage src size ∨ ∃ i, i < size.toNat ∧ ¬ k.Reads s.space src i := by
  have hone : FitsPage src size → _ := memReadRounds_of_fits k s hpos
  have hout : Outcome k s.space src size _ _ _ _ (memReadRounds k src size s) :=
    memReadRounds_outcome k s hpos
  generalize memReadRounds k src size s = out at hone hout
  cases hout with
  | @whole rs last s' ends reads tiles copies done =>
    have hsum := delivered_of_tiles tiles copies
    have hself := successful_of_tiles tiles copies
    have hlast := copies last (List.mem_of_getLast? ends)
    constructor
    · intro hreports
      obtain ⟨s'', hret⟩ := hreports.whole fun i hi => reads i (Nat.zero_le i) hi
      -- A last chunk of the size of the range is the whole range, in one page.
      have hsize : (last.ret : Int) = size.toNat := (EStateM.Result.ok.inj hret).1
      have hbound := (tiles.bounds (List.mem_map_of_mem (List.mem_of_getLast? ends))).2.2
      have hpage := hlast.inPage
      have heq := hlast.ret_eq
      simp only [Round.piece, Round.InPage] at hbound hpage
      left
      rw [fitsPage_iff]
      omega
    · rintro (hfits | ⟨i, hi, hbad⟩)
      · obtain hnone | ⟨n, hrs⟩ := hone hfits
        · simp only at hnone
          rw [hnone] at ends
          simp at ends
        simp only at hrs
        subst hrs
        have hret : last.ret = size.toNat := by
          rw [hlast.ret_eq, ← show (⟨0, size, n⟩ : Round) = last by simpa using ends]
        have hdel : delivered [(⟨0, size, n⟩ : Round)] = size.toNat := by omega
        refine ⟨Or.inl ⟨_, _, rfl⟩, ?_, fun _ => ⟨s', by rw [hret]⟩⟩
        rintro ret s'' heq -
        obtain ⟨rfl, rfl⟩ := EStateM.Result.ok.inj heq
        rw [hself, hdel, hret]
        refine ⟨rfl, le_refl _, tiles, fun i hi => ?_⟩
        rw [done.1]
        exact s.done_buf hi
      · exact absurd (reads i (Nat.zero_le i) hi) hbad
  | @short rs at_ sz s' reads loads shut inRange tiles copies failed =>
    have hsum := delivered_of_tiles tiles copies
    have hself := successful_of_tiles tiles copies
    have hdel : delivered (rs ++ [⟨at_, sz, 0⟩]) = at_.toNat := by
      rw [← hsum]
      simp [delivered]
    have hsucc : successful (rs ++ [⟨at_, sz, 0⟩]) = rs := by
      rw [← hself]
      simp [successful]
    have hbad : ¬ k.Reads s.space src at_.toNat := fun h => shut h.2
    refine ⟨fun _ => Or.inr ⟨at_.toNat, inRange, hbad⟩, fun _ => ⟨Or.inl ⟨_, _, rfl⟩, ?_, ?_⟩⟩
    · intro ret s'' heq hret
      obtain ⟨rfl, rfl⟩ := EStateM.Result.ok.inj heq
      rw [hdel, hsucc]
      obtain ⟨n, hlt, -, hbuf⟩ := failed.copied
      refine ⟨?_, by omega, tiles, fun i hi => hbuf i (Nat.lt_trans hi hlt)⟩
      split at hret
      · omega
      · rename_i hlong
        rw [if_neg hlong]
    · intro hall
      exact absurd (hall _ inRange) hbad
  | @fault rs at_ s' reads faults inRange tiles copies done =>
    have hbad : ¬ k.Reads s.space src at_.toNat := fun h => faults h.1
    refine ⟨fun _ => Or.inr ⟨at_.toNat, inRange, hbad⟩,
      fun _ => ⟨Or.inr ⟨⟨_, rfl⟩, at_.toNat, inRange, faults⟩, ?_, ?_⟩⟩
    · intro ret s'' heq
      cases heq
    · intro hall
      exact absurd (hall _ inRange) hbad

end Reported

/-- Code at `0x400000`, with a buffer to read into at `0x600000`. -/
def copySpace (code : Prot) : Space where
  byte _ := 7
  prot page :=
    if page = 0x600000 then some ⟨true, true, false⟩ else mappedBetween 0x400000 0x402000 code page

theorem memRead_reports_iff_next_page :
    let k := Kernel.between 0x400000 0x402000
    let s : Reading := ⟨fun _ => 0, copySpace ⟨true, false, true⟩⟩
    0 < (2 : Word).toNat ∧
      (Reports k s.space 0x400fff 2 (memReadRounds k 0x400fff 2 s) ↔
        FitsPage 0x400fff 2 ∨ ∃ i, i < (2 : Word).toNat ∧ ¬ k.Reads s.space 0x400fff i) :=
  ⟨by decide, memRead_reports_iff _ _ (by decide)⟩

/-- Two bytes on either side of a page boundary are both read, and the result is one. -/
theorem memRead_reports_last_chunk :
    let k := Kernel.between 0x400000 0x402000
    let s : Reading := ⟨fun _ => 0, copySpace ⟨true, false, true⟩⟩
    ¬ Reports k s.space 0x400fff 2 (memReadRounds k 0x400fff 2 s) := by
  intro k s hreports
  have hpages : ∀ i, i < (2 : Word).toNat → k.Reads s.space 0x400fff i := by decide
  obtain ⟨s', hret⟩ := hreports.whole hpages
  have hone : ∃ s', (memReadRounds k 0x400fff 2 s).2 = .ok 1 s' := ⟨_, rfl⟩
  obtain ⟨s'', hone⟩ := hone
  rw [hone] at hret
  have hsize := (EStateM.Result.ok.inj hret).1
  simp at hsize

/-! ## A buffer in the memory -/

/-- `round_read` into a buffer at `dst`. -/
def roundReadAt (k : Kernel) (src dst offt size : Word) (m : Space) :
    EStateM.Result Halt Space Nat :=
  let page := pageAlign (src + offt)
  if !isMapped (src + offt) then .ok 0 m
  else
    match getProt (src + offt) with
    | none => .ok 0 m
    | some prot =>
      match (if prot.read then some m else k.mprotectPage m page { prot with read := true }) with
      | none => .ok 0 m
      | some m =>
        -- The `memmove`.
        if !(k.canLoad m (src + offt) size.toNat && m.canStore (dst + offt) size.toNat) then
          .error .crash m
        else
          let m := { m with byte := patch m.byte dst offt.toNat size.toNat (window m.byte src) }
          match k.mprotectPage m page prot with
          | none => .ok 0 m
          | some m => .ok size.toNat m

/-- `mem_read` into a buffer at `dst`, with its rounds. -/
def memReadAt (k : Kernel) (dst src size : Word) (m : Space) :
    List Round × EStateM.Result Halt Space Int :=
  readRounds (roundReadAt k src dst) (fun m => copied m (window m.byte dst) src size) src size m

section InMemory

/-- Rounds that do the same on two kinds of states make the same calls of `mem_read`. -/
theorem readRounds_viewed {σ τ : Type} {round : Word → Word → σ → EStateM.Result Halt σ Nat}
    {round' : Word → Word → τ → EStateM.Result Halt τ Nat} {check : σ → Bool} {check' : τ → Bool}
    {src size : Word} {I : σ → Prop} (f : σ → τ)
    (hround : ∀ {at_ sz : Word} {s : σ}, Chunk src size at_ sz → I s →
      round' at_ sz (f s) = viewed f (round at_ sz s) ∧ I (final (round at_ sz s)))
    (hcheck : ∀ {s : σ}, I s → check' (f s) = check s) {s : σ} (hs : I s) :
    readRounds round' check' src size (f s) =
      ((readRounds round check src size s).1, viewed f (readRounds round check src size s).2) := by
  have hloop : ∀ (fuel : Nat) (at_ sz : Word) (count ret : Int) (s : σ),
      (at_ ≠ size → Chunk src size at_ sz) → I s →
      readRoundsLoop round' check' src size fuel at_ sz count ret (f s) =
        ((readRoundsLoop round check src size fuel at_ sz count ret s).1,
          viewed f (readRoundsLoop round check src size fuel at_ sz count ret s).2) := by
    intro fuel
    induction fuel with
    | zero =>
      intro at_ sz count ret s hc hs
      rfl
    | succ fuel ih =>
      intro at_ sz count ret s hc hs
      rw [readRoundsLoop, readRoundsLoop]
      split
      · rw [hcheck hs]
        split <;> rfl
      · rename_i hne
        have hchunk := hc hne
        obtain ⟨hsame, hs'⟩ := hround hchunk hs
        rw [hsame]
        cases hrun : round at_ sz s with
        | error h s' => rfl
        | ok r s' =>
          rw [hrun] at hs'
          simp only [viewed_ok]
          split
          · rfl
          · rw [ih]
            · intro hne'
              have hnext := hchunk.next_toNat
              have hlt : (at_ + sz).toNat ≠ size.toNat := fun h => hne' (BitVec.eq_of_toNat_eq h)
              have hrange := hchunk.inRange
              exact Chunk.next (by omega) (by rcases hchunk.ends with hends | hends <;> omega)
            · exact hs'
  rw [readRounds, readRounds]
  split
  · rfl
  · rename_i hne
    have hpos := BitVec.toNat_pos_of_ne_zero hne
    split
    · rename_i hlong
      exact hloop _ _ _ _ _ s (fun _ => Chunk.first hlong) hs
    · rename_i hfits
      obtain ⟨hsame, -⟩ := hround (Chunk.whole hpos hfits) hs
      rw [hsame]
      cases round 0 size s <;> rfl

variable {k : Kernel} {m : Space} {dst src size : Word}

/-- The memory in which the buffer is at `dst`. -/
def Reading.at (s : Reading) (dst size : Word) : Space :=
  ⟨patch s.space.byte dst 0 size.toNat s.buf, s.space.prot⟩

/-- The bytes at the source, when the buffer is apart from it. -/
theorem window_at (hapart : ByteMem.Disjoint dst size.toNat src size.toNat) (s : Reading) {i : Nat}
    (hi : i < size.toNat) : window (s.at dst size).byte src i = window s.space.byte src i :=
  window_patch_of_disjoint hapart hi (Nat.le_of_lt size.isLt)

/-- A round that fills the buffer in the memory. -/
theorem roundReadAt_eq (hapart : ByteMem.Disjoint dst size.toNat src size.toNat) {at_ sz : Word}
    (hc : Chunk src size at_ sz) {s : Reading}
    (hdst : ∀ i, i < size.toNat → s.space.Stores dst i) :
    roundReadAt k src dst at_ sz (s.at dst size) =
      viewed (fun s => s.at dst size) (roundRead k src at_ sz s) := by
  have hrange := hc.inRange
  have hsize := size.isLt
  have hstore : (s.at dst size).canStore (dst + at_) sz.toNat = true := by
    rw [Space.canStore_iff]
    intro i hi
    rw [add_ofNat_add]
    exact hdst _ (by omega)
  have hbytes : patch (s.at dst size).byte dst at_.toNat sz.toNat
        (window (s.at dst size).byte src) =
      patch s.space.byte dst 0 size.toNat
        (fill s.buf at_.toNat sz.toNat (window s.space.byte src)) := by
    have hsource : patch (s.at dst size).byte dst at_.toNat sz.toNat
          (window (s.at dst size).byte src) =
        patch (s.at dst size).byte dst at_.toNat sz.toNat (window s.space.byte src) :=
      patch_congr_from fun i hi hlt => window_at hapart s (by omega)
    rw [hsource]
    exact patch_fill _ _ hrange _ _
  have hload : k.canLoad (s.at dst size) (src + at_) sz.toNat =
      k.canLoad s.space (src + at_) sz.toNat := rfl
  simp only [roundReadAt, roundRead, isMapped_eq_true, Bool.not_true, Bool.false_eq_true,
    if_false, getProt, if_true, hload, hstore, Bool.and_true, hbytes]
  cases k.canLoad s.space (src + at_) sz.toNat with
  | false => rfl
  | true =>
    simp only [Bool.not_true, Bool.false_eq_true, if_false, Kernel.mprotectPage]
    cases k.mprotect (pageAlign (src + at_)) <;> rfl

/-- With the buffer apart from the range and writable, `mem_read` into the memory is `mem_read`
into a buffer, with the buffer written to the memory. -/
theorem memReadAt_eq_rounds (hapart : ByteMem.Disjoint dst size.toNat src size.toNat)
    (hdst : ∀ i, i < size.toNat → m.Stores dst i) :
    memReadAt k dst src size m =
      ((memReadRounds k src size ⟨window m.byte dst, m⟩).1,
        viewed (fun s => s.at dst size) (memReadRounds k src size ⟨window m.byte dst, m⟩).2) := by
  have hview : m = (Reading.mk (window m.byte dst) m).at dst size := by
    rw [Reading.at, patch_eq_self fun _ _ => rfl]
  have hround : ∀ {at_ sz : Word} {s : Reading}, Chunk src size at_ sz → m.Opened s.space →
      roundReadAt k src dst at_ sz (s.at dst size) =
          viewed (fun s => s.at dst size) (roundRead k src at_ sz s) ∧
        m.Opened (final (roundRead k src at_ sz s)).space := by
    intro at_ sz s hc hs
    refine ⟨roundReadAt_eq hapart hc fun i hi => hs.stores (hdst i hi), hs.trans ?_⟩
    exact roundRead_opened k src at_ sz s
  have hcheck : ∀ {s : Reading}, m.Opened s.space →
      copied (s.at dst size) (window (s.at dst size).byte dst) src size =
        copied s.space s.buf src size := by
    intro s _
    apply copied_congr
    intro i hi
    have hbuf : window (s.at dst size).byte dst i = s.buf i :=
      window_patch hi (Nat.le_of_lt size.isLt)
    rw [hbuf, window_at hapart s hi]
    exact ⟨rfl, rfl⟩
  have hsim := @readRounds_viewed Reading Space (roundRead k src) (roundReadAt k src dst)
    (fun s => copied s.space s.buf src size) (fun m => copied m (window m.byte dst) src size)
    src size (fun s => m.Opened s.space) (fun s => s.at dst size) hround hcheck
    ⟨window m.byte dst, m⟩ (.refl m)
  rw [← hview] at hsim
  exact hsim

/-- What `mem_read` of a range into a buffer owes: the call ends, no round leaves its page or
the range, every byte is copied in one round, and the buffer and nothing else has changed,
to what was at the source. -/
def CopiesRange (m : Space) (dst src size : Word)
    (out : List Round × EStateM.Result Halt Space Int) : Prop :=
  ∃ (ret : Int) (m' : Space), out.2 = .ok ret m' ∧
    (∀ r ∈ out.1, r.InPage src ∧ r.offt.toNat + r.size.toNat ≤ size.toNat) ∧
    (∀ i, i < size.toNat → out.1.countP (fun r => r.piece.covers i) = 1) ∧
    (∀ i, i < size.toNat →
      m'.byte (dst + BitVec.ofNat 64 i) = m.byte (src + BitVec.ofNat 64 i)) ∧
    ∀ x, ¬ InRange dst size.toNat x → m'.byte x = m.byte x

/-- When every page of the range can be protected, `mem_read` copies it exactly when every page
of it can be read too.  A round copies before its first `mprotect`, so it dies on a page
that cannot. -/
theorem memReadAt_copies_iff (hpos : 0 < size.toNat)
    (hapart : ByteMem.Disjoint dst size.toNat src size.toNat)
    (hdst : ∀ i, i < size.toNat → m.Stores dst i)
    (hok : ∀ i, i < size.toNat → k.Opens src i) :
    CopiesRange m dst src size (memReadAt k dst src size m) ↔
      ∀ i, i < size.toNat → k.Loads m src i := by
  have hsize := size.isLt
  have hout : Outcome k m src size _ _ _ _ (memReadRounds k src size ⟨window m.byte dst, m⟩) :=
    memReadRounds_outcome k ⟨window m.byte dst, m⟩ hpos
  rw [memReadAt_eq_rounds hapart hdst]
  generalize memReadRounds k src size ⟨window m.byte dst, m⟩ = out at hout
  cases hout with
  | @whole rs last s' ends reads tiles copies done =>
    refine ⟨fun _ i hi => (reads i (Nat.zero_le i) hi).1, fun _ => ?_⟩
    obtain ⟨rfl, -⟩ := done
    refine ⟨_, _, rfl, fun r hr => ?_, fun i hi => ?_, fun i hi => ?_, fun x hx => ?_⟩
    · exact ⟨(copies r hr).inPage, (tiles.bounds (List.mem_map_of_mem hr)).2.2⟩
    · rw [← tiles.countP_covers (Nat.zero_le i) hi, List.countP_map]
      rfl
    · exact (window_patch hi (Nat.le_of_lt hsize)).trans (fill_of_lt hi)
    · exact patch_of_not_inRange hx
  | short reads loads shut inRange tiles copies failed => exact absurd (hok _ inRange) shut
  | fault reads faults inRange tiles copies done =>
    refine ⟨?_, fun hall => absurd (hall _ inRange) faults⟩
    rintro ⟨ret, m', hret, -⟩
    cases hret

end InMemory

theorem memReadAt_copies_iff_next_page :
    let k := Kernel.between 0x400000 0x402000
    let m := copySpace ⟨true, false, true⟩
    CopiesRange m 0x600000 0x400fff 2 (memReadAt k 0x600000 0x400fff 2 m) ↔
      ∀ i, i < (2 : Word).toNat → k.Loads m 0x400fff i :=
  memReadAt_copies_iff (by decide) (disjoint_of_le (b := 0x600000) (by decide) (by decide)).symm
    (by decide) (by decide)

/-- A page that may be protected but not read: the copy comes first. -/
theorem memReadAt_dies_before_mprotect :
    let k := Kernel.between 0x400000 0x402000
    let m := copySpace ⟨false, false, false⟩
    (∀ i, i < (1 : Word).toNat → k.Opens 0x401000 i) ∧
      ByteMem.Disjoint (0x600000 : Word) (1 : Word).toNat 0x401000 (1 : Word).toNat ∧
      (∀ i, i < (1 : Word).toNat → m.Stores 0x600000 i) ∧
      ¬ CopiesRange m 0x600000 0x401000 1 (memReadAt k 0x600000 0x401000 1 m) := by
  refine ⟨by decide, (disjoint_of_le (b := 0x600000) (by decide) (by decide)).symm, by decide, ?_⟩
  rintro ⟨ret, m', hret, -⟩
  cases hret

end Dryadalis
