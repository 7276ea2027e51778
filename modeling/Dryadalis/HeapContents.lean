import Dryadalis.Heap

/-!
# The answers of `hook_brk`, and the bytes below the break

`Heap` follows the pages that a run of requests maps.  This file follows the rest of
what a request does: which answer the guest gets, and what happens to the bytes it
already has on the heap.

The outcomes of the hook are a case each: the query, a request that the assertion
stops, a request that needs no page in the hook's eyes, and one that maps.  The last
two are told apart by `grows`, and a mapping that the kernel refuses ends the run.

A mapping starts at the page of the old break and zeroes what it covers.  So it takes
with it the bytes between the start of that page and the break, unless they are zero
already (`Harmless`).  `brkRequest_heapKept_iff` is the step and `hookBrk_heap_kept`
the run, where the guest writes as it likes between the requests.
-/

namespace Dryadalis

open ByteMem Exec

/-! ## The outcomes -/

/-- The length of the mapping that `hook_brk` asks for. -/
def brkMapLength (v r : Word) : Word := (brkLength ((r - v).setWidth 32)).setWidth 64

section Outcomes

variable {k : Kernel} {e : Engine} {r : Word}

/-- A hook is a request for what the guest has in `rdi`. -/
theorem hookBrk_eq_brkRequest (k : Kernel) (e : Engine) :
    hookBrk k e = brkRequest k e.state.rdi e := rfl

/-- The guest asks for the break. -/
theorem brkRequest_zero (k : Kernel) (e : Engine) :
    brkRequest k 0 e = .ok 0 (brkDone e 0 e.vbrk e.space) := by
  rw [brkRequest, bind_of_ok (modify_apply _ e), hookBrk, bind_apply, brkMove,
    bind_of_ok (get_apply _)]
  rfl

/-- A request that is not above the break fails the assertion. -/
theorem brkRequest_of_le (hne : r ≠ 0) (hle : r ≤ e.vbrk) :
    brkRequest k r e =
      .error .assertion { e with state := { e.state with rdi := r } } := by
  rw [brkRequest, bind_of_ok (modify_apply _ e), hookBrk, bind_apply, brkMove,
    bind_of_ok (get_apply _)]
  simp only [if_neg hne, if_pos hle]
  rfl

/-- A mapping that the kernel refuses ends the run, with nothing mapped. -/
theorem brkRequest_of_not_grants (hlt : e.vbrk < r) (hgrows : grows e.vbrk r = true)
    (hrefused : ¬ k.Grants (pageAlign e.vbrk) (brkMapLength e.vbrk r)) :
    ∃ e', brkRequest k r e = .error .fatal e' ∧ e'.space = e.space := by
  obtain ⟨hne, hnle⟩ := ne_zero_and_not_le_of_lt hlt
  have hmap : k.mmapFixed e.space (pageAlign e.vbrk)
      ((brkLength ((r - e.vbrk).setWidth 32)).setWidth 64) ⟨true, true, false⟩ = none :=
    mmapFixed_of_not_grants hrefused
  rw [brkRequest, bind_of_ok (modify_apply _ e), hookBrk, bind_apply, brkMove,
    bind_of_ok (get_apply _)]
  simp only [if_neg hne, if_neg hnle]
  rw [if_pos (by simpa [grows] using hgrows)]
  simp only [hmap]
  exact ⟨_, rfl, rfl⟩

/-- The address space after a mapping that the kernel grants. -/
def brkMapped (m : Space) (v r : Word) : Space :=
  ⟨patch m.byte (pageAlign v) 0 (mappedLen (brkMapLength v r)) fun _ => 0,
    patch m.prot (pageAlign v) 0 (mappedLen (brkMapLength v r)) fun _ => some ⟨true, true, false⟩⟩

theorem brkRequest_of_grants (hlt : e.vbrk < r) (hgrows : grows e.vbrk r = true)
    (hgrant : k.Grants (pageAlign e.vbrk) (brkMapLength e.vbrk r)) :
    brkRequest k r e = .ok 0 (brkDone e r r (brkMapped e.space e.vbrk r)) :=
  brkRequest_of_grows hlt hgrows (mmapFixed_of_grants hgrant)

/-- The break never moves down. -/
theorem vbrk_le_of_brkRequest {v : Word} {e' : Engine} (h : brkRequest k r e = .ok v e') :
    e.vbrk ≤ e'.vbrk := by
  by_cases hzero : r = 0
  · rw [hzero, brkRequest_zero] at h
    cases h
    exact BitVec.le_refl _
  by_cases hle : r ≤ e.vbrk
  · rw [brkRequest_of_le hzero hle] at h
    cases h
  have hlt : e.vbrk < r := BitVec.not_le.mp hle
  by_cases hgrows : grows e.vbrk r = true
  · by_cases hgrant : k.Grants (pageAlign e.vbrk) (brkMapLength e.vbrk r)
    · rw [brkRequest_of_grants hlt hgrows hgrant] at h
      cases h
      exact BitVec.le_of_lt hlt
    · obtain ⟨_, hfail, -⟩ := brkRequest_of_not_grants hlt hgrows hgrant
      rw [hfail] at h
      cases h
  · rw [brkRequest_of_not_grows hlt hgrows] at h
    cases h
    exact BitVec.le_refl _

end Outcomes

/-! ## The answers -/

/-- What the guest is told.  A query is answered with the break.  A request that is
not above the break fails the assertion, and a mapping that the kernel refuses is
fatal.  Any other request is answered with the request or with the old break, which is
also the break from then on, and with the request when the hook maps pages for it. -/
theorem hookBrk_answers (k : Kernel) (e : Engine) :
    (e.state.rdi = 0 →
      ∃ e', hookBrk k e = .ok 0 e' ∧ e'.state.rax = e.vbrk ∧ e'.vbrk = e.vbrk) ∧
    (e.state.rdi ≠ 0 → e.state.rdi ≤ e.vbrk → hookBrk k e = .error .assertion e) ∧
    (e.vbrk < e.state.rdi → grows e.vbrk e.state.rdi = true →
      ¬ k.Grants (pageAlign e.vbrk) (brkMapLength e.vbrk e.state.rdi) →
      ∃ e', hookBrk k e = .error .fatal e') ∧
    (e.vbrk < e.state.rdi →
      (grows e.vbrk e.state.rdi = true →
        k.Grants (pageAlign e.vbrk) (brkMapLength e.vbrk e.state.rdi)) →
      ∃ e', hookBrk k e = .ok 0 e' ∧ e'.state.rax = e'.vbrk ∧
        (e'.vbrk = e.state.rdi ∨ e'.vbrk = e.vbrk) ∧
        (grows e.vbrk e.state.rdi = true → e'.vbrk = e.state.rdi)) := by
  rw [hookBrk_eq_brkRequest]
  refine ⟨fun hzero => ?_, fun hne hle => ?_, fun hlt hgrows hrefused => ?_, fun hlt hgrant => ?_⟩
  · rw [hzero, brkRequest_zero]
    exact ⟨_, rfl, rfl, rfl⟩
  · exact brkRequest_of_le hne hle
  · obtain ⟨e', hfail, -⟩ := brkRequest_of_not_grants hlt hgrows hrefused
    exact ⟨e', hfail⟩
  · by_cases hgrows : grows e.vbrk e.state.rdi = true
    · rw [brkRequest_of_grants hlt hgrows (hgrant hgrows)]
      exact ⟨_, rfl, rfl, Or.inl rfl, fun _ => rfl⟩
    · rw [brkRequest_of_not_grows hlt hgrows]
      exact ⟨_, rfl, rfl, Or.inr rfl, fun h => absurd h hgrows⟩

/-- The heap of `heapEngine` with a request in `rdi`. -/
def heapRequest (r : Word) : Engine :=
  { heapEngine with state := { StateRtime.zero with rdi := r } }

/-- Growth by two pages is answered with the request. -/
theorem hookBrk_answers_two_pages :
    ∃ e', hookBrk Kernel.granting (heapRequest 0x40b000) = .ok 0 e' ∧
      e'.state.rax = e'.vbrk ∧ (e'.vbrk = 0x40b000 ∨ e'.vbrk = 0x409000) ∧
      (grows 0x409000 0x40b000 = true → e'.vbrk = 0x40b000) :=
  (hookBrk_answers Kernel.granting (heapRequest 0x40b000)).2.2.2 (by decide)
    fun _ => ⟨by decide, rfl⟩

/-- A request for the current break aborts the process, and growth by half a page is
answered with the old break. -/
theorem hookBrk_wrong_answers :
    hookBrk Kernel.granting (heapRequest 0x409000) = .error .assertion (heapRequest 0x409000) ∧
      ∃ e', hookBrk Kernel.granting (heapRequest 0x409800) = .ok 0 e' ∧
        (heapRequest 0x409800).vbrk < 0x409800 ∧ e'.state.rax = 0x409000 := by
  constructor
  · exact brkRequest_of_le (k := Kernel.granting) (e := heapRequest 0x409000) (r := 0x409000)
      (by decide) (by decide)
  · have hkept : brkRequest Kernel.granting 0x409800 (heapRequest 0x409800) = _ :=
      brkRequest_of_not_grows (by decide) (by decide)
    exact ⟨_, hkept, by decide, rfl⟩

/-! ## The bytes below the break -/

/-- No byte below the break is changed by the request. -/
def HeapKept (k : Kernel) (e : Engine) (r : Word) : Prop :=
  ∀ x, x < e.vbrk → (final (brkRequest k r e)).space.byte x = e.space.byte x

/-- The request makes the hook map pages, and the kernel grants them. -/
def Remaps (k : Kernel) (e : Engine) (r : Word) : Prop :=
  e.vbrk < r ∧ grows e.vbrk r = true ∧ k.Grants (pageAlign e.vbrk) (brkMapLength e.vbrk r)

/-- When the request maps pages, the part of the old break's page below the break is
zero.  There is no such part when the break is page-aligned. -/
def Harmless (k : Kernel) (e : Engine) (r : Word) : Prop :=
  Remaps k e r → ∀ x, pageAlign e.vbrk ≤ x → x < e.vbrk → e.space.byte x = 0

/-- A request that maps nothing leaves the address space alone. -/
theorem space_of_not_remaps {k : Kernel} {e : Engine} {r : Word} (h : ¬ Remaps k e r) :
    (final (brkRequest k r e)).space = e.space := by
  by_cases hzero : r = 0
  · rw [hzero, brkRequest_zero]
    rfl
  by_cases hle : r ≤ e.vbrk
  · rw [brkRequest_of_le hzero hle]
    rfl
  have hlt : e.vbrk < r := BitVec.not_le.mp hle
  by_cases hgrows : grows e.vbrk r = true
  · obtain ⟨e', hfail, hspace⟩ := brkRequest_of_not_grants (k := k) hlt hgrows
      fun hgrant => h ⟨hlt, hgrows, hgrant⟩
    rw [hfail]
    exact hspace
  · rw [brkRequest_of_not_grows hlt hgrows]
    rfl

theorem byte_of_remaps {k : Kernel} {e : Engine} {r : Word} (h : Remaps k e r) :
    (final (brkRequest k r e)).space.byte =
      patch e.space.byte (pageAlign e.vbrk) 0 (mappedLen (brkMapLength e.vbrk r)) fun _ => 0 := by
  obtain ⟨hlt, hgrows, hgrant⟩ := h
  rw [brkRequest_of_grants hlt hgrows hgrant]
  rfl

/-- The length of a mapping that is not empty. -/
theorem mappedLen_brkMapLength {v r : Word} (hne : brkMapLength v r ≠ 0) :
    mappedLen (brkMapLength v r) = ((r - v).setWidth 32).toNat / 4096 * 4096 + 4096 := by
  have hsmall : ((r - v).setWidth 32).toNat < 0xfffff000 := by
    by_contra hbig
    apply hne
    have halign : ((r - v).setWidth 32 &&& ~~~0xfff).toNat =
        ((r - v).setWidth 32).toNat / 4096 * 4096 := and_not_lowMask_toNat _ 12
    have hround : (0xfff : BitVec 32).toNat = 0xfff := rfl
    have hone : (1 : BitVec 32).toNat = 1 := rfl
    have hlt := ((r - v).setWidth 32).isLt
    apply BitVec.eq_of_toNat_eq
    rw [brkMapLength, BitVec.toNat_setWidth, brkLength, BitVec.toNat_add, BitVec.toNat_add, halign,
      hround, hone]
    show _ = 0
    omega
  rw [mappedLen, brkMapLength, BitVec.toNat_setWidth, brkLength_toNat hsmall]
  omega

/-- The mapping stays below the end of the address space. -/
theorem brkMapped_end {v r : Word} (hlt : v < r) :
    (pageAlign v).toNat + mappedLen (brkMapLength v r) ≤ r.toNat / 4096 * 4096 + 4096 := by
  by_cases hne : brkMapLength v r = 0
  · have hempty : mappedLen (brkMapLength v r) = 0 := by rw [hne]; rfl
    have hv := pageAlign_toNat v
    rw [BitVec.lt_def] at hlt
    omega
  · have hv := pageAlign_toNat v
    rw [BitVec.lt_def] at hlt
    have hsub : (r - v).toNat = r.toNat - v.toNat :=
      BitVec.toNat_sub_of_le (BitVec.le_def.mpr (by omega))
    have hsize : ((r - v).setWidth 32).toNat = (r - v).toNat % 2 ^ 32 := BitVec.toNat_setWidth _ _
    rw [mappedLen_brkMapLength hne]
    omega

/-- The addresses below the break that the mapping covers are those of the break's own
page. -/
theorem inRange_brkMapped_iff {v r x : Word} (hlt : v < r) (hne : brkMapLength v r ≠ 0)
    (hx : x < v) :
    InRange (pageAlign v) (mappedLen (brkMapLength v r)) x ↔ pageAlign v ≤ x := by
  have hend := brkMapped_end hlt
  have hlen := mappedLen_brkMapLength hne
  have hv := pageAlign_toNat v
  have hr := r.isLt
  rw [BitVec.lt_def] at hx
  rw [inRange_iff (by omega), BitVec.le_def]
  omega

/-- A request keeps the bytes below the break exactly when it is harmless. -/
theorem brkRequest_heapKept_iff (k : Kernel) (e : Engine) (r : Word) :
    HeapKept k e r ↔ Harmless k e r := by
  by_cases hremaps : Remaps k e r
  · have hbyte : ∀ x, x < e.vbrk → ((final (brkRequest k r e)).space.byte x = e.space.byte x ↔
        (pageAlign e.vbrk ≤ x → e.space.byte x = 0)) := by
      intro x hx
      have hin := inRange_brkMapped_iff hremaps.1 hremaps.2.2.1 hx
      rw [byte_of_remaps hremaps, patch_apply]
      simp only [hin]
      split
      · rename_i hpage
        exact ⟨fun h _ => h.symm, fun h => (h hpage).symm⟩
      · rename_i hpage
        exact iff_of_true rfl fun h => absurd h hpage
    constructor
    · intro hkept _ x hpage hx
      exact (hbyte x hx).mp (hkept x hx) hpage
    · intro hharm x hx
      exact (hbyte x hx).mpr fun hpage => hharm hremaps x hpage hx
  · apply iff_of_true
    · intro x _
      rw [space_of_not_remaps hremaps]
    · exact fun h => absurd h hremaps

/-! ## Runs of requests and writes -/

/-- What the guest does to its heap: ask for a break, or write some bytes. -/
inductive HeapStep where
  | brk (r : Word)
  | write (d : Word → Option Byte)

/-- The engine after the guest has written some bytes. -/
def guestWrite (d : Word → Option Byte) (e : Engine) : Engine :=
  { e with space := { e.space with byte := overlay e.space.byte d } }

def heapStep (k : Kernel) : HeapStep → Eng Word
  | .brk r => brkRequest k r
  | .write d => do
    modify (guestWrite d)
    return 0

/-- `P` holds of the engine at every request of a run. -/
def AtRequests (k : Kernel) (P : Engine → Word → Prop) : Engine → List HeapStep → Prop
  | _, [] => True
  | e, .brk r :: steps =>
    P e r ∧ ∀ v e', brkRequest k r e = .ok v e' → AtRequests k P e' steps
  | e, .write d :: steps => AtRequests k P (guestWrite d e) steps

/-- The bytes that the guest has written in a run. -/
def guestBytes (m : Word → Byte) : List HeapStep → Word → Byte
  | [] => m
  | .brk _ :: steps => guestBytes m steps
  | .write d :: steps => guestBytes (overlay m d) steps

/-- Two memories that agree below an address still do after the same writes. -/
theorem guestBytes_congr {m m' : Word → Byte} {x : Word} (steps : List HeapStep)
    (h : m x = m' x) : guestBytes m steps x = guestBytes m' steps x := by
  induction steps generalizing m m' with
  | nil => exact h
  | cons step steps ih =>
    cases step with
    | brk r => exact ih h
    | write d =>
      apply ih
      rw [overlay, overlay, h]

/-- When every request of a run keeps the bytes below the break, a byte below the
first break is at the end what the guest has made of it. -/
theorem heapRun_contents {k : Kernel} {steps : List HeapStep} {e e' : Engine}
    (run : Reaches (heapStep k) e steps e') (hkept : AtRequests k (HeapKept k) e steps) :
    e.vbrk ≤ e'.vbrk ∧ ∀ x, x < e.vbrk → e'.space.byte x = guestBytes e.space.byte steps x := by
  induction run with
  | nil e => exact ⟨BitVec.le_refl _, fun _ _ => rfl⟩
  | @cons e e₁ e' step steps v head tail ih =>
    cases step with
    | brk r =>
      obtain ⟨hstep, hrest⟩ := hkept
      have hrun : brkRequest k r e = .ok v e₁ := head
      obtain ⟨hle, hbytes⟩ := ih (hrest v e₁ hrun)
      have hup := vbrk_le_of_brkRequest hrun
      refine ⟨BitVec.le_trans hup hle, fun x hx => ?_⟩
      have hsame : e₁.space.byte x = e.space.byte x := by
        have hfinal := hstep x hx
        rw [hrun] at hfinal
        exact hfinal
      have hx₁ : x < e₁.vbrk := by
        rw [BitVec.lt_def] at hx ⊢
        rw [BitVec.le_def] at hup
        omega
      rw [hbytes x hx₁]
      exact guestBytes_congr steps hsame
    | write d =>
      cases head
      exact ih hkept

/-- For every start and every sequence of requests and writes: no request changes a
byte below the break that it was made at, exactly when each request that maps pages
finds the part of its break's page below the break zero.  Then the bytes below the
first break are those that the guest has written. -/
theorem hookBrk_heap_kept (k : Kernel) (e : Engine) (steps : List HeapStep) :
    (AtRequests k (HeapKept k) e steps ↔ AtRequests k (Harmless k) e steps) ∧
      (AtRequests k (Harmless k) e steps → ∀ e', Reaches (heapStep k) e steps e' →
        ∀ x, x < e.vbrk → e'.space.byte x = guestBytes e.space.byte steps x) := by
  have hiff : AtRequests k (HeapKept k) e steps ↔ AtRequests k (Harmless k) e steps := by
    induction steps generalizing e with
    | nil => exact Iff.rfl
    | cons step steps ih =>
      cases step with
      | brk r =>
        simp only [AtRequests, brkRequest_heapKept_iff]
        exact and_congr_right fun _ => forall₃_congr fun _ e' _ => ih e'
      | write d => exact ih _
  exact ⟨hiff, fun hharm e' run => (heapRun_contents run (hiff.mpr hharm)).2⟩

/-- One byte. -/
def oneByte (a : Word) (v : Byte) : Word → Option Byte := fun x => if x = a then some v else none

/-- The heap grows by a page and a half, and the guest writes to its last page. -/
def unevenGrowth : List HeapStep := [.brk 0x40a800, .write (oneByte 0x40a000 7)]

theorem hookBrk_heap_kept_unevenGrowth :
    AtRequests Kernel.granting (Harmless Kernel.granting) heapEngine unevenGrowth ∧
      ∀ e', Reaches (heapStep Kernel.granting) heapEngine unevenGrowth e' →
        ∀ x, x < 0x409000 → e'.space.byte x = guestBytes (fun _ => 0) unevenGrowth x := by
  have hharm : AtRequests Kernel.granting (Harmless Kernel.granting) heapEngine unevenGrowth := by
    refine ⟨?_, fun _ _ _ => trivial⟩
    exact fun _ _ _ _ => rfl
  exact ⟨hharm, (hookBrk_heap_kept Kernel.granting heapEngine unevenGrowth).2 hharm⟩

/-- The next request maps the page of the break again, and the byte is gone. -/
theorem hookBrk_heap_lost :
    ∃ e₁ e₂, Reaches (heapStep Kernel.granting) heapEngine unevenGrowth e₁ ∧
      brkRequest Kernel.granting 0x40c000 e₁ = .ok 0 e₂ ∧ e₁.vbrk < 0x40c000 ∧
      0x40a000 < e₁.vbrk ∧ e₁.space.byte 0x40a000 = 7 ∧ e₂.space.byte 0x40a000 = 0 := by
  have hgrown := brkRequest_of_grants (k := Kernel.granting) (e := heapEngine) (r := 0x40a800)
    (by decide) (by decide) ⟨by decide, rfl⟩
  have hlost : ∀ m : Space, (brkMapped m 0x40a800 0x40c000).byte 0x40a000 = 0 := by
    intro m
    have hin : InRange (pageAlign 0x40a800) (mappedLen (brkMapLength 0x40a800 0x40c000))
        0x40a000 := by
      decide
    rw [brkMapped]
    simp only
    rw [patch_of_inRange hin]
  have hwritten : ∀ e, (guestWrite (oneByte 0x40a000 7) e).space.byte 0x40a000 = 7 := by
    intro e
    rw [guestWrite]
    simp only [overlay, oneByte, if_true, Option.getD_some]
  exact ⟨_, _, .cons hgrown (.cons rfl (.nil _)),
    brkRequest_of_grants (by decide) (by decide) ⟨by decide, rfl⟩, by decide, by decide,
    hwritten _, hlost _⟩

end Dryadalis
