import Dryadalis.Syscalls

/-!
# The emulated break

`hook_brk` keeps the program break in `vbrk` and maps pages below it on demand.
A request above the break is answered with the request when the hook maps, and
with the old break when it decides that nothing has to be mapped (`grows`).

The mapping starts at the page of the old break, but its length is computed from
the increment alone, in 32 bits.  So it reaches the new break only when the page
offset of the old break and the low bits of the increment together fit in one
page, and when the increment is small enough not to overflow (`Fits`).

`Covered` is the invariant: every page from the initial break up to the current
one is mapped.  `brkRequest_spec` is the step and `brkRun_covered` the run.
-/

namespace Dryadalis

open ByteMem

/-! ## Requests -/

/-- The guest asks for a break. -/
def brkRequest (k : Kernel) (r : Word) : Eng Word := do
  modify fun e => { e with state := { e.state with rdi := r } }
  hookBrk k

/-- The test of `hook_brk`: the increment and the page offset of the old break
exceed a page. -/
def grows (v r : Word) : Bool :=
  PAGE_SZ < ((r - v).setWidth 32).setWidth 64 + pageOfft v

/-- The break after a request above it. -/
def nextBreak (v r : Word) : Word := if grows v r then r else v

/-- The request is above the break, and when the hook maps pages for it they reach
the new break. -/
def Fits (v r : Word) : Prop :=
  v < r ∧ (grows v r = true →
    (r - v).toNat < 0xfffff000 ∧ v.toNat % 4096 + (r - v).toNat % 4096 ≤ 4096)

instance (v r : Word) : Decidable (Fits v r) :=
  inferInstanceAs (Decidable (v < r ∧ (grows v r = true → _ ∧ _)))

/-- Every request of a sequence fits, at the break that the ones before it left. -/
def AllFit : Word → List Word → Prop
  | _, [] => True
  | v, r :: rs => Fits v r ∧ AllFit (nextBreak v r) rs

/-! ## Coverage -/

/-- The page is mapped readable and writable. -/
def Space.ReadWrite (m : Space) (page : Word) : Prop :=
  ∃ p, m.prot page = some p ∧ p.read = true ∧ p.write = true

/-- Every page that overlaps `[lo, hi)` is mapped readable and writable. -/
def Space.Covered (m : Space) (lo hi : Word) : Prop :=
  ∀ x, lo ≤ x → x < hi → m.ReadWrite (pageAlign x)

theorem brkLength_toNat {size : BitVec 32} (h : size.toNat < 0xfffff000) :
    (brkLength size).toNat = size.toNat / 4096 * 4096 + 4096 := by
  have halign : (size &&& ~~~0xfff).toNat = size.toNat / 4096 * 4096 :=
    and_not_lowMask_toNat size 12
  have hround : (0xfff : BitVec 32).toNat = 0xfff := rfl
  have hone : (1 : BitVec 32).toNat = 1 := rfl
  rw [brkLength, BitVec.toNat_add, BitVec.toNat_add, halign, hround, hone]
  omega

/-- The pages that `hook_brk` maps for a request that fits. -/
theorem mmapFixed_covers {k : Kernel} {m : Space} {v r : Word}
    (hmmap : ∀ a len, len ≠ 0 → k.mmap a len = true) (hfits : Fits v r)
    (hgrows : grows v r = true) :
    ∃ m', k.mmapFixed m (pageAlign v) ((brkLength ((r - v).setWidth 32)).setWidth 64)
        ⟨true, true, false⟩ = some m' ∧
      (∀ page, m.ReadWrite page → m'.ReadWrite page) ∧ m'.Covered v r := by
  obtain ⟨hlt, hsmall⟩ := hfits
  obtain ⟨hsize, hoff⟩ := hsmall hgrows
  rw [BitVec.lt_def] at hlt
  have hsub : (r - v).toNat = r.toNat - v.toNat :=
    BitVec.toNat_sub_of_le (BitVec.le_def.mpr (by omega))
  have hnarrow : ((r - v).setWidth 32).toNat = (r - v).toNat := by
    rw [BitVec.toNat_setWidth, Nat.mod_eq_of_lt (by omega)]
  have hlen : ((brkLength ((r - v).setWidth 32)).setWidth 64).toNat =
      (r - v).toNat / 4096 * 4096 + 4096 := by
    rw [BitVec.toNat_setWidth, brkLength_toNat (by omega), hnarrow, Nat.mod_eq_of_lt (by omega)]
  generalize (brkLength ((r - v).setWidth 32)).setWidth 64 = len at hlen ⊢
  have hne : len ≠ 0 := by
    rintro rfl
    simp at hlen
  have hmapped : mappedLen len = (r - v).toNat / 4096 * 4096 + 4096 := by
    rw [mappedLen, hlen]
    omega
  have hprot : ∀ page, patch m.prot (pageAlign v) 0 (mappedLen len)
      (fun _ => some ⟨true, true, false⟩) page =
        if InRange (pageAlign v) (mappedLen len) page then some ⟨true, true, false⟩
        else m.prot page := fun page => patch_apply _ _ _ _ _
  refine ⟨_, by rw [Kernel.mmapFixed, if_pos ⟨hne, hmmap _ _ hne⟩], ?_, ?_⟩
  · rintro page ⟨p, hp, hread, hwrite⟩
    rw [Space.ReadWrite]
    simp only [hprot]
    split
    · exact ⟨_, rfl, rfl, rfl⟩
    · exact ⟨p, hp, hread, hwrite⟩
  · intro x hvx hxr
    rw [BitVec.le_def] at hvx
    rw [BitVec.lt_def] at hxr
    have hv := pageAlign_toNat v
    have hx := pageAlign_toNat x
    have hin : InRange (pageAlign v) (mappedLen len) (pageAlign x) := by
      rw [InRange, ByteMem.dist, BitVec.toNat_sub_of_le (BitVec.le_def.mpr (by omega)), hmapped]
      omega
    rw [Space.ReadWrite]
    simp only [hprot, if_pos hin]
    exact ⟨_, rfl, rfl, rfl⟩

/-! ## One request -/

/-- The engine after a request that was answered with `v`, over the space `m`. -/
def brkDone (e : Engine) (r v : Word) (m : Space) : Engine :=
  { e with
    state := { e.state with rdi := r, rax := v }
    space := m
    vbrk := v
    trace := .output e.fs e.gs :: e.trace }

section Request

variable {k : Kernel} {e : Engine} {r : Word}

/-- A request above the break passes the two tests at the start of the hook. -/
theorem ne_zero_and_not_le_of_lt {v : Word} (h : v < r) : r ≠ 0 ∧ ¬ r ≤ v := by
  constructor
  · rintro rfl
    rw [BitVec.lt_def] at h
    simp at h
  · exact BitVec.not_le.mpr h

theorem brkRequest_of_grows {m : Space} (hlt : e.vbrk < r) (hgrows : grows e.vbrk r = true)
    (hmap : k.mmapFixed e.space (pageAlign e.vbrk)
      ((brkLength ((r - e.vbrk).setWidth 32)).setWidth 64) ⟨true, true, false⟩ = some m) :
    brkRequest k r e = .ok 0 (brkDone e r r m) := by
  obtain ⟨hne, hnle⟩ := ne_zero_and_not_le_of_lt hlt
  rw [brkRequest, Exec.bind_of_ok (Exec.modify_apply _ e), hookBrk, Exec.bind_apply, brkMove,
    Exec.bind_of_ok (Exec.get_apply _)]
  simp only [if_neg hne, if_neg hnle]
  rw [if_pos (by simpa [grows] using hgrows)]
  simp only [hmap]
  rfl

theorem brkRequest_of_not_grows (hlt : e.vbrk < r) (hgrows : grows e.vbrk r ≠ true) :
    brkRequest k r e = .ok 0 (brkDone e r e.vbrk e.space) := by
  obtain ⟨hne, hnle⟩ := ne_zero_and_not_le_of_lt hlt
  rw [brkRequest, Exec.bind_of_ok (Exec.modify_apply _ e), hookBrk, Exec.bind_apply, brkMove,
    Exec.bind_of_ok (Exec.get_apply _)]
  simp only [if_neg hne, if_neg hnle]
  rw [if_neg (by simpa [grows] using hgrows)]
  rfl

/-- A request that fits is answered with the next break, and extends the pages
that are covered up to it. -/
theorem brkRequest_spec {lo : Word} (hmmap : ∀ a len, len ≠ 0 → k.mmap a len = true)
    (hfits : Fits e.vbrk r) (hcov : e.space.Covered lo e.vbrk) :
    ∃ e', brkRequest k r e = .ok 0 e' ∧ e'.vbrk = nextBreak e.vbrk r ∧
      e'.state.rax = nextBreak e.vbrk r ∧ e'.space.Covered lo e'.vbrk := by
  by_cases hgrows : grows e.vbrk r = true
  · obtain ⟨m, hmap, hkeep, hnew⟩ := mmapFixed_covers (m := e.space) hmmap hfits hgrows
    rw [nextBreak, if_pos hgrows]
    refine ⟨_, brkRequest_of_grows hfits.1 hgrows hmap, rfl, rfl, ?_⟩
    intro x hlo hhi
    by_cases hx : x < e.vbrk
    · exact hkeep _ (hcov x hlo hx)
    · exact hnew x (BitVec.not_lt.mp hx) hhi
  · rw [nextBreak, if_neg hgrows]
    exact ⟨_, brkRequest_of_not_grows hfits.1 hgrows, rfl, rfl, hcov⟩

end Request

/-! ## Runs -/

theorem brkRun_covered {k : Kernel} {lo : Word} (hmmap : ∀ a len, len ≠ 0 → k.mmap a len = true) :
    ∀ (rs : List Word) (tail : List Word) (e : Engine), AllFit e.vbrk (rs ++ tail) →
      e.space.Covered lo e.vbrk →
      ∃ e', Exec.Reaches (brkRequest k) e rs e' ∧ AllFit e'.vbrk tail ∧
        e'.space.Covered lo e'.vbrk := by
  intro rs
  induction rs with
  | nil =>
    intro tail e hfit hcov
    exact ⟨e, .nil e, hfit, hcov⟩
  | cons r rs ih =>
    intro tail e hfit hcov
    obtain ⟨hfits, hrest⟩ := hfit
    obtain ⟨e₁, hstep, hvbrk, -, hcov₁⟩ := brkRequest_spec hmmap hfits hcov
    rw [← hvbrk] at hrest
    obtain ⟨e', hrun, htail, hcov'⟩ := ih tail e₁ hrest hcov₁
    exact ⟨e', .cons hstep hrun, htail, hcov'⟩

/-- For every sequence of requests that all fit, the hook returns each time, and
after a request that is answered with itself every page from the initial break up
to it is mapped readable and writable. -/
theorem hookBrk_covered {k : Kernel} {e : Engine} {rs : List Word} {r : Word}
    (hmmap : ∀ a len, len ≠ 0 → k.mmap a len = true) (hfit : AllFit e.vbrk (rs ++ [r])) :
    ∃ e₁ e₂, Exec.Reaches (brkRequest k) e rs e₁ ∧ brkRequest k r e₁ = .ok 0 e₂ ∧
      (e₂.state.rax = r → e₂.space.Covered e.vbrk r) := by
  have hstart : e.space.Covered e.vbrk e.vbrk := by
    intro x hlo hhi
    rw [BitVec.le_def] at hlo
    rw [BitVec.lt_def] at hhi
    omega
  obtain ⟨e₁, hrun, hlast, hcov⟩ := brkRun_covered hmmap rs [r] e hfit hstart
  obtain ⟨e₂, hstep, hvbrk, hrax, hcov₂⟩ := brkRequest_spec hmmap hlast.1 hcov
  refine ⟨e₁, e₂, hrun, hstep, ?_⟩
  intro hanswer
  rw [hvbrk, ← hrax, hanswer] at hcov₂
  exact hcov₂

/-- An engine whose heap is still empty. -/
def heapEngine : Engine :=
  { Engine.fresh { byte := fun _ => 0, prot := fun _ => none } with vbrk := 0x409000 }

theorem hookBrk_covered_two_requests :
    ∃ e₁ e₂, Exec.Reaches (brkRequest Kernel.granting) heapEngine [0x40a800] e₁ ∧
      brkRequest Kernel.granting 0x40c000 e₁ = .ok 0 e₂ ∧
      (e₂.state.rax = 0x40c000 → e₂.space.Covered heapEngine.vbrk 0x40c000) :=
  hookBrk_covered (fun _ _ _ => rfl) ⟨by decide, by decide, trivial⟩

theorem mmapFixed_granting {m : Space} {addr len : Word} {p : Prot} {n : Nat} (hlen : len ≠ 0)
    (hn : mappedLen len = n) :
    Kernel.granting.mmapFixed m addr len p =
      some ⟨patch m.byte addr 0 n fun _ => 0, patch m.prot addr 0 n fun _ => some p⟩ := by
  rw [Kernel.mmapFixed, if_pos ⟨hlen, rfl⟩, hn]

/-- The second request is one byte too long: it is granted, and the page of its
last byte is not mapped. -/
theorem hookBrk_not_covered :
    ∃ e₁ e₂, Exec.Reaches (brkRequest Kernel.granting) heapEngine [0x40a800] e₁ ∧
      brkRequest Kernel.granting 0x40c001 e₁ = .ok 0 e₂ ∧ e₁.vbrk < 0x40c001 ∧
      e₂.state.rax = 0x40c001 ∧ ¬ e₂.space.Covered heapEngine.vbrk 0x40c001 := by
  have hrun := brkRequest_of_grows (k := Kernel.granting) (e := heapEngine) (r := 0x40a800)
    (by decide) (by decide) (mmapFixed_granting (n := 0x2000) (by decide) (by decide))
  refine ⟨_, _, .cons hrun (.nil _), brkRequest_of_grows (by decide) (by decide)
    (mmapFixed_granting (n := 0x2000) (by decide) (by decide)), by decide, rfl, ?_⟩
  intro hcov
  obtain ⟨p, hp, -⟩ := hcov 0x40c000 (by decide) (by decide)
  -- Neither of the two mappings reaches the page.
  have hfirst : ¬ InRange (pageAlign 0x409000) 0x2000 (pageAlign 0x40c000) := by decide
  have hsecond : ¬ InRange (pageAlign 0x40a800) 0x2000 (pageAlign 0x40c000) := by decide
  have hpatch : patch (patch (fun _ => none) (pageAlign 0x409000) 0 0x2000
      fun _ => some ⟨true, true, false⟩) (pageAlign 0x40a800) 0 0x2000
      (fun _ => some ⟨true, true, false⟩) (pageAlign 0x40c000) = some p := hp
  rw [patch_of_not_inRange hsecond, patch_of_not_inRange hfirst] at hpatch
  cases hpatch

end Dryadalis
