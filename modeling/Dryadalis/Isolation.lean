import Dryadalis.HeapContents
import Dryadalis.Loader

/-!
# The stubs and the heap

The dump stub and the restore stub are at two fixed addresses, above a binary that is
linked at a low address.  The heap grows upwards from wherever the loader left the
break, with mappings that replace what they cover.  Nothing in `hook_brk` looks at the
stubs.

So the stubs are safe as long as the break does not reach them: every request is below
a stub, or is made when the break is already past its page (`ClearOfStubs`).  The
invariant of a run is that both stubs hold the code that was assembled for them
(`Stubs.InPlace`), from the start on, which is `Stubs.start`: the binary is loaded and
then the stubs are mapped.
-/

namespace Dryadalis

open ByteMem Exec

/-! ## The stubs -/

def STUB_ADDR_DUMP : Word := 0xff1d000
def STUB_ADDR_RESTORE : Word := 0xdf1d000

/-- The code that Keystone assembles for the two stubs, no longer than a page. -/
structure Stubs where
  dump : List Byte
  restore : List Byte
  dump_le : dump.length ≤ 4096
  restore_le : restore.length ≤ 4096

/-- `craft_hook` and `craft_restore_stub`: map the page and copy the code. -/
def craftStub (k : Kernel) (addr : Word) (code : List Byte) (m : Space) : Option Space :=
  (k.mmapFixed m addr 0x1000 ⟨true, true, true⟩).map fun m =>
    { m with byte := patch m.byte addr 0 code.length (fun i => code.getD i 0) }

/-- The engine with the binary loaded and both stubs in place. -/
def Stubs.start (stubs : Stubs) (k : Kernel) (b : Binary) (m : Space) : Option Engine := do
  let l ← mapBinary k b m
  let m ← craftStub k STUB_ADDR_DUMP stubs.dump l.space
  let m ← craftStub k STUB_ADDR_RESTORE stubs.restore m
  return { Engine.fresh m with vbrk := l.vbrk }

/-- Both stubs hold their code. -/
def Stubs.InPlace (stubs : Stubs) (m : Word → Byte) : Prop :=
  (∀ i, i < stubs.dump.length → window m STUB_ADDR_DUMP i = stubs.dump.getD i 0) ∧
    ∀ i, i < stubs.restore.length → window m STUB_ADDR_RESTORE i = stubs.restore.getD i 0

/-! ## What a request maps -/

/-- The pages of the two stubs. -/
def stubPages : List Word := [STUB_ADDR_DUMP, STUB_ADDR_RESTORE]

/-- The mapping that `hook_brk` asks for, if it asks for one, covers no byte of the two
stub pages. -/
def SparesStubs (e : Engine) (r : Word) : Prop :=
  e.vbrk < r → grows e.vbrk r = true → ∀ page ∈ stubPages,
    Disjoint (pageAlign e.vbrk) (mappedLen (brkMapLength e.vbrk r)) page 4096

/-- A request above the break is below each stub, or is made at a break that is past
its page. -/
def ClearOfStubs (e : Engine) (r : Word) : Prop :=
  e.vbrk < r → ∀ page ∈ stubPages, r < page ∨ page + 0x1000 ≤ e.vbrk

theorem stubPages_bounds {page : Word} (h : page ∈ stubPages) :
    page.toNat % 4096 = 0 ∧ (page + 0x1000).toNat = page.toNat + 4096 := by
  have hcases : page = STUB_ADDR_DUMP ∨ page = STUB_ADDR_RESTORE := by
    simpa [stubPages] using h
  have hnext : (page + 0x1000).toNat = (page.toNat + 4096) % 2 ^ 64 := BitVec.toNat_add page 0x1000
  have hdump : STUB_ADDR_DUMP.toNat = 0xff1d000 := rfl
  have hrestore : STUB_ADDR_RESTORE.toNat = 0xdf1d000 := rfl
  rcases hcases with rfl | rfl <;> omega

theorem ClearOfStubs.spares {e : Engine} {r : Word} (h : ClearOfStubs e r) : SparesStubs e r := by
  intro hlt _ page hpage x hmapped hstub
  obtain ⟨haligned, hend⟩ := stubPages_bounds hpage
  have hmap := brkMapped_end hlt
  have hv := pageAlign_toNat e.vbrk
  have hr := r.isLt
  have hnext := (page + 0x1000).isLt
  rw [inRange_iff (by omega)] at hmapped
  rw [inRange_iff (by omega)] at hstub
  rcases h hlt page hpage with hbelow | habove
  · rw [BitVec.lt_def] at hbelow
    omega
  · rw [BitVec.le_def] at habove
    omega

/-- A request that spares the stubs keeps their bytes. -/
theorem SparesStubs.byte_eq {k : Kernel} {e : Engine} {r : Word} (h : SparesStubs e r)
    {page x : Word} (hpage : page ∈ stubPages) (hx : InRange page 4096 x) :
    (final (brkRequest k r e)).space.byte x = e.space.byte x := by
  by_cases hremaps : Remaps k e r
  · rw [byte_of_remaps hremaps, patch_of_not_inRange]
    exact fun hmapped => h hremaps.1 hremaps.2.1 page hpage x hmapped hx
  · rw [space_of_not_remaps hremaps]

theorem Stubs.InPlace.brkRequest {stubs : Stubs} {k : Kernel} {e : Engine} {r : Word}
    (h : stubs.InPlace e.space.byte) (hspares : SparesStubs e r) :
    stubs.InPlace (final (brkRequest k r e)).space.byte := by
  constructor
  · intro i hi
    have hin := inRange_add (a := STUB_ADDR_DUMP) (Nat.lt_of_lt_of_le hi stubs.dump_le) (by decide)
    exact (hspares.byte_eq (by decide) hin).trans (h.1 i hi)
  · intro i hi
    have hin := inRange_add (a := STUB_ADDR_RESTORE)
      (Nat.lt_of_lt_of_le hi stubs.restore_le) (by decide)
    exact (hspares.byte_eq (by decide) hin).trans (h.2 i hi)

/-! ## The start -/

theorem stubs_disjoint : Disjoint STUB_ADDR_RESTORE 4096 STUB_ADDR_DUMP 4096 := by
  have hrestore : STUB_ADDR_RESTORE.toNat = 0xdf1d000 := rfl
  have hdump : STUB_ADDR_DUMP.toNat = 0xff1d000 := rfl
  intro x hx hx'
  rw [inRange_iff (by omega)] at hx hx'
  omega

/-- The page of a stub has its code after it was crafted, and nothing else has
changed. -/
theorem craftStub_spec {k : Kernel} {addr : Word} {code : List Byte} {m m' : Space}
    (h : craftStub k addr code m = some m') (hle : code.length ≤ 4096) :
    (∀ i, i < code.length → window m'.byte addr i = code.getD i 0) ∧
      ∀ x, ¬ InRange addr 4096 x → m'.byte x = m.byte x := by
  have hlen : mappedLen 0x1000 = 4096 := by decide
  rw [craftStub, Kernel.mmapFixed, hlen] at h
  split at h
  · cases h
    constructor
    · intro i hi
      simp only
      rw [window_patch hi (by omega)]
    · intro x hx
      have hcode : ¬ InRange addr code.length x := fun hin => hx (Nat.lt_of_lt_of_le hin hle)
      simp only
      rw [patch_of_not_inRange hcode, patch_of_not_inRange hx]
  · cases h

theorem craftStub_prot {k : Kernel} {addr : Word} {code : List Byte} {m m' : Space}
    (h : craftStub k addr code m = some m') {page : Word} (hpage : ¬ InRange addr 4096 page) :
    m'.prot page = m.prot page := by
  have hlen : mappedLen 0x1000 = 4096 := by decide
  rw [craftStub, Kernel.mmapFixed, hlen] at h
  split at h
  · cases h
    simp only
    rw [patch_of_not_inRange hpage]
  · cases h

theorem Stubs.start_inPlace {stubs : Stubs} {k : Kernel} {b : Binary} {m : Space} {e : Engine}
    (h : stubs.start k b m = some e) : stubs.InPlace e.space.byte := by
  simp only [Stubs.start, Option.bind_eq_bind, Option.bind_eq_some_iff, Option.pure_def,
    Option.some.injEq] at h
  obtain ⟨l, -, m₁, hdump, m₂, hrestore, rfl⟩ := h
  obtain ⟨hcode, -⟩ := craftStub_spec hdump stubs.dump_le
  obtain ⟨hcode', hrest⟩ := craftStub_spec hrestore stubs.restore_le
  refine ⟨fun i hi => ?_, hcode'⟩
  have hin := inRange_add (a := STUB_ADDR_DUMP) (Nat.lt_of_lt_of_le hi stubs.dump_le) (by decide)
  exact (hrest _ fun hx => stubs_disjoint _ hx hin).trans (hcode i hi)

/-! ## Runs -/

/-- For every binary and every sequence of requests that stay clear of the stubs: no
mapping that `hook_brk` asks for covers a byte of a stub page, and both stubs hold their
code at the end. -/
theorem hookBrk_spares_stubs {k : Kernel} {b : Binary} {m : Space} {stubs : Stubs} {e : Engine}
    (hstart : stubs.start k b m = some e) (rs : List Word)
    (hclear : AtRequests k ClearOfStubs e (rs.map .brk)) :
    AtRequests k SparesStubs e (rs.map .brk) ∧
      ∀ e', Reaches (brkRequest k) e rs e' → stubs.InPlace e'.space.byte := by
  have hplace := Stubs.start_inPlace hstart
  clear hstart
  induction rs generalizing e with
  | nil =>
    refine ⟨trivial, fun e' run => ?_⟩
    cases run
    exact hplace
  | cons r rs ih =>
    obtain ⟨hhead, htail⟩ := hclear
    have hspares := hhead.spares
    have hnext : ∀ v e', brkRequest k r e = .ok v e' → stubs.InPlace e'.space.byte := by
      intro v e' hrun
      have hkept := hplace.brkRequest (k := k) hspares
      rw [hrun] at hkept
      exact hkept
    refine ⟨⟨hspares, fun v e' hrun => (ih (htail v e' hrun) (hnext v e' hrun)).1⟩, ?_⟩
    intro e' run
    cases run with
    | cons head tail => exact (ih (htail _ _ head) (hnext _ _ head)).2 e' tail

/-- A binary that is not position-independent: one page of code at `0x400000`, and
one page of data at `0x401000`. -/
def lowBinary : Binary where
  pie := false
  file := fun _ => 0x90
  sPh := [
    { pType := .LOAD, pfW := false, pfX := true
      pOffset := 0, pVaddr := 0x400000, pFilesz := 0x800, pMemsz := 0x800 },
    { pType := .LOAD, pfW := true, pfX := false
      pOffset := 0x1000, pVaddr := 0x401000, pFilesz := 0x200, pMemsz := 0x400 }]
  baseAddress := 0
  loadInterp := fun _ => none

/-- Stubs of one byte. -/
def shortStubs : Stubs where
  dump := [0x48]
  restore := [0x48]
  dump_le := by decide
  restore_le := by decide

/-- An address space with nothing in it. -/
def emptySpace : Space := { byte := fun _ => 0, prot := fun _ => none }

/-- The break of `lowBinary` is at the end of its data. -/
theorem lowBinary_start :
    ∃ e, shortStubs.start Kernel.granting lowBinary emptySpace = some e ∧ e.vbrk = 0x402000 :=
  ⟨_, rfl, by decide⟩

/-- The heap grows by a page and a half. -/
theorem hookBrk_spares_stubs_lowBinary :
    ∃ e, shortStubs.start Kernel.granting lowBinary emptySpace = some e ∧
      ∀ e', Reaches (brkRequest Kernel.granting) e [0x403800] e' →
        shortStubs.InPlace e'.space.byte := by
  obtain ⟨e, hstart, hvbrk⟩ := lowBinary_start
  have hclear : AtRequests Kernel.granting ClearOfStubs e ([0x403800].map .brk) := by
    refine ⟨fun _ page hpage => Or.inl ?_, fun _ _ _ => trivial⟩
    have hcases : page = STUB_ADDR_DUMP ∨ page = STUB_ADDR_RESTORE := by
      simpa [stubPages] using hpage
    rcases hcases with rfl | rfl <;> decide
  exact ⟨e, hstart, (hookBrk_spares_stubs hstart [0x403800] hclear).2⟩

/-- The guest asks for a heap of some 220 megabytes.  Its segments are all below the
stubs, and the restore stub is zeroed. -/
theorem hookBrk_overwrites_stub :
    (∀ ph ∈ lowBinary.sPh, ph.pVaddr + ph.pMemsz ≤ STUB_ADDR_RESTORE) ∧
      ∃ e e', shortStubs.start Kernel.granting lowBinary emptySpace = some e ∧
        e.space.byte STUB_ADDR_RESTORE = 0x48 ∧
        brkRequest Kernel.granting 0xdf1e000 e = .ok 0 e' ∧ ¬ SparesStubs e 0xdf1e000 ∧
        e'.space.byte STUB_ADDR_RESTORE = 0 := by
  obtain ⟨e, hstart, hvbrk⟩ := lowBinary_start
  have hplace := (Stubs.start_inPlace hstart).2 0 (by decide)
  have hremaps : Remaps Kernel.granting e 0xdf1e000 := by
    rw [Remaps, hvbrk]
    exact ⟨by decide, by decide, by decide, rfl⟩
  have hcovers : InRange (pageAlign e.vbrk) (mappedLen (brkMapLength e.vbrk 0xdf1e000))
      STUB_ADDR_RESTORE := by
    rw [hvbrk]
    decide
  have hrun := brkRequest_of_grants hremaps.1 hremaps.2.1 hremaps.2.2
  refine ⟨by decide, e, _, hstart, hplace, hrun, ?_, ?_⟩
  · intro hspares
    exact hspares hremaps.1 hremaps.2.1 STUB_ADDR_RESTORE (by decide) _ hcovers (by decide)
  · have hbyte := byte_of_remaps hremaps
    rw [hrun] at hbyte
    have hzero := congrFun hbyte STUB_ADDR_RESTORE
    rw [patch_of_inRange hcovers] at hzero
    exact hzero

end Dryadalis
