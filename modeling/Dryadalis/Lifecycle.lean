import Dryadalis.Hooks

/-!
# The life of the hooks over a run

Here a run of the engine is any sequence of blocks and dispatches.  A `Block` is
whatever the guest does between two dispatches, and a `Next` is whatever the
branch emulation does and answers: where the next block is, and how far away its
last instruction.  Neither is restricted to what a decoder would make of the
memory, so blocks may go backwards, overlap, and end in bytes that were patched
before.

`Lifecycle k cs e₀ e m` is such a run, with the memory `m` that the same blocks and
emulations give when no hook is ever written.  The invariant is `HooksUp k e m`.
-/

namespace Dryadalis

open ByteMem Exec

/-! ## Blocks and their successors -/

/-- What the guest does in a block: the bytes that it writes, and its registers and
bases at the end. -/
structure Block where
  writes : Word → Option Byte
  state : StateRtime
  fs : Word
  gs : Word

/-- The engine when the block has run into the dump hook. -/
def Block.apply (b : Block) (e : Engine) : Engine :=
  { e with
    state := b.state
    fs := b.fs
    gs := b.gs
    space := { e.space with byte := overlay e.space.byte b.writes } }

/-- The block writes nothing under the two hooks. -/
def Block.Avoids (b : Block) (e : Engine) : Prop :=
  ∀ x, e.dump.Covers x ∨ e.restore.Covers x → b.writes x = none

/-- How a dispatch goes on: what the emulation of the branch writes and leaves in the
registers, the base of the next block and the offset that the scan returns. -/
structure Next where
  writes : Word → Option Byte
  state : StateRtime
  base : Word
  off : Nat

/-- The engine after the emulation. -/
def Next.emulate (n : Next) (e : Engine) : Engine :=
  { e with
    state := n.state
    space := { e.space with byte := overlay e.space.byte n.writes } }

/-- The emulation, as the dispatcher calls it. -/
def Next.getBase (n : Next) : Eng Word := do
  modify n.emulate
  return n.base

/-- The scan, as `_instrument_bbl` calls it. -/
def Next.scan (n : Next) (_base : Word) : Eng Int := return n.off

/-- The base is above the length of the restore hook, the offset is an `int`, and the pages
involved can be read and protected. -/
structure Next.Valid (n : Next) (k : Kernel) (e : Engine) : Prop where
  base : e.restore.length < n.base
  off : n.off < 2 ^ 31
  pages : k.ProtectsBlock e.space e.dump.length e.restore.length n.base n.off

/-- Both hooks are between 1 and 64 bytes long, and no page was mapped for them. -/
structure Sized (dump restore : Hook) : Prop where
  dumpPos : 1 ≤ dump.length.toNat
  dumpLe : dump.length.toNat ≤ 64
  restorePos : 1 ≤ restore.length.toNat
  restoreLe : restore.length.toNat ≤ 64
  dumpUnmap : dump.toUnmap = 0
  restoreUnmap : restore.toUnmap = 0

/-! ## Runs -/

/-- The engine states between two dispatches, and the memory that the guest would
have had no hook ever been written. -/
inductive Lifecycle (k : Kernel) (cs : Capstone) (e₀ : Engine) :
    Engine → (Word → Byte) → Prop where
  | start {n : Next} {e} (valid : n.Valid k e₀)
      (run : instrumentRequest k cs n.scan n.base e₀ = .ok 0 e) :
      Lifecycle k cs e₀ e e₀.space.byte
  | dispatch {e m e'} {b : Block} {n : Next} (prev : Lifecycle k cs e₀ e m) (avoids : b.Avoids e)
      (valid : n.Valid k e)
      (run : dispatcherWith k cs n.getBase n.scan (b.apply e) = .ok () e') :
      Lifecycle k cs e₀ e' (overlay (overlay m b.writes) n.writes)

section Invariant

variable {k : Kernel} {cs : Capstone} {e₀ e e' : Engine} {m : Word → Byte} {b : Block} {n : Next}

theorem Sized.down (h : Sized e.dump e.restore) : HooksDown e :=
  ⟨h.dumpPos, Nat.lt_of_le_of_lt h.dumpLe (by decide), h.restorePos,
    Nat.lt_of_le_of_lt h.restoreLe (by decide), h.dumpUnmap, h.restoreUnmap⟩

/-- Moving the hooks does not change their lengths. -/
theorem Sized.around (h : Sized e.dump e.restore) {off : Int} {base : Word}
    (haround : Around e e' base off) (hup : HooksUp k e' m) : Sized e'.dump e'.restore := by
  constructor
  · rw [haround.dumpLength]
    exact h.dumpPos
  · rw [haround.dumpLength]
    exact h.dumpLe
  · rw [haround.restoreLength]
    exact h.restorePos
  · rw [haround.restoreLength]
    exact h.restoreLe
  · exact hup.dumpUnmap
  · exact hup.restoreUnmap

theorem Next.Valid.placed (h : n.Valid k e) : n.base - e.restore.length ≠ 0 :=
  sub_ne_zero_of_lt h.base

theorem Next.Valid.apart (h : n.Valid k e) (sized : Sized e.dump e.restore) :
    Disjoint (n.base + BitVec.ofInt 64 n.off) e.dump.length.toNat
      (n.base - e.restore.length) e.restore.length.toNat :=
  block_hooks_disjoint h.off sized.dumpLe sized.restoreLe

/-- Pages that have been opened do not matter. -/
theorem Next.Valid.mono (h : n.Valid k e) (hdump : e'.dump = e.dump)
    (hrestore : e'.restore = e.restore) (hopened : e.space.Opened e'.space) : n.Valid k e' := by
  refine ⟨?_, h.off, ?_⟩
  · rw [hrestore]
    exact h.base
  · rw [hdump, hrestore]
    exact h.pages.mono hopened

theorem Next.scansTo (n : Next) (e : Engine) :
    ScansTo n.scan n.base e n.off e.currSyscall :=
  ⟨e.space, rfl, .refl _, rfl⟩

theorem Next.off_ne (n : Next) : (n.off : Int) ≠ -1 := by omega

/-! ### The three steps of a turn -/

/-- A block that stays out of the hooks does to the patched memory what it does to
the clean one. -/
theorem HooksUp.block (h : HooksUp k e m) (avoids : b.Avoids e) :
    HooksUp k (b.apply e) (overlay m b.writes) := by
  have hdump : ∀ x, e.dump.Covers x → b.writes x = none := fun x hx => avoids x (Or.inl hx)
  have hrestore : ∀ x, e.restore.Covers x → b.writes x = none := fun x hx => avoids x (Or.inr hx)
  refine h.of_agree rfl rfl rfl ?_ (fun _ => Or.inl rfl) fun x hx => overlay_of_none (avoids x hx)
  show overlay e.space.byte b.writes = e.patched (overlay m b.writes)
  rw [h.bytes, Hook.write, Hook.write, overlay_patch hrestore, overlay_patch hdump]
  rfl

/-- The emulation, and then the hooks up around the next block. -/
theorem Next.Valid.hooksUp (cs : Capstone) (h : n.Valid k e)
    (sized : Sized e.dump e.restore) (hbase : n.base ≠ minusOne) :
    ∃ e', (n.getBase >>= instrumentAt k cs n.scan) e = .ok () e' ∧
      HooksUp k e' (overlay e.space.byte n.writes) ∧ Around (n.emulate e) e' n.base n.off := by
  have hsized : Sized (n.emulate e).dump (n.emulate e).restore := sized
  have hopened : e.space.Opened (n.emulate e).space := fun _ => Or.inl rfl
  obtain ⟨e', hrun, hup, haround, -⟩ := instrumentAt_spec cs (e := n.emulate e) hbase
    hsized.down (n.scansTo _) n.off_ne
    (h.pages.mono hopened) h.placed (h.apart sized)
  exact ⟨e', hrun, hup, haround⟩

/-- A base of `-1` ends the run. -/
theorem Next.base_ne_of_ok (run : (n.getBase >>= instrumentAt k cs n.scan) e = .ok () e') :
    n.base ≠ minusOne := by
  intro hbase
  obtain ⟨base, e₁, hget, hrun⟩ := exists_of_bind_ok run
  cases hget
  rw [instrumentAt] at hrun
  simp only [if_pos hbase] at hrun
  cases hrun

/-- From hooks that are up to hooks that are up, over a whole dispatch. -/
theorem HooksUp.dispatch (h : HooksUp k e m) (sized : Sized e.dump e.restore)
    (valid : n.Valid k e)
    (run : dispatcherWith k cs n.getBase n.scan e = .ok () e') :
    HooksUp k e' (overlay m n.writes) ∧ Around e e' n.base n.off := by
  obtain ⟨e₁, e₂, heq₁, heq₂, hmove⟩ := exists_of_dispatcherWith run
  simp only [Engine.guestPart, Prod.mk.injEq] at heq₁ heq₂
  obtain ⟨-, -, heq₁⟩ := heq₁
  obtain ⟨-, -, heq₂⟩ := heq₂
  obtain ⟨space', hbyte, hopened, hmoved⟩ := (h.of_hooking heq₁).moveHooks cs n.getBase n.scan
  have haround₁ := heq₁
  simp only [Engine.hooking, Prod.mk.injEq] at haround₁
  obtain ⟨hspace, hdump, hrestore, -⟩ := haround₁
  rw [hmoved] at hmove
  rw [hspace] at hopened
  have valid₁ : n.Valid k { e₁ with space := space' } := valid.mono hdump hrestore hopened
  rw [← hdump, ← hrestore] at sized
  obtain ⟨e₃, hrun, hup, haround⟩ := Next.Valid.hooksUp cs
    (e := { e₁ with space := space' }) valid₁ sized (Next.base_ne_of_ok hmove)
  have he : e₃ = e₂ := by
    rw [hmove] at hrun
    cases hrun
    rfl
  subst he
  refine ⟨?_, ?_⟩
  · rw [← hbyte]
    exact hup.of_hooking heq₂
  · exact haround.congr hdump hrestore (congrArg (·.2.1) heq₂) (congrArg (·.2.2.1) heq₂)

/-- The invariant of a run. -/
theorem Lifecycle.invariant (sized : Sized e₀.dump e₀.restore) (run : Lifecycle k cs e₀ e m) :
    HooksUp k e m ∧ Sized e.dump e.restore := by
  induction run with
  | @start n e valid run =>
    obtain ⟨e₁, hrun, hup, haround, -⟩ := instrumentRequest_spec cs sized.down
      (n.scansTo e₀) n.off_ne valid.pages valid.placed (valid.apart sized)
    rw [run] at hrun
    cases hrun
    exact ⟨hup, sized.around haround hup⟩
  | @dispatch e m e' b n prev avoids valid run ih =>
    obtain ⟨hup, hsized⟩ := ih
    have hvalid : n.Valid k (b.apply e) := valid.mono rfl rfl fun _ => Or.inl rfl
    obtain ⟨hup', haround⟩ := (hup.block avoids).dispatch hsized hvalid run
    exact ⟨hup', Sized.around (e := b.apply e) hsized haround hup'⟩

end Invariant

/-! ## A short hook over a long instruction -/

/-- `eb fe` -/
def jmpSelf : Insn :=
  { id := .JMP, size := 2, groups := [.JUMP, .BRANCH_RELATIVE], operands := [], rel := some (-2) }

/-- `eb 00` -/
def jmpNext : Insn :=
  { id := .JMP, size := 2, groups := [.JUMP, .BRANCH_RELATIVE], operands := [], rel := some 0 }

def jmpEncodings : Encodings where
  entries := [([0xeb, 0xfe], jmpSelf), ([0xeb, 0x00], jmpNext)]
  length_eq := by decide
  size_pos := by decide
  size_le := by decide
  prefixFree := by decide

/-- Hooks of one byte, and `eb fe` at `0x401000`. -/
def shortHooks : Engine :=
  { Engine.fresh
      (codeSpace fun a => if a = 0x401000 then 0xeb else if a = 0x401001 then 0xfe else 0x90) with
    dump := { Hook.empty with code := fun _ => 0xcc, length := 1 }
    restore := { Hook.empty with code := fun _ => 0xcc, length := 1 } }

theorem shortHooks_sized : Sized shortHooks.dump shortHooks.restore := by
  constructor <;> decide

/-- A hook of one byte covers one address. -/
theorem Hook.eq_of_covers {h : Hook} (hone : h.length = 1) {x : Word} (hx : h.Covers x) :
    x = h.jmp := by
  rw [Hook.Covers, hone] at hx
  obtain ⟨i, hi, rfl⟩ := exists_of_inRange hx
  have hzero : i = 0 := Nat.lt_one_iff.mp hi
  rw [hzero]
  exact BitVec.add_zero _

end Dryadalis
