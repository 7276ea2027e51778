import Dryadalis.Footprint
import Dryadalis.WritePages

/-!
# The two hooks in memory

`HooksUp k e m` is the state of the engine between two dispatches: the memory is
the clean memory `m` of the guest with the code of both hooks written over it, and
the two backups hold what `m` has under them.

The spec lemmas come in two directions.  `instrumentRequest_spec` puts the hooks
up: it starts from a clean memory, and the second `write_hook` must not back up the
code that the first one has just written, which is where the two ranges being
disjoint is used.  `HooksUp.takeDownHooks` takes them down again and gives the clean
memory back.  Neither depends on how the next block was found.
-/

namespace Dryadalis

open ByteMem Exec

/-! ## One hook -/

/-- The memory with the code of the hook. -/
def Hook.write (h : Hook) (m : Word → Byte) : Word → Byte :=
  patch m h.jmp 0 h.length.toNat h.code

/-- The memory with the backup of the hook. -/
def Hook.undo (h : Hook) (m : Word → Byte) : Word → Byte :=
  patch m h.jmp 0 h.length.toNat h.origBytes

/-- The backup is what the memory has under the hook. -/
def Hook.Saved (h : Hook) (m : Word → Byte) : Prop :=
  ∀ i, i < h.length.toNat → h.origBytes i = window m h.jmp i

/-- The address is under the hook. -/
def Hook.Covers (h : Hook) (x : Word) : Prop := InRange h.jmp h.length.toNat x

/-- The two hooks have no byte in common. -/
def Hook.Apart (h h' : Hook) : Prop :=
  Disjoint h.jmp h.length.toNat h'.jmp h'.length.toNat

/-- The hook with the backup that `mem_read` makes. -/
def Hook.save (h : Hook) (m : Word → Byte) : Hook :=
  { h with origBytes := fill h.origBytes 0 h.length.toNat (window m h.jmp) }

theorem Hook.length_le (h : Hook) : h.length.toNat ≤ 2 ^ 64 := Nat.le_of_lt h.length.isLt

theorem Hook.write_of_covers {h : Hook} {m : Word → Byte} {x : Word} (hx : h.Covers x) :
    h.write m x = h.code (dist h.jmp x) :=
  patch_of_inRange hx

theorem Hook.write_of_not_covers {h : Hook} {m : Word → Byte} {x : Word} (hx : ¬ h.Covers x) :
    h.write m x = m x :=
  patch_of_not_inRange hx

/-- Taking a hook down gives back the memory that it was saved from. -/
theorem Hook.undo_write {h : Hook} {m : Word → Byte} (hs : h.Saved m) : h.undo (h.write m) = m := by
  rw [Hook.undo, Hook.write, patch_patch_same, patch_eq_self hs]

theorem Hook.save_saved (h : Hook) (m : Word → Byte) : (h.save m).Saved m :=
  fun _ hi => fill_of_lt hi

/-- The backup is also one of a memory that has the same bytes under the hook. -/
theorem Hook.Saved.congr {h : Hook} {m m' : Word → Byte} (hs : h.Saved m)
    (heq : ∀ x, h.Covers x → m' x = m x) : h.Saved m' :=
  fun i hi => (hs i hi).trans (heq _ (inRange_add hi h.length_le)).symm

/-- Writing another hook that is apart does not change what is under this one. -/
theorem Hook.write_of_apart {h h' : Hook} {m : Word → Byte} (hapart : h'.Apart h) {x : Word}
    (hx : h.Covers x) : h'.write m x = m x :=
  h'.write_of_not_covers fun hx' => hapart x hx' hx

theorem Hook.Saved.write {h h' : Hook} {m : Word → Byte} (hs : h.Saved m) (hapart : h'.Apart h) :
    h.Saved (h'.write m) :=
  hs.congr fun _ hx => Hook.write_of_apart hapart hx

theorem Hook.Saved.of_write {h h' : Hook} {m : Word → Byte} (hs : h.Saved (h'.write m))
    (hapart : h'.Apart h) : h.Saved m :=
  hs.congr fun _ hx => (Hook.write_of_apart hapart hx).symm

/-! ## Memory accesses of the engine -/

/-- Every one of the `n` bytes at `a`, and the byte after them, can be read, and its page
protected. -/
def Kernel.Protects (k : Kernel) (m : Space) (a : Word) (n : Nat) : Prop :=
  ∀ i, i ≤ n → k.Reads m a i

theorem Kernel.Protects.mono {k : Kernel} {m m' : Space} {a : Word} {n : Nat}
    (h : k.Protects m a n) (hm : m.Opened m') : k.Protects m' a n :=
  fun i hi => ⟨hm.loads (h i hi).1, (h i hi).2⟩

theorem between_protects {lo hi a : Word} {p : Prot} {byte : Word → Byte} {n : Nat}
    (hlo : pageOfft lo = 0) (hle : lo ≤ a) (hp : (Kernel.between lo hi).loads (some p) = true)
    (hlt : a.toNat + n < hi.toNat) :
    (Kernel.between lo hi).Protects ⟨byte, mappedBetween lo hi p⟩ a n :=
  fun _ hi => between_reads hlo hle hp (by omega)

/-- A part of the range. -/
theorem Kernel.Protects.part {k : Kernel} {m : Space} {a : Word} {n j c : Nat}
    (h : k.Protects m a n) (hle : j + c ≤ n) : k.Protects m (a + BitVec.ofNat 64 j) c := by
  intro i hi
  have hsum := h (j + i) (by omega)
  rw [Kernel.Reads, Kernel.Loads, Kernel.Opens, BitVec.ofNat_add, ← BitVec.add_assoc] at hsum
  exact hsum

/-- The hook is one that `mem_write` can write: its bytes can be written, its pages and that
of the byte after it can be protected, and its length is a positive `int`. -/
structure Hook.Writable (k : Kernel) (m : Space) (h : Hook) : Prop where
  stores : ∀ i, i < h.length.toNat → m.Stores h.jmp i
  opens : ∀ i, i ≤ h.length.toNat → k.Opens h.jmp i
  short : h.length.toNat < 2 ^ 31

theorem Hook.Writable.mono {k : Kernel} {m m' : Space} {h : Hook} (hw : h.Writable k m)
    (hm : m.Opened m') : h.Writable k m' :=
  ⟨fun i hi => hm.stores (hw.stores i hi), hw.opens, hw.short⟩

section Access

variable {k : Kernel}

/-- The pages of `n` bytes at `a` have been opened, and nothing else has changed. -/
def Space.openAt (m : Space) (a : Word) (n : Nat) : Space := ⟨m.byte, allowProt m.prot a n⟩

@[simp] theorem Space.openAt_byte (m : Space) (a : Word) (n : Nat) :
    (m.openAt a n).byte = m.byte := rfl

theorem Space.opened_openAt (m : Space) (a : Word) (n : Nat) : m.Opened (m.openAt a n) :=
  opened_allowProt m a n m.byte

/-- What has been opened can be written. -/
theorem Space.stores_openAt (m : Space) (a : Word) {n i : Nat} (hi : i < n) :
    (m.openAt a n).Stores a i := by
  have hpage : (m.openAt a n).prot (pageAlign (a + BitVec.ofNat 64 i)) = some ⟨true, true, true⟩ :=
    if_pos ⟨i, hi, rfl⟩
  rw [Space.Stores, hpage]
  rfl

theorem readMem_spec {src size : Word} (e : Engine) (buf : Nat → Byte) (hpos : 0 < size.toNat)
    (hok : k.Protects e.space src size.toNat) :
    ∃ r : Int, 0 < r ∧ readMem k buf src size e =
      .ok (r, fill buf 0 size.toNat (window e.space.byte src))
        { e with space := e.space.openAt src size.toNat } := by
  obtain ⟨r, hr, -, hread⟩ :=
    memRead_spec ⟨buf, e.space⟩ hpos (fun i hi => hok i (Nat.le_of_lt hi))
  refine ⟨r, hr, ?_⟩
  rw [readMem, hread]
  rfl

/-- `mem_write` of as many bytes as the hook has, at its place. -/
theorem writeMem_spec {h : Hook} (e : Engine) (buf : Nat → Byte) (hok : h.Writable k e.space) :
    ∃ space' : Space, space'.byte = patch e.space.byte h.jmp 0 h.length.toNat buf ∧
      e.space.Opened space' ∧
      writeMem k h.jmp buf h.length e = .ok h.length.toNat { e with space := space' } := by
  have hwrite := memWrite_spec e.space buf hok.short hok.stores hok.opens
  refine ⟨⟨patch e.space.byte h.jmp 0 h.length.toNat buf,
    allowProt e.space.prot h.jmp (h.length.toNat + 1)⟩, rfl, opened_allowProt _ _ _ _, ?_⟩
  rw [writeMem, hwrite]

/-- `insn_len` only looks, whatever it finds. -/
theorem insnLen_spec {target : Word} (cs : Capstone) (e : Engine)
    (hok : k.Protects e.space target 16) :
    ∃ (len : Int) (trace' : List Event), insnLen k cs target e =
      .ok len { e with space := e.space.openAt target 16, trace := trace' } := by
  obtain ⟨r, hr, hread⟩ := readMem_spec e (fun _ => 0)
    (show 0 < INSTRUCTION_MAX_SZ.toNat by decide) hok
  have hne : r ≠ -1 := by omega
  rw [insnLen]
  simp only [isMappedRange_eq_true, Bool.not_true, Bool.false_eq_true, if_false]
  rw [bind_of_ok hread]
  simp only [if_neg hne]
  cases cs.disasm target _ with
  | some i => exact ⟨_, e.trace, rfl⟩
  | none => exact ⟨_, _, rfl⟩

/-- `eval_target` decodes the memory at the address. -/
theorem evalTarget_eq (cs : Capstone) (e : Engine) {a : Word} (hok : k.Protects e.space a 16) :
    evalTarget k cs a e =
      match cs.decodeAt e.space.byte a with
      | none => .error .crash { e with space := e.space.openAt a 16 }
      | some i => evalTargetInsn k (i.atAddr 0) a { e with space := e.space.openAt a 16 } := by
  obtain ⟨r, hr, hread⟩ := readMem_spec e (fun _ => 0)
    (show 0 < INSTRUCTION_MAX_SZ.toNat by decide) hok
  have hne : r ≠ -1 := by omega
  have hbuf : (List.range 16).map
      (fill (fun _ => 0) 0 INSTRUCTION_MAX_SZ.toNat (window e.space.byte a)) =
      bytesAt e.space.byte a 16 := by
    apply List.map_congr_left
    intro j hj
    exact fill_of_lt (List.mem_range.mp hj)
  rw [evalTarget, bind_of_ok hread]
  simp only [if_neg hne, hbuf, Capstone.disasm,
    cs.decode_bytesAt_of_le e.space.byte a (show 15 ≤ 16 by decide)]
  cases cs.decodeAt e.space.byte a <;> rfl

/-- `eval_target` evaluates the instruction that the memory has at the address. -/
theorem evalTarget_spec {cs : Capstone} {e : Engine} {a : Word} {i : Insn}
    (hi : cs.decodeAt e.space.byte a = some i) (hok : k.Protects e.space a 16) :
    evalTarget k cs a e =
      evalTargetInsn k (i.atAddr 0) a { e with space := e.space.openAt a 16 } := by
  rw [evalTarget_eq cs e hok, hi]

/-- What `eval_target` does with an address whose page can be protected: it dies, or it
evaluates the instruction that the memory has there. -/
theorem evalTarget_of_opens (cs : Capstone) (e : Engine) {a : Word} (hopen : k.Opens a 0) :
    ∃ space' : Space, space'.byte = e.space.byte ∧ e.space.Opened space' ∧
      (evalTarget k cs a e = .error .crash { e with space := space' } ∨
        ∃ i, cs.decodeAt e.space.byte a = some i ∧
          evalTarget k cs a e = evalTargetInsn k (i.atAddr 0) a { e with space := space' }) := by
  obtain ⟨s', hbyte, hopened, hread⟩ := memRead_of_opens k ⟨fun _ => 0, e.space⟩
    (show 0 < INSTRUCTION_MAX_SZ.toNat by decide) (by decide) hopen
  refine ⟨s'.space, hbyte, hopened, ?_⟩
  rcases hread with hread | ⟨r, hne, hread, hbuf⟩
  · left
    have hcrash : readMem k (fun _ => 0) a INSTRUCTION_MAX_SZ e =
        .error .crash { e with space := s'.space } := by rw [readMem, hread]
    rw [evalTarget, bind_of_error hcrash]
  · have hbytes : (List.range 16).map s'.buf = bytesAt e.space.byte a 16 := by
      apply List.map_congr_left
      intro j hj
      exact hbuf j (List.mem_range.mp hj)
    have hok : readMem k (fun _ => 0) a INSTRUCTION_MAX_SZ e =
        .ok (r, s'.buf) { e with space := s'.space } := by rw [readMem, hread]
    rw [evalTarget, bind_of_ok hok]
    simp only [if_neg hne, hbytes, Capstone.disasm,
      cs.decode_bytesAt_of_le e.space.byte a (show 15 ≤ 16 by decide)]
    cases hi : cs.decodeAt e.space.byte a with
    | none => exact Or.inl rfl
    | some i => exact Or.inr ⟨i, rfl, rfl⟩

end Access

/-! ## Putting one hook up, and taking one down -/

section OneHook

variable {k : Kernel} (e : Engine) (which : Which)

/-- Every page counts as mapped, so `write_hook` maps none. -/
theorem mapHook_eq : mapHook k which e = .ok () e := rfl

/-- `write_hook` saves the bytes under the hook and writes its code.  It reads before it
writes, so the hook can be written again afterwards whatever the pages allowed. -/
theorem writeHook_spec (hpos : 0 < (e.hook which).length.toNat)
    (hshort : (e.hook which).length.toNat < 2 ^ 31)
    (hok : k.Protects e.space (e.hook which).jmp (e.hook which).length.toNat) :
    ∃ space' : Space, space'.byte = (e.hook which).write e.space.byte ∧
      e.space.Opened space' ∧ (e.hook which).Writable k space' ∧
      writeHook k which e =
        .ok 0 ({ e with space := space' }.setHook which ((e.hook which).save e.space.byte)) := by
  obtain ⟨r, hr, hread⟩ := readMem_spec e (e.hook which).origBytes hpos hok
  have hopened := e.space.opened_openAt (e.hook which).jmp (e.hook which).length.toNat
  have hwritable : (e.hook which).Writable k
      (e.space.openAt (e.hook which).jmp (e.hook which).length.toNat) :=
    ⟨fun i hi => e.space.stores_openAt _ hi, fun i hi => (hok i hi).2, hshort⟩
  generalize hspace : e.space.openAt (e.hook which).jmp (e.hook which).length.toNat = space₁
    at hread hopened hwritable
  have hbyte₁ : space₁.byte = e.space.byte := by rw [← hspace, Space.openAt_byte]
  have hspace₁ : ({ e with space := space₁ }.setHook which
      ((e.hook which).save e.space.byte)).space = space₁ := by
    cases which <;> rfl
  obtain ⟨space₂, hbyte₂, hopened₂, hwrite⟩ := writeMem_spec (h := e.hook which)
    ({ e with space := space₁ }.setHook which ((e.hook which).save e.space.byte))
    (e.hook which).code (by rw [hspace₁]; exact hwritable)
  rw [hspace₁] at hbyte₂ hopened₂
  have hne : r ≠ -1 := by omega
  have hret : ((e.hook which).length.toNat : Int) ≠ -1 := by omega
  refine ⟨space₂, ?_, hopened.trans hopened₂, hwritable.mono hopened₂, ?_⟩
  · rw [hbyte₂, Hook.write, hbyte₁]
  · rw [writeHook, bind_of_ok (mapHook_eq e which), bind_of_ok (get_apply e), bind_of_ok hread]
    simp only
    rw [bind_of_ok (modify_apply _ _)]
    simp only [if_neg hne]
    rw [Hook.save] at hwrite ⊢
    rw [bind_of_ok hwrite]
    simp only [if_neg hret]
    cases which <;> rfl

/-- A `write_hook` that ends has kept the places of the hooks, and has protected the page of
its own. -/
theorem writeHook_place {ret : Int} {e' : Engine} (run : writeHook k which e = .ok ret e') :
    (e'.hook which).jmp = (e.hook which).jmp ∧
      (e'.hook which).length = (e.hook which).length ∧ k.Opens (e.hook which).jmp 0 ∧
      e'.currHook = e.currHook ∧ ∀ other, other ≠ which → e'.hook other = e.hook other := by
  rw [writeHook, bind_of_ok (mapHook_eq e which), bind_of_ok (get_apply e)] at run
  obtain ⟨⟨r, buf⟩, e₁, hread, run⟩ := exists_of_bind_ok run
  simp only at run
  rw [bind_of_ok (modify_apply _ e₁)] at run
  split at run
  · cases run
  obtain ⟨w, e₂, hwrite, run⟩ := exists_of_bind_ok run
  split at run
  · cases run
  rename_i hne
  cases run
  rw [readMem] at hread
  split at hread
  · cases hread
  rw [writeMem] at hwrite
  split at hwrite
  · cases hwrite
  rename_i hmem
  cases hread
  cases hwrite
  refine ⟨?_, ?_, memWrite_opens hmem hne, ?_, fun other hother => ?_⟩
  · cases which <;> rfl
  · cases which <;> rfl
  · cases which <;> rfl
  · cases which <;> cases other <;> first | rfl | exact absurd rfl hother

/-- A hook with no page to unmap is taken down by writing its backup. -/
theorem takeDown_spec (hunmap : (e.hook which).toUnmap = 0)
    (hok : (e.hook which).Writable k e.space) :
    ∃ space' : Space, space'.byte = (e.hook which).undo e.space.byte ∧
      e.space.Opened space' ∧ takeDown k which e = .ok () { e with space := space' } := by
  obtain ⟨space', hbyte, hopened, hwrite⟩ := writeMem_spec e (e.hook which).origBytes hok
  have hret : ((e.hook which).length.toNat : Int) ≠ -1 := by omega
  have hbytes : restoreBytes k which e = .ok () { e with space := space' } := by
    rw [restoreBytes, bind_of_ok (get_apply e)]
    simp only [isMapped_eq_true, Bool.not_true, Bool.false_eq_true, if_false]
    rw [bind_of_ok hwrite, if_neg hret]
    rfl
  have hsame : (({ e with space := space' } : Engine).hook which).toUnmap = 0 := by
    cases which <;> exact hunmap
  refine ⟨space', hbyte, hopened, ?_⟩
  rw [takeDown, bind_of_ok hbytes, bind_of_ok (get_apply _)]
  simp only [hsame, ne_eq, not_true_eq_false, if_false]
  rw [modify_apply]
  -- Clearing a field that is already zero is no change.
  cases which with
  | dump =>
    have hd : ({ e.dump with toUnmap := 0 } : Hook) = e.dump := by rw [← hunmap]; rfl
    exact congrArg (fun h => EStateM.Result.ok () { e with space := space', dump := h }) hd
  | restore =>
    have hr : ({ e.restore with toUnmap := 0 } : Hook) = e.restore := by rw [← hunmap]; rfl
    exact congrArg (fun h => EStateM.Result.ok () { e with space := space', restore := h }) hr

end OneHook

/-! ## Both hooks -/

/-- Both hooks are up over the clean memory `m`, and can be taken down. -/
structure HooksUp (k : Kernel) (e : Engine) (m : Word → Byte) : Prop where
  bytes : e.space.byte = e.restore.write (e.dump.write m)
  dumpSaved : e.dump.Saved m
  restoreSaved : e.restore.Saved m
  apart : e.dump.Apart e.restore
  currHook : e.currHook = e.dump.jmp
  placed : e.restore.jmp ≠ 0
  dumpUnmap : e.dump.toUnmap = 0
  restoreUnmap : e.restore.toUnmap = 0
  dumpPages : e.dump.Writable k e.space
  insnPages : k.Protects e.space e.dump.jmp 16
  restorePages : e.restore.Writable k e.space

/-- The memory with both hooks of the engine. -/
def Engine.patched (e : Engine) (m : Word → Byte) : Word → Byte := e.restore.write (e.dump.write m)

/-- The address is under one of the hooks. -/
def Engine.Covers (e : Engine) (x : Word) : Prop := e.dump.Covers x ∨ e.restore.Covers x

/-- The hooks stay up while the clean memory changes elsewhere. -/
theorem HooksUp.of_agree {k : Kernel} {e e' : Engine} {m m' : Word → Byte} (h : HooksUp k e m)
    (hdump : e'.dump = e.dump) (hrestore : e'.restore = e.restore)
    (hcurr : e'.currHook = e.currHook) (hbyte : e'.space.byte = e.patched m')
    (hopened : e.space.Opened e'.space) (hagree : ∀ x, e.Covers x → m' x = m x) :
    HooksUp k e' m' := by
  constructor
  · rw [hbyte, hdump, hrestore]
    rfl
  · rw [hdump]
    exact h.dumpSaved.congr fun x hx => hagree x (Or.inl hx)
  · rw [hrestore]
    exact h.restoreSaved.congr fun x hx => hagree x (Or.inr hx)
  · rw [hdump, hrestore]
    exact h.apart
  · rw [hcurr, hdump]
    exact h.currHook
  · rw [hrestore]
    exact h.placed
  · rw [hdump]
    exact h.dumpUnmap
  · rw [hrestore]
    exact h.restoreUnmap
  · rw [hdump]
    exact h.dumpPages.mono hopened
  · rw [hdump]
    exact h.insnPages.mono hopened
  · rw [hrestore]
    exact h.restorePages.mono hopened

/-- The hooks of `e'` are those of `e`, around the block at `base` whose last
instruction is at offset `off`. -/
structure Around (e e' : Engine) (base : Word) (off : Int) : Prop where
  dumpJmp : e'.dump.jmp = base + BitVec.ofInt 64 off
  dumpCode : e'.dump.code = e.dump.code
  dumpLength : e'.dump.length = e.dump.length
  restoreJmp : e'.restore.jmp = base - e.restore.length
  restoreCode : e'.restore.code = e.restore.code
  restoreLength : e'.restore.length = e.restore.length

/-- Moving the hooks a second time forgets where they were. -/
theorem Around.trans {e e₁ e₂ : Engine} {base base' : Word} {off off' : Int}
    (h : Around e e₁ base off) (h' : Around e₁ e₂ base' off') : Around e e₂ base' off' :=
  ⟨h'.dumpJmp, h'.dumpCode.trans h.dumpCode, h'.dumpLength.trans h.dumpLength,
    h'.restoreJmp.trans (by rw [h.restoreLength]), h'.restoreCode.trans h.restoreCode,
    h'.restoreLength.trans h.restoreLength⟩

/-- Only the hooks of the two states matter. -/
theorem Around.congr {e e' e₁ e₁' : Engine} {base : Word} {off : Int} (h : Around e e' base off)
    (hdump : e.dump = e₁.dump) (hrestore : e.restore = e₁.restore) (hdump' : e₁'.dump = e'.dump)
    (hrestore' : e₁'.restore = e'.restore) : Around e₁ e₁' base off := by
  constructor
  · rw [hdump', h.dumpJmp]
  · rw [hdump', h.dumpCode, hdump]
  · rw [hdump', h.dumpLength, hdump]
  · rw [hrestore', h.restoreJmp, hrestore]
  · rw [hrestore', h.restoreCode, hrestore]
  · rw [hrestore', h.restoreLength, hrestore]

/-- What moving the hooks leaves alone: the registers, the bases, and what was
asked of the kernel. -/
def Engine.kept (e : Engine) :
    StateRtime × Bool × (Word × Word) × (Word × Word) × (Word × Word) × Word × List Request :=
  (e.state, e.takeCallback, (e.hostFs, e.hostGs), (e.instrumentedFs, e.instrumentedGs),
    (e.fs, e.gs), e.vbrk, e.requests)

/-- Taking both hooks down gives the clean memory back and changes nothing else. -/
theorem HooksUp.takeDownHooks {k : Kernel} {e : Engine} {m : Word → Byte} (h : HooksUp k e m) :
    ∃ space' : Space, space'.byte = m ∧ e.space.Opened space' ∧
      takeDownHooks k e = .ok () { e with space := space' } := by
  obtain ⟨space₁, hbyte₁, hopened₁, hrestore⟩ :=
    takeDown_spec e .restore h.restoreUnmap h.restorePages
  obtain ⟨space₂, hbyte₂, hopened₂, hdump⟩ :=
    takeDown_spec { e with space := space₁ } .dump h.dumpUnmap (h.dumpPages.mono hopened₁)
  refine ⟨space₂, ?_, hopened₁.trans hopened₂, ?_⟩
  · calc space₂.byte
        = e.dump.undo space₁.byte := hbyte₂
      _ = e.dump.undo (e.restore.undo (e.restore.write (e.dump.write m))) := by
          rw [hbyte₁, h.bytes]
          rfl
      _ = e.dump.undo (e.dump.write m) := by
          rw [Hook.undo_write (h.restoreSaved.write h.apart)]
      _ = m := Hook.undo_write h.dumpSaved
  · rw [Dryadalis.takeDownHooks, bind_of_ok (get_apply e), if_pos h.placed, bind_of_ok hrestore]
    exact hdump

/-- The rest of a move of the hooks, after they have been taken down. -/
theorem HooksUp.moveHooks {k : Kernel} {e : Engine} {m : Word → Byte} (h : HooksUp k e m)
    (cs : Capstone) (getBase : Eng Word) (scan : Word → Eng Int) :
    ∃ space' : Space, space'.byte = m ∧ e.space.Opened space' ∧
      moveHooks k cs getBase scan e =
        (getBase >>= instrumentAt k cs scan) { e with space := space' } := by
  obtain ⟨space', hbyte, hopened, hdown⟩ := h.takeDownHooks
  refine ⟨space', hbyte, hopened, ?_⟩
  rw [Dryadalis.moveHooks, bind_of_ok hdown]

/-- Nothing is mapped for a hook that is down, and the lengths of the hooks are positive
`int`s. -/
structure HooksDown (e : Engine) : Prop where
  dumpPos : 0 < e.dump.length.toNat
  dumpShort : e.dump.length.toNat < 2 ^ 31
  restorePos : 0 < e.restore.length.toNat
  restoreShort : e.restore.length.toNat < 2 ^ 31
  dumpUnmap : e.dump.toUnmap = 0
  restoreUnmap : e.restore.toUnmap = 0

/-- The scan of the block at `base` ends at offset `off`, with `flag` left in
`curr_syscall`. -/
def ScansTo (scan : Word → Eng Int) (base : Word) (e : Engine) (off : Int) (flag : Bool) : Prop :=
  ∃ space' : Space, space'.byte = e.space.byte ∧ e.space.Opened space' ∧
    scan base e = .ok off { e with space := space', currSyscall := flag }

/-- The pages that `instrument_request` works on, for hooks of the given lengths. -/
structure Kernel.ProtectsBlock (k : Kernel) (m : Space) (dump restore base : Word) (off : Int) :
    Prop where
  dump : k.Protects m (base + BitVec.ofInt 64 off) dump.toNat
  insn : k.Protects m (base + BitVec.ofInt 64 off) 16
  restore : k.Protects m (base - restore) restore.toNat

theorem Kernel.ProtectsBlock.mono {k : Kernel} {m m' : Space} {dump restore base : Word}
    {off : Int} (h : k.ProtectsBlock m dump restore base off) (hm : m.Opened m') :
    k.ProtectsBlock m' dump restore base off :=
  ⟨h.dump.mono hm, h.insn.mono hm, h.restore.mono hm⟩

/-- The bytes that the engine works on around a block whose last instruction is at offset
`d`: from the restore hook in front of the block to the end of the buffer that starts with
that instruction. -/
def Kernel.ProtectsAround (k : Kernel) (m : Space) (restore base : Word) (d : Nat) : Prop :=
  k.Protects m (base - restore) (restore.toNat + d + 4096)

namespace Kernel.ProtectsAround

variable {k : Kernel} {m : Space} {dump restore base : Word} {d : Nat}

theorem mono {m' : Space} (h : k.ProtectsAround m restore base d) (hm : m.Opened m') :
    k.ProtectsAround m' restore base d :=
  Kernel.Protects.mono h hm

theorem sub_add_ofNat (base restore : Word) (d : Nat) :
    base - restore + BitVec.ofNat 64 (restore.toNat + d) = base + BitVec.ofNat 64 d := by
  rw [BitVec.ofNat_add, BitVec.ofNat_toNat, BitVec.setWidth_eq, ← BitVec.add_assoc,
    BitVec.sub_add_cancel]

/-- The pages of the scan. -/
theorem scan (h : k.ProtectsAround m restore base d) : k.Protects m base (d + 4096) := by
  have hpart := Kernel.Protects.part h (j := restore.toNat + 0) (c := d + 4096) (by omega)
  rw [sub_add_ofNat] at hpart
  simpa using hpart

/-- The pages of the hooks. -/
theorem block (h : k.ProtectsAround m restore base d) (hdump : dump.toNat ≤ 64) :
    k.ProtectsBlock m dump restore base d := by
  have hend : ∀ n, n ≤ 64 → k.Protects m (base + BitVec.ofInt 64 d) n := by
    intro n hn
    have hpart := Kernel.Protects.part h (j := restore.toNat + d) (c := n) (by omega)
    rw [sub_add_ofNat] at hpart
    exact hpart
  have hstart := Kernel.Protects.part h (j := 0) (c := restore.toNat) (by omega)
  exact ⟨hend _ hdump, hend _ (by decide), by simpa using hstart⟩

end Kernel.ProtectsAround

/-- A block in the mapped part of an address space. -/
theorem between_protectsAround {lo hi restore base : Word} {p : Prot} {byte : Word → Byte}
    {d : Nat} (hlo : pageOfft lo = 0) (hle : lo ≤ base - restore)
    (hp : (Kernel.between lo hi).loads (some p) = true)
    (hlt : (base - restore).toNat + (restore.toNat + d + 4096) < hi.toNat) :
    (Kernel.between lo hi).ProtectsAround ⟨byte, mappedBetween lo hi p⟩ restore base d :=
  between_protects hlo hle hp hlt

/-- A block in the code. -/
theorem code_protectsAround {restore base : Word} {byte : Word → Byte} {d : Nat}
    (hle : 0x400000 ≤ base - restore)
    (hlt : (base - restore).toNat + (restore.toNat + d + 4096) < 0x500000) :
    Kernel.code.ProtectsAround (codeSpace byte) restore base d :=
  between_protectsAround rfl hle rfl hlt

section Both

variable {k : Kernel} {e : Engine} {scan : Word → Eng Int} {base : Word} {off : Int}
  {flag : Bool} (cs : Capstone)

/-- `_instrument_bbl` puts the dump hook up at the end of the block. -/
theorem instrumentBbl_spec (hdown : HooksDown e)
    (hscan : ScansTo scan base e off flag) (hoff : off ≠ -1)
    (hok : k.ProtectsBlock e.space e.dump.length e.restore.length base off) :
    ∃ e', instrumentBbl k cs scan base e = .ok (BitVec.ofInt 64 off) e' ∧
      e'.kept = e.kept ∧ e'.currSyscall = flag ∧ e'.restore = e.restore ∧
      e'.dump = ({ e.dump with jmp := base + BitVec.ofInt 64 off } : Hook).save e.space.byte ∧
      e'.space.byte = e'.dump.write e.space.byte ∧ e.space.Opened e'.space ∧
      e'.dump.Writable k e'.space := by
  obtain ⟨space₁, hbyte₁, hopened₁, hrun⟩ := hscan
  obtain ⟨len, trace₂, hlen⟩ := insnLen_spec cs
    { e with
      space := space₁, currSyscall := flag
      dump := { e.dump with jmp := base + BitVec.ofInt 64 off } } (hok.insn.mono hopened₁)
  have hopened₂ := hopened₁.trans (space₁.opened_openAt (base + BitVec.ofInt 64 off) 16)
  have hbyte₂ : (space₁.openAt (base + BitVec.ofInt 64 off) 16).byte = e.space.byte := hbyte₁
  generalize space₁.openAt (base + BitVec.ofInt 64 off) 16 = space₂ at hlen hopened₂ hbyte₂
  obtain ⟨space₃, hbyte₃, hopened₃, hwritable, hwrite⟩ := writeHook_spec
    { e with
      space := space₂, trace := trace₂, currSyscall := flag, lengthCflow := len
      dump := { e.dump with jmp := base + BitVec.ofInt 64 off } } .dump hdown.dumpPos
    hdown.dumpShort (hok.dump.mono hopened₂)
  have hbbl : instrumentBbl k cs scan base e = .ok (BitVec.ofInt 64 off)
      { e with
        space := space₃, trace := trace₂, currSyscall := flag, lengthCflow := len
        dump := ({ e.dump with jmp := base + BitVec.ofInt 64 off } : Hook).save space₂.byte } := by
    rw [instrumentBbl, bind_of_ok hrun]
    simp only [if_neg hoff]
    rw [bind_of_ok (modify_apply _ _), bind_of_ok hlen, bind_of_ok (modify_apply _ _),
      bind_of_ok hwrite]
    simp only [ne_eq, not_true_eq_false, if_false]
    rfl
  refine ⟨_, hbbl, rfl, rfl, rfl, ?_, ?_, hopened₂.trans hopened₃,
    ⟨hwritable.stores, hwritable.opens, hwritable.short⟩⟩
  · rw [hbyte₂]
  · rw [← hbyte₂]
    exact hbyte₃

/-- The second half of `instrument_request`, from the state that `_instrument_bbl` has
left: the restore hook is put in front of the block. -/
theorem instrumentRequest_of_bbl {e₁ : Engine} {r : Word}
    (hbbl : instrumentBbl k cs scan base e = .ok r e₁) (hpos : 0 < e₁.restore.length.toNat)
    (hshort : e₁.restore.length.toNat < 2 ^ 31)
    (hok : k.Protects e₁.space (base - e₁.restore.length) e₁.restore.length.toNat) :
    ∃ space' : Space,
      space'.byte = ({ e₁.restore with jmp := base - e₁.restore.length } : Hook).write
        e₁.space.byte ∧
      e₁.space.Opened space' ∧
      ({ e₁.restore with jmp := base - e₁.restore.length } : Hook).Writable k space' ∧
      instrumentRequest k cs scan base e = .ok 0
        { e₁ with
          space := space'
          restore := ({ e₁.restore with jmp := base - e₁.restore.length } : Hook).save e₁.space.byte
          currHook := e₁.dump.jmp } := by
  obtain ⟨space', hbyte, hopened, hwritable, hwrite⟩ := writeHook_spec
    { e₁ with
      restore := { e₁.restore with jmp := base - e₁.restore.length }
      currHook := e₁.dump.jmp } .restore hpos hshort hok
  refine ⟨space', hbyte, hopened, hwritable, ?_⟩
  rw [instrumentRequest, bind_of_ok hbbl, bind_of_ok (modify_apply _ _),
    bind_of_ok (modify_apply _ _)]
  rw [bind_of_ok hwrite]
  rfl

/-- The dump hook, and the address that `curr_hook` gets, after an `_instrument_bbl` that
ends. -/
theorem instrumentBbl_place {r : Word} {e' : Engine}
    (run : instrumentBbl k cs scan base e = .ok r e') :
    ∃ off e₁, scan base e = .ok off e₁ ∧ off ≠ -1 ∧ e'.dump.jmp = base + BitVec.ofInt 64 off ∧
      k.Opens e'.dump.jmp 0 := by
  obtain ⟨off, e₁, hscan, run⟩ := exists_of_bind_ok run
  simp only at run
  split at run
  · cases run
  rename_i hoff
  rw [bind_of_ok (modify_apply _ e₁)] at run
  obtain ⟨len, e₂, hlen, run⟩ := exists_of_bind_ok run
  rw [bind_of_ok (modify_apply _ e₂)] at run
  obtain ⟨w, e₃, hwrite, run⟩ := exists_of_bind_ok run
  split at run
  · cases run
  cases run
  have hblind : LookBlind fun e => e.dump := ⟨fun _ _ => rfl, fun _ => rfl, fun _ => rfl⟩
  have hkept : e₂.dump = { e₁.dump with jmp := base + BitVec.ofInt 64 off } :=
    (hblind.insnLen _).of_ok hlen
  obtain ⟨hjmp, -, hopen, -⟩ := writeHook_place _ _ hwrite
  have hplace : e₂.dump.jmp = base + BitVec.ofInt 64 off := by rw [hkept]
  refine ⟨off, e₁, hscan, hoff, hjmp.trans hplace, ?_⟩
  rw [show e'.dump.jmp = e₂.dump.jmp from hjmp]
  exact hopen

/-- Where an `instrument_request` that ends has put the dump hook. -/
theorem instrumentRequest_place {ret : Int} {e' : Engine}
    (run : instrumentRequest k cs scan base e = .ok ret e') :
    ∃ off e₁, scan base e = .ok off e₁ ∧ off ≠ -1 ∧ e'.dump.jmp = base + BitVec.ofInt 64 off ∧
      e'.currHook = e'.dump.jmp ∧ k.Opens e'.currHook 0 := by
  obtain ⟨r, e₁, hbbl, run⟩ := exists_of_bind_ok run
  obtain ⟨off, e₂, hscan, hoff, hjmp, hopen⟩ := instrumentBbl_place cs hbbl
  rw [bind_of_ok (modify_apply _ e₁), bind_of_ok (modify_apply _ _)] at run
  obtain ⟨w, e₃, hrestore, run⟩ := exists_of_bind_ok run
  split at run
  · cases run
  cases run
  obtain ⟨-, -, -, hcurr, hother⟩ := writeHook_place _ _ hrestore
  have hdump : e'.dump = e₁.dump := hother .dump (by decide)
  have hcurr' : e'.currHook = e₁.dump.jmp := hcurr
  refine ⟨off, e₂, hscan, hoff, ?_, ?_, ?_⟩
  · rw [hdump, hjmp]
  · rw [hdump, hcurr']
  · rw [hcurr']
    exact hopen

/-- `instrument_request` puts both hooks up, when their ranges do not meet. -/
theorem instrumentRequest_spec (hdown : HooksDown e) (hscan : ScansTo scan base e off flag)
    (hoff : off ≠ -1) (hok : k.ProtectsBlock e.space e.dump.length e.restore.length base off)
    (hplaced : base - e.restore.length ≠ 0)
    (hapart : Disjoint (base + BitVec.ofInt 64 off) e.dump.length.toNat
      (base - e.restore.length) e.restore.length.toNat) :
    ∃ e', instrumentRequest k cs scan base e = .ok 0 e' ∧ HooksUp k e' e.space.byte ∧
      Around e e' base off ∧ e'.kept = e.kept ∧ e'.currSyscall = flag ∧
      e.space.Opened e'.space := by
  obtain ⟨e₁, hbbl, hkept, hflag, hrestore, hdump, hbyte, hopened, hdumpPages⟩ :=
    instrumentBbl_spec cs hdown hscan hoff hok
  have hlength : e₁.restore.length = e.restore.length := by rw [hrestore]
  obtain ⟨space₂, hbyte₂, hopened₂, hrestorePages, hrequest⟩ := instrumentRequest_of_bbl cs hbbl
    (show 0 < e₁.restore.length.toNat by rw [hlength]; exact hdown.restorePos)
    (show e₁.restore.length.toNat < 2 ^ 31 by rw [hlength]; exact hdown.restoreShort)
    (show k.Protects e₁.space (base - e₁.restore.length) e₁.restore.length.toNat by
      rw [hlength]; exact hok.restore.mono hopened)
  have hdumpLength : e₁.dump.length = e.dump.length := by rw [hdump]; rfl
  have hdumpJmp : e₁.dump.jmp = base + BitVec.ofInt 64 off := by rw [hdump]; rfl
  have hapart' : e₁.dump.Apart
      (({ e₁.restore with jmp := base - e₁.restore.length } : Hook).save e₁.space.byte) := by
    rw [Hook.Apart, hdumpLength, hdumpJmp]
    show Disjoint _ _ (base - e₁.restore.length) e₁.restore.length.toNat
    rw [hlength]
    exact hapart
  refine ⟨_, hrequest, ⟨?_, ?_, ?_, hapart', rfl, ?_, ?_, ?_, hdumpPages.mono hopened₂, ?_,
    ⟨hrestorePages.stores, hrestorePages.opens, hrestorePages.short⟩⟩,
    ⟨hdumpJmp, ?_, hdumpLength, ?_, ?_, hlength⟩, hkept, hflag, hopened.trans hopened₂⟩
  · show space₂.byte = _
    rw [← hbyte]
    exact hbyte₂
  · show e₁.dump.Saved e.space.byte
    rw [hdump]
    exact Hook.save_saved _ _
  · -- The backup was made after the dump hook was written.
    have hsaved : (({ e₁.restore with jmp := base - e₁.restore.length } : Hook).save
        e₁.space.byte).Saved (e₁.dump.write e.space.byte) := by
      rw [← hbyte]
      exact Hook.save_saved _ _
    exact hsaved.of_write hapart'
  · show base - e₁.restore.length ≠ 0
    rw [hlength]
    exact hplaced
  · show e₁.dump.toUnmap = 0
    rw [hdump]
    exact hdown.dumpUnmap
  · show e₁.restore.toUnmap = 0
    rw [hrestore]
    exact hdown.restoreUnmap
  · show k.Protects space₂ e₁.dump.jmp 16
    rw [hdumpJmp]
    exact hok.insn.mono (hopened.trans hopened₂)
  · show e₁.dump.code = e.dump.code
    rw [hdump]
    rfl
  · show base - e₁.restore.length = _
    rw [hlength]
  · show e₁.restore.code = _
    rw [hrestore]

end Both

/-- The restore hook of a base above its length is not at address zero. -/
theorem sub_ne_zero_of_lt {base restore : Word} (h : restore < base) : base - restore ≠ 0 := by
  intro hzero
  rw [sub_eq_zero.mp hzero] at h
  exact BitVec.lt_irrefl _ h

/-- The hook in front of a block and the one over its last instruction do not meet. -/
theorem block_hooks_disjoint {base dump restore : Word} {off : Nat} (hoff : off < 2 ^ 31)
    (hdump : dump.toNat ≤ 64) (hrestore : restore.toNat ≤ 64) :
    Disjoint (base + BitVec.ofInt 64 off) dump.toNat (base - restore) restore.toNat := by
  have haddr : base + BitVec.ofInt 64 off =
      (base - restore) + BitVec.ofNat 64 (restore.toNat + off) := by
    rw [BitVec.ofInt_natCast, BitVec.ofNat_add, BitVec.ofNat_toNat, BitVec.setWidth_eq,
      ← BitVec.add_assoc, BitVec.sub_add_cancel]
  rw [haddr]
  exact (disjoint_above (by omega) (by omega)).symm

/-! ## The start and one dispatch -/

section Turns

variable {k : Kernel} {cs : Capstone} {e : Engine} {base : Word} {off : Int} {flag : Bool}

/-- The part of the engine that the hooks are about. -/
def Engine.hooking (e : Engine) : Space × Hook × Hook × Word :=
  (e.space, e.dump, e.restore, e.currHook)

/-- The registers, the bases and the trace do not matter for the hooks. -/
theorem HooksUp.of_hooking {e' : Engine} {m : Word → Byte} (h : HooksUp k e m)
    (heq : e'.hooking = e.hooking) : HooksUp k e' m := by
  simp only [Engine.hooking, Prod.mk.injEq] at heq
  obtain ⟨hspace, hdump, hrestore, hcurr⟩ := heq
  refine h.of_agree hdump hrestore hcurr ?_ ?_ fun _ _ => rfl
  · rw [hspace]
    exact h.bytes
  · rw [hspace]
    exact .refl _

/-- `opcodes_cflow` as the scan. -/
theorem scansTo_bmod {d : Nat} (hd : FirstCflow cs e.space.byte base e.currSyscall d)
    (hle : d ≤ 2 ^ 64) (hok : k.Protects e.space base (d + 4096)) :
    ScansTo (fun base => opcodesCflow k cs base true) base e ((d : Int).bmod (2 ^ 32)) false :=
  opcodesCflow_bmod hd hle (.of_pages hd fun i hi => hok i (Nat.le_of_lt hi))

theorem scansTo_of_reads {d : Nat} (hd : FirstCflow cs e.space.byte base e.currSyscall d)
    (hsmall : d < 2 ^ 31) (hreads : ScanReads k cs e.space base e.currSyscall) :
    ScansTo (fun base => opcodesCflow k cs base true) base e d false := by
  have hscan := opcodesCflow_bmod hd (by omega) hreads
  rw [Int.bmod_eq_of_le (by omega) (by omega)] at hscan
  exact hscan

theorem scansTo_of_firstCflow {d : Nat} (hd : FirstCflow cs e.space.byte base e.currSyscall d)
    (hsmall : d < 2 ^ 31) (hok : k.Protects e.space base (d + 4096)) :
    ScansTo (fun base => opcodesCflow k cs base true) base e d false :=
  scansTo_of_reads hd hsmall (.of_pages hd fun i hi => hok i (Nat.le_of_lt hi))

/-- `instrument` puts the hooks up around the first block. -/
theorem instrument_up (cs : Capstone) (base : Word) (off : Int) (hk : k.SetsBases)
    (hcache : e.instrumentedFs = 0) (hdown : HooksDown e)
    (hscan : ∀ e', e'.space = e.space → e'.currSyscall = e.currSyscall →
      ScansTo (fun base => opcodesCflow k cs base true) base e' off flag)
    (hoff : off ≠ -1) (hok : k.ProtectsBlock e.space e.dump.length e.restore.length base off)
    (hplaced : base - e.restore.length ≠ 0)
    (hapart : Disjoint (base + BitVec.ofInt 64 off) e.dump.length.toNat
      (base - e.restore.length) e.restore.length.toNat) :
    ∃ e', instrument k cs base e = .ok () e' ∧ HooksUp k e' e.space.byte ∧
      Around e e' base off ∧ e'.state = { e.state with rip := base } ∧ e'.currSyscall = flag ∧
      e.space.Opened e'.space := by
  obtain ⟨e₁, hrequest, hup, haround, hkept, hflag, hopened⟩ :=
    instrumentRequest_spec cs (e := { e with takeCallback := true })
      ⟨hdown.dumpPos, hdown.dumpShort, hdown.restorePos, hdown.restoreShort, hdown.dumpUnmap,
        hdown.restoreUnmap⟩
      (hscan _ rfl rfl) hoff hok hplaced hapart
  simp only [Engine.kept, Prod.mk.injEq] at hkept
  obtain ⟨hstate, -, -, ⟨hfs, -⟩, -⟩ := hkept
  have hleave := leaveHost_eq hk (e := { e₁ with state := { e₁.state with rip := base } })
    (hfs.trans hcache)
  refine ⟨{ e₁ with
    state := { e₁.state with rip := base }
    hostFs := e₁.fs
    hostGs := e₁.gs }, ?_, hup.of_hooking rfl, haround.congr rfl rfl rfl rfl, ?_, hflag, hopened⟩
  · rw [instrument, bind_of_ok (modify_apply _ e), bind_of_ok hrequest]
    simp only [show (0 : Int) ≠ -1 by decide, if_false]
    rw [bind_of_ok (modify_apply _ e₁)]
    exact hleave
  · show ({ e₁.state with rip := base } : StateRtime) = _
    rw [hstate]

/-- `instrumentAt` puts the hooks up around the next block, and makes the guest go on
in the restore hook. -/
theorem instrumentAt_spec (cs : Capstone) {scan : Word → Eng Int} (hbase : base ≠ minusOne)
    (hdown : HooksDown e)
    (hscan : ScansTo scan base e off flag)
    (hoff : off ≠ -1) (hok : k.ProtectsBlock e.space e.dump.length e.restore.length base off)
    (hplaced : base - e.restore.length ≠ 0)
    (hapart : Disjoint (base + BitVec.ofInt 64 off) e.dump.length.toNat
      (base - e.restore.length) e.restore.length.toNat) :
    ∃ e', instrumentAt k cs scan base e = .ok () e' ∧ HooksUp k e' e.space.byte ∧
      Around e e' base off ∧ e'.state = { e.state with rip := base - e.restore.length } ∧
      e'.currSyscall = flag ∧ e.space.Opened e'.space := by
  obtain ⟨e₁, hrequest, hup, haround, hkept, hflag, hopened⟩ :=
    instrumentRequest_spec cs hdown hscan hoff hok hplaced hapart
  have hstate : e₁.state = e.state := congrArg Prod.fst hkept
  refine ⟨{ e₁ with state := { e₁.state with rip := base - e₁.restore.length } }, ?_,
    hup.of_hooking rfl, haround.congr rfl rfl rfl rfl, ?_, hflag, hopened⟩
  · rw [instrumentAt]
    simp only [if_neg hbase]
    rw [bind_of_ok hrequest]
    rfl
  · show ({ e₁.state with rip := base - e₁.restore.length } : StateRtime) = _
    rw [hstate, haround.restoreLength]

/-! ### What surrounds the move of the hooks -/

/-- What a switch of the bases leaves alone. -/
def Engine.guestPart (e : Engine) : StateRtime × Bool × Space × Hook × Hook × Word :=
  (e.state, e.currSyscall, e.hooking)

theorem follows_guestPart_setFsGs (fs gs : Word) :
    Follows (Kept Engine.guestPart) (setFsGs k fs gs) := by
  intro e
  obtain ⟨r, e', hset, -, fs', gs', he'⟩ := setFsGs_total k fs gs e
  rw [hset, he']
  rfl

theorem follows_guestPart_emit (mk : Word → Word → Event) :
    Follows (Kept Engine.guestPart) (emit mk) :=
  .modify fun _ => rfl

theorem follows_guestPart_enterHost : Follows (Kept Engine.guestPart) (enterHost k) := by
  have hfatal : Follows (Kept Engine.guestPart) (fatalDump : Eng Unit) :=
    .bind (follows_guestPart_emit _) fun _ => .bind (follows_guestPart_emit _) fun _ => .throw _
  have hsave : Follows (Kept Engine.guestPart) (saveFsGs k) := by
    unfold saveFsGs
    exact .bind .get fun _ => .ite (.pure _) (.pure _)
  unfold enterHost
  refine .bind hsave fun r => ?_
  split
  · exact hfatal
  · refine .bind (.modify fun _ => rfl) fun _ => .bind .get fun e => ?_
    exact .bind (follows_guestPart_setFsGs _ _) fun _ => .ite hfatal (.pure _)

theorem follows_guestPart_userCallback : Follows (Kept Engine.guestPart) userCallback :=
  .bind .get fun _ => .ite (follows_guestPart_emit _) (.pure _)

theorem follows_guestPart_continueExec : Follows (Kept Engine.guestPart) (continueExec k) := by
  unfold continueExec
  refine .bind .get fun e => .bind (follows_guestPart_setFsGs _ _) fun _ => ?_
  exact .when (follows_guestPart_emit _) fun _ => follows_guestPart_emit _

/-- A dispatch that ends, cut at the two points where the hooks are down and up. -/
theorem exists_of_dispatcherWith {getBase : Eng Word} {scan : Word → Eng Int} {e' : Engine}
    (run : dispatcherWith k cs getBase scan e = .ok () e') :
    ∃ e₁ e₂, e₁.guestPart = e.guestPart ∧ e'.guestPart = e₂.guestPart ∧
      moveHooks k cs getBase scan e₁ = .ok () e₂ := by
  obtain ⟨_, e₁, henter, run⟩ := exists_of_bind_ok run
  obtain ⟨_, e₂, hcallback, run⟩ := exists_of_bind_ok run
  obtain ⟨_, e₃, hmove, hcontinue⟩ := exists_of_bind_ok run
  refine ⟨e₂, e₃, ?_, follows_guestPart_continueExec.of_ok hcontinue, hmove⟩
  exact trans_of (Kept Engine.guestPart) (follows_guestPart_enterHost.of_ok henter)
    (follows_guestPart_userCallback.of_ok hcallback)

/-- The hooks are taken down on the entry of a dispatch, after the switch to the host
and the callback. -/
theorem HooksUp.restored {m : Word → Byte} {e₁ : Engine} (h : HooksUp k e m)
    (run : (do enterHost k; userCallback : Eng Unit) e = .ok () e₁) :
    e₁.guestPart = e.guestPart ∧ HooksUp k e₁ m ∧
      ∃ space' : Space, space'.byte = m ∧ e.space.Opened space' ∧
        Dryadalis.takeDownHooks k e₁ = .ok () { e₁ with space := space' } := by
  have hkept := (Follows.bind follows_guestPart_enterHost
    fun _ => follows_guestPart_userCallback).of_ok run
  have hup : HooksUp k e₁ m := h.of_hooking (congrArg (·.2.2) hkept)
  have hspace : e₁.space = e.space := congrArg (·.2.2.1) hkept
  rw [← hspace]
  exact ⟨hkept, hup, hup.takeDownHooks⟩

theorem userCallback_total (e : Engine) : ∃ e', userCallback e = .ok () e' := by
  rw [userCallback, bind_of_ok (get_apply e)]
  split
  · exact ⟨_, rfl⟩
  · exact ⟨_, rfl⟩

/-- The entry of a dispatch ends, when the kernel sets the bases. -/
theorem enterHost_total (hk : k.SetsBases) (e : Engine) :
    ∃ e₁, (do enterHost k; userCallback : Eng Unit) e = .ok () e₁ := by
  rw [bind_of_ok (enterHost_eq hk e)]
  exact userCallback_total _

/-- With a kernel that sets the bases, a dispatch ends as soon as the hooks can be
moved. -/
theorem dispatcherWith_of_moveHooks (cs : Capstone) (getBase : Eng Word) (scan : Word → Eng Int)
    (hk : k.SetsBases)
    (hmove : ∀ e₁, e₁.guestPart = e.guestPart →
      ∃ e₂, moveHooks k cs getBase scan e₁ = .ok () e₂) :
    ∃ e', dispatcherWith k cs getBase scan e = .ok () e' := by
  obtain ⟨e₁, he₁⟩ := userCallback_total
    { e with
      instrumentedFs := e.fs
      instrumentedGs := e.gs
      fs := e.hostFs
      gs := e.hostGs }
  have hguest := follows_guestPart_userCallback.of_ok he₁
  obtain ⟨e₂, he₂⟩ := hmove e₁ hguest
  rw [dispatcherWith, bind_of_ok (enterHost_eq hk e), bind_of_ok he₁, bind_of_ok he₂,
    continueExec_eq hk e₂]
  exact ⟨_, rfl⟩

end Turns

end Dryadalis
