import Dryadalis.Capstone
import Dryadalis.Engine
import Dryadalis.ReadRounds

/-!
# The block scan

`opcodes_cflow` returns the distance from an address to the first instruction
of a control-flow group.  It reads one page-sized buffer, disassembles it
linearly, and calls itself on the rest when the buffer has no such instruction.

Four things make the result less obvious than the description.

* The loop bound is the return value of `mem_read`.  For a buffer that spans two
  pages that is the size of the second part, not the length of the buffer, so
  the loop may stop anywhere inside it.
* An instruction that straddles the end of the buffer does not decode, and the
  scan resumes at its first byte.
* The global `curr_syscall` exempts the first instruction.  It is how the
  dispatcher steps over a system call that the guest runs natively.
* A buffer is as long as a page wherever the block ends, so the scan reads past the
  end of the block, and dies if the page there cannot be read.

`FirstCflow` is the specification: the offset of the first control-flow
instruction in the linear disassembly of the memory, with no buffers in it.
`Scannable` follows the buffers that the scan reads on the way there.
`opcodesCflow_eq_iff` is the result, by induction on the offset.
-/

namespace Dryadalis

open ByteMem

/-! ## Control-flow instructions -/

/-- `is_cflow` -/
def isCflow : Group → Bool
  | .CALL | .INT | .JUMP | .RET | .BRANCH_RELATIVE | .PRIVILEGE | .IRET | .VM => true
  | .other _ => false

/-- One of the groups of the instruction is a control-flow group. -/
def Insn.cflow (i : Insn) : Bool := i.groups.any isCflow

@[simp] theorem Insn.atAddr_cflow (i : Insn) (addr : Word) : (i.atAddr addr).cflow = i.cflow := by
  rw [Insn.cflow, Insn.atAddr_groups, Insn.cflow]

/-! ## The scan -/

/-- How the disassembly of one buffer ends: at a control-flow instruction, or
without one.  Both carry the offset reached and the value of `curr_syscall`. -/
inductive ScanEnd where
  | found (n : Nat) (currSyscall : Bool)
  | ended (n : Nat) (currSyscall : Bool)
  deriving DecidableEq

/-- The loop of `opcodes_cflow` over one buffer.  `size` bytes are left from
offset `n` on, and `saved` is the return value of `mem_read`. -/
def scanLoop (cs : Capstone) (buf : Nat → Byte) (addr : Word) (saved : Nat) :
    Nat → Nat → Nat → Bool → Bool → Except Halt ScanEnd
  | 0, _, _, _, _ => .error .diverge
  | fuel + 1, n, size, beg, currSyscall =>
    if n < saved then
      match cs.disasm (addr + BitVec.ofNat 64 n) ((List.range size).map fun j => buf (n + j)) with
      | none => .ok (.ended n currSyscall)
      | some i =>
        if i.cflow && !(beg && currSyscall) then .ok (.found n currSyscall)
        else scanLoop cs buf addr saved fuel (n + i.size) (size - i.size) false false
    else .ok (.ended n currSyscall)

/-- The body of `opcodes_cflow`, with a bound on the depth of its recursion.
The sum of two `int` wraps at 32 bits. -/
def opcodesCflowAux (k : Kernel) (cs : Capstone) : Nat → Word → Bool → Eng Int
  | 0, _, _ => throw .diverge
  | fuel + 1, addr, beg => do
    if !isMapped addr then
      return -1
    let (saved, buf) ← readMem k (fun _ => 0) addr PAGE_SZ
    if saved = -1 then
      fatalDump
    let e ← get
    match scanLoop cs buf addr saved.toNat 4097 0 4096 beg e.currSyscall with
    | .error h => throw h
    | .ok (.found n flag) =>
      modify fun e => { e with currSyscall := flag }
      return n
    | .ok (.ended n flag) =>
      modify fun e => { e with currSyscall := flag }
      if isMapped (addr + BitVec.ofNat 64 n) && n != 0 then
        let rest ← opcodesCflowAux k cs fuel (addr + BitVec.ofNat 64 n) true
        return (n + rest : Int).bmod (2 ^ 32)
      else
        fatalDump

/-- `opcodes_cflow`.  Each recursive call starts at a later address and there are
`2 ^ 64` of them, so a deeper recursion repeats a call and never ends. -/
def opcodesCflow (k : Kernel) (cs : Capstone) (addr : Word) (beg : Bool) : Eng Int :=
  opcodesCflowAux k cs (2 ^ 64 + 1) addr beg

/-! ## The linear disassembly -/

/-- The first instruction with a control-flow group in the linear disassembly of
`m` from `a` is at offset `d`.  With the flag set, the first instruction does
not count. -/
inductive FirstCflow (cs : Capstone) (m : Word → Byte) : Word → Bool → Nat → Prop where
  | here {a i} (hi : cs.decodeAt m a = some i) (hc : i.cflow = true) : FirstCflow cs m a false 0
  | next {a exempt i d} (hi : cs.decodeAt m a = some i) (hc : exempt = true ∨ i.cflow = false)
      (tail : FirstCflow cs m (a + i.len) false d) : FirstCflow cs m a exempt (i.size + d)

/-- `90` -/
def nop : Insn :=
  { id := .other 0, size := 1, groups := [], operands := [], rel := none }

/-- `c3` -/
def nearRet : Insn :=
  { id := .RET, size := 1, groups := [.RET], operands := [], rel := none }

/-- `0f 05` -/
def syscallInsn : Insn :=
  { id := .SYSCALL, size := 2, groups := [.INT], operands := [], rel := none }

/-- Enough encodings for a block that ends in a return. -/
def scanEncodings : Encodings where
  entries := [([0x90], nop), ([0xc3], nearRet)]
  length_eq := by decide
  size_pos := by decide
  size_le := by decide
  prefixFree := by decide

/-! ## One buffer -/

section Buffer

variable {cs : Capstone} {m : Word → Byte} {addr : Word} {buf : Nat → Byte} {saved : Nat}

/-- What the loop disassembles is the memory, cut at the end of the buffer. -/
theorem buffer_disasm (hbuf : ∀ j, j < 4096 → buf j = window m addr j) {n size : Nat}
    (hsize : n + size = 4096) {i : Insn}
    (hi : cs.decodeAt m (addr + BitVec.ofNat 64 n) = some i) (at_ : Word) :
    cs.disasm at_ ((List.range size).map fun j => buf (n + j)) =
      if i.size ≤ size then some (i.atAddr at_) else none := by
  have hbytes : (List.range size).map (fun j => buf (n + j)) =
      bytesAt m (addr + BitVec.ofNat 64 n) size := by
    apply List.map_congr_left
    intro j hj
    rw [List.mem_range] at hj
    rw [hbuf _ (by omega), window_add]
  rw [hbytes, Capstone.disasm, cs.decode_bytesAt hi]
  split <;> rfl

theorem add_len_ofNat (a : Word) (n : Nat) (i : Insn) :
    a + BitVec.ofNat 64 n + i.len = a + BitVec.ofNat 64 (n + i.size) := by
  rw [Insn.len, BitVec.add_assoc, ← BitVec.ofNat_add]

/-- A loop that may read nothing stops where it starts. -/
theorem scanLoop_empty {fuel size : Nat} {beg flag : Bool} :
    scanLoop cs buf addr 0 (fuel + 1) 0 size beg flag = .ok (.ended 0 flag) := by
  rw [scanLoop, if_neg (Nat.lt_irrefl 0)]

end Buffer

/-! ## The bytes of one buffer -/

/-- The processor allows the same loads. -/
def Space.SameLoads (k : Kernel) (m m' : Space) : Prop :=
  ∀ page, k.loads (m'.prot page) = k.loads (m.prot page)

/-- What a buffer at `a` needs: its first page can be read and protected, and the page of its
last byte can be read. -/
structure Buffered (k : Kernel) (m : Space) (a : Word) : Prop where
  first : k.Reads m a 0
  last : k.Loads m a 4095

/-- How many bytes of the buffer at `a` the loop looks at: all of a buffer in one page, and
else the part in the second page, or the one in the first page when the second one
cannot be protected. -/
def looked (k : Kernel) (a : Word) : Nat :=
  if a.toNat % 4096 = 0 then 4096
  else if k.Opens a 4095 then a.toNat % 4096 else 4096 - a.toNat % 4096

theorem looked_pos (k : Kernel) (a : Word) : 0 < looked k a := by
  unfold looked
  split_ifs <;> omega

theorem fitsPage_page_iff (a : Word) : FitsPage a PAGE_SZ ↔ a.toNat % 4096 = 0 := by
  rw [fitsPage_iff, PAGE_SZ_toNat]
  omega

section OneBuffer

variable {k : Kernel} {a : Word} {s : Reading}

theorem Reading.done_sameLoads {i : Nat} (h : ∀ j, j < i → k.Loads s.space a j) :
    s.space.SameLoads k (s.done a i).space := by
  intro page
  show k.loads (allowProt s.space.prot a i page) = _
  rw [allowProt]
  split
  · rename_i hpage
    obtain ⟨j, hj, rfl⟩ := hpage
    exact (h j hj).symm
  · rfl

theorem Reading.done_opened (i : Nat) : s.space.Opened (s.done a i).space :=
  opened_allowProt s.space a i s.space.byte

/-- The second of the two chunks of a buffer. -/
theorem chunk_second (hoff : a.toNat % 4096 ≠ 0) :
    ∃ sz : Word, sz.toNat = a.toNat % 4096 ∧ Chunk a PAGE_SZ (PAGE_SZ - pageOfft a) sz ∧
      (if pageAlign (PAGE_SZ - pageOfft a + a) = pageAlign (PAGE_SZ + a)
        then PAGE_SZ - (PAGE_SZ - pageOfft a) else PAGE_SZ) = sz := by
  have hroom := pageRoom_toNat a
  have hc : Chunk a PAGE_SZ (PAGE_SZ - pageOfft a) _ :=
    .next (by rw [hroom, PAGE_SZ_toNat]; omega) (by rw [hroom]; omega)
  refine ⟨_, ?_, hc, rfl⟩
  have hpos := hc.pos
  have hrange := hc.inRange
  have hends := hc.ends
  rw [hroom, PAGE_SZ_toNat] at hrange hends
  omega

/-- `mem_read` of a buffer of two chunks, after the first of them. -/
theorem memRead_second (hoff : a.toNat % 4096 ≠ 0) (hreads : k.Reads s.space a 0) :
    ∃ sz : Word, sz.toNat = a.toNat % 4096 ∧ Chunk a PAGE_SZ (PAGE_SZ - pageOfft a) sz ∧
      (∀ j, j < 4096 - a.toNat % 4096 → k.Loads s.space a j) ∧
      memRead k a PAGE_SZ s =
        memReadLoop k a PAGE_SZ 4096 (PAGE_SZ - pageOfft a) sz
          (4096 - a.toNat % 4096 : Nat) (4096 - a.toNat % 4096 : Nat)
          (s.done a (4096 - a.toNat % 4096)) := by
  have hroom := pageRoom_toNat a
  have hlong : PAGE_SZ - pageOfft a < PAGE_SZ :=
    not_not.mp fun h => hoff ((fitsPage_page_iff a).mp h)
  obtain ⟨sz, hsz, hchunk, hnext⟩ := chunk_second hoff
  obtain ⟨s', hround, hs', hloads⟩ := (memReadRounds_spec s).copy (Chunk.first hlong)
    ⟨s.done_zero.symm, fun j hj => absurd hj (Nat.not_lt_zero j)⟩ hreads
  have hzero : (0 : Word).toNat = 0 := rfl
  rw [hroom, hzero, Nat.zero_add] at hs' hloads
  refine ⟨sz, hsz, hchunk, hloads, ?_⟩
  rw [memRead, if_neg (by decide), if_pos hlong, PAGE_SZ_toNat, memReadLoop, if_neg (by decide),
    hround]
  simp only [zero_add]
  rw [if_neg (by omega), hnext, hs', hroom]

/-- `mem_read` of a buffer fills it, when its pages allow that, and returns less than its
length when it spans two pages. -/
theorem memRead_buffered (h : Buffered k s.space a) :
    ∃ m' : Space, m'.byte = s.space.byte ∧ s.space.Opened m' ∧ s.space.SameLoads k m' ∧
      memRead k a PAGE_SZ s =
        .ok (looked k a) ⟨fill s.buf 0 4096 (window s.space.byte a), m'⟩ := by
  have hspec := @memReadRounds_spec k a PAGE_SZ s
  have hstart : s = s.done a (0 : Word).toNat ∧ ∀ j, j < (0 : Word).toNat → k.Loads s.space a j :=
    ⟨s.done_zero.symm, fun j hj => absurd hj (Nat.not_lt_zero j)⟩
  by_cases hoff : a.toNat % 4096 = 0
  · have hfits := (fitsPage_page_iff a).mpr hoff
    obtain ⟨s', hround, hs', hloads⟩ := hspec.copy (Chunk.whole (by decide) hfits) hstart h.first
    rw [show (0 : Word).toNat + PAGE_SZ.toNat = 4096 from rfl] at hs' hloads
    refine ⟨(s.done a 4096).space, s.done_byte _, Reading.done_opened _,
      Reading.done_sameLoads hloads, ?_⟩
    rw [memRead, if_neg (by decide), if_neg hfits, hround, looked, if_pos hoff, hs']
    rfl
  · have hroom := pageRoom_toNat a
    obtain ⟨sz, hsz, hchunk, hloads, hread⟩ := memRead_second hoff h.first
    have hlast : k.Loads s.space a (PAGE_SZ - pageOfft a).toNat :=
      (hchunk.loads_iff (by omega) (by omega)).mp h.last
    have hsum : (PAGE_SZ - pageOfft a).toNat + sz.toNat = 4096 := by omega
    have hopens : k.Opens a 4095 ↔ k.Opens a (PAGE_SZ - pageOfft a).toNat :=
      hchunk.opens_iff (by omega) (by omega)
    rw [← hroom] at hloads hread
    rw [hread, memReadLoop, if_neg (by intro h; rw [h] at hsum; simp at hsum; omega), looked,
      if_neg hoff]
    by_cases hopen : k.Opens a (PAGE_SZ - pageOfft a).toNat
    · obtain ⟨s', hround, hs', hall⟩ := hspec.copy hchunk ⟨rfl, hloads⟩ ⟨hlast, hopen⟩
      have hend : PAGE_SZ - pageOfft a + sz = PAGE_SZ :=
        BitVec.eq_of_toNat_eq (by rw [hchunk.next_toNat, hsum]; rfl)
      rw [hsum] at hs' hall
      refine ⟨(s.done a 4096).space, s.done_byte _, Reading.done_opened _,
        Reading.done_sameLoads hall, ?_⟩
      rw [hround, if_pos (hopens.mpr hopen)]
      simp only
      rw [if_neg (by omega), memReadLoop, if_pos hend, if_pos, hsz, hs']
      · rfl
      · rw [hs']
        exact s.copied_done PAGE_SZ
    · have hload : k.Loads (s.done a (PAGE_SZ - pageOfft a).toNat).space a
          (PAGE_SZ - pageOfft a).toNat := (loads_allowProt_iff hloads).mpr hlast
      refine ⟨(s.done a (PAGE_SZ - pageOfft a).toNat).space, s.done_byte _, Reading.done_opened _,
        Reading.done_sameLoads hloads, ?_⟩
      rw [roundRead_of_shut hchunk hload hopen, if_neg fun h => hopen (hopens.mp h)]
      simp only [if_true]
      rw [Reading.done, fill_append, hsum, hroom]

/-- `mem_read` of a buffer whose pages do not allow that dies, or reads nothing. -/
theorem memRead_not_buffered (h : ¬ Buffered k s.space a) :
    (∃ s', memRead k a PAGE_SZ s = .error .crash s') ∨
      ∃ r s', r ≤ 0 ∧ s.space.SameLoads k s'.space ∧ memRead k a PAGE_SZ s = .ok r s' := by
  have hspec := @memReadRounds_spec k a PAGE_SZ s
  have hstart : s = s.done a (0 : Word).toNat ∧ ∀ j, j < (0 : Word).toNat → k.Loads s.space a j :=
    ⟨s.done_zero.symm, fun j hj => absurd hj (Nat.not_lt_zero j)⟩
  have hsame : ∀ {s' : Reading}, s'.space = (s.done a (0 : Word).toNat).space →
      s.space.SameLoads k s'.space := by
    intro s' heq
    rw [heq]
    exact Reading.done_sameLoads hstart.2
  by_cases hoff : a.toNat % 4096 = 0
  · have hfits := (fitsPage_page_iff a).mpr hoff
    have hchunk := Chunk.whole (show 0 < PAGE_SZ.toNat by decide) hfits
    rw [memRead, if_neg (by decide), if_neg hfits]
    by_cases hload : k.Loads s.space a 0
    · have hshut : ¬ k.Opens a 0 := fun hopen =>
        h ⟨⟨hload, hopen⟩, (hchunk.loads_iff (Nat.zero_le _) (by decide)).mpr hload⟩
      obtain ⟨s', hround, hspace, -⟩ := hspec.refuse hchunk hstart hload hshut
      rw [hround]
      exact Or.inr ⟨-1, s', by decide, hsame hspace, rfl⟩
    · rw [hspec.fault hchunk hstart hload]
      exact Or.inl ⟨s, rfl⟩
  · have hlong : PAGE_SZ - pageOfft a < PAGE_SZ :=
      not_not.mp fun h => hoff ((fitsPage_page_iff a).mp h)
    have hchunk := Chunk.first hlong
    by_cases hload : k.Loads s.space a 0
    · by_cases hopen : k.Opens a 0
      · have hroom := pageRoom_toNat a
        obtain ⟨sz, hsz, hsecond, hloads, hread⟩ := memRead_second hoff ⟨hload, hopen⟩
        have hlast : ¬ k.Loads s.space a (PAGE_SZ - pageOfft a).toNat := fun hlast =>
          h ⟨⟨hload, hopen⟩, (hsecond.loads_iff (by omega) (by omega)).mpr hlast⟩
        rw [← hroom] at hloads hread
        rw [hread, memReadLoop, if_neg fun h => by rw [h] at hroom; simp at hroom; omega,
          hspec.fault hsecond ⟨rfl, hloads⟩ hlast]
        exact Or.inl ⟨_, rfl⟩
      · obtain ⟨s', hround, hspace, -⟩ := hspec.refuse hchunk hstart hload hopen
        rw [memRead, if_neg (by decide), if_pos hlong, memReadLoop, if_neg (by decide), hround]
        exact Or.inr ⟨0, s', le_refl _, hsame hspace, rfl⟩
    · rw [memRead, if_neg (by decide), if_pos hlong, memReadLoop, if_neg (by decide),
        hspec.fault hchunk hstart hload]
      exact Or.inl ⟨s, rfl⟩

end OneBuffer

/-! ## The buffers of a scan -/

/-- The instruction at offset `n` of the buffer at `a` is looked at. -/
def InBuffer (k : Kernel) (a : Word) (n : Nat) (i : Insn) : Prop :=
  n < looked k a ∧ n + i.size ≤ 4096

/-- The scan gets to the control-flow instruction, from offset `n` of the buffer at `a` on.  It
goes from instruction to instruction.  Where one is not looked at any more, a buffer starts
there, and its pages have to allow that. -/
inductive Scannable (k : Kernel) (cs : Capstone) (m : Space) : Word → Nat → Bool → Prop where
  | here {a n i} (hi : cs.decodeAt m.byte (a + BitVec.ofNat 64 n) = some i)
      (hc : i.cflow = true) (hin : InBuffer k a n i) : Scannable k cs m a n false
  | next {a n exempt i} (hi : cs.decodeAt m.byte (a + BitVec.ofNat 64 n) = some i)
      (hc : exempt = true ∨ i.cflow = false) (hin : InBuffer k a n i)
      (tail : Scannable k cs m a (n + i.size) false) : Scannable k cs m a n exempt
  | refill {a n i} (hi : cs.decodeAt m.byte (a + BitVec.ofNat 64 n) = some i)
      (hout : ¬ InBuffer k a n i) (hbuf : Buffered k m (a + BitVec.ofNat 64 n))
      (tail : Scannable k cs m (a + BitVec.ofNat 64 n) 0 false) : Scannable k cs m a n false

/-- The pages allow every buffer that the scan from `a` reads. -/
structure ScanReads (k : Kernel) (cs : Capstone) (m : Space) (a : Word) (flag : Bool) : Prop where
  buffered : Buffered k m a
  scannable : Scannable k cs m a 0 flag

section Buffers

variable {k : Kernel} {cs : Capstone} {m m' : Space} {a : Word} {n : Nat} {i : Insn}

theorem Space.SameLoads.symm (h : m.SameLoads k m') : m'.SameLoads k m := fun page => (h page).symm

theorem Space.SameLoads.trans {m'' : Space} (h : m.SameLoads k m') (h' : m'.SameLoads k m'') :
    m.SameLoads k m'' := fun page => (h' page).trans (h page)

theorem Space.SameLoads.loads_iff (h : m.SameLoads k m') (a : Word) (j : Nat) :
    k.Loads m' a j ↔ k.Loads m a j := by
  rw [Kernel.Loads, Kernel.Loads, h]

theorem Buffered.congr (h : m.SameLoads k m') (hb : Buffered k m a) : Buffered k m' a :=
  ⟨⟨(h.loads_iff a 0).mpr hb.first.1, hb.first.2⟩, (h.loads_iff a 4095).mpr hb.last⟩

theorem Scannable.congr (hbyte : m'.byte = m.byte) (h : m.SameLoads k m') {exempt : Bool}
    (hs : Scannable k cs m a n exempt) : Scannable k cs m' a n exempt := by
  induction hs with
  | here hi hc hin => exact .here (by rw [hbyte]; exact hi) hc hin
  | next hi hc hin tail ih => exact .next (by rw [hbyte]; exact hi) hc hin ih
  | refill hi hout hbuf tail ih =>
    exact .refill (by rw [hbyte]; exact hi) hout (hbuf.congr h) ih

theorem ScanReads.congr (hbyte : m'.byte = m.byte) (h : m.SameLoads k m') {flag : Bool} :
    ScanReads k cs m' a flag ↔ ScanReads k cs m a flag :=
  ⟨fun hs => ⟨hs.buffered.congr h.symm, hs.scannable.congr hbyte.symm h.symm⟩,
    fun hs => ⟨hs.buffered.congr h, hs.scannable.congr hbyte h⟩⟩

/-- Opening pages leaves a scan that could be made. -/
theorem ScanReads.mono (hbyte : m'.byte = m.byte) (h : m.Opened m') {flag : Bool}
    (hs : ScanReads k cs m a flag) : ScanReads k cs m' a flag := by
  have hbuffered : ∀ {x : Word}, Buffered k m x → Buffered k m' x := fun hb =>
    ⟨⟨h.loads hb.first.1, hb.first.2⟩, h.loads hb.last⟩
  have hwalk : ∀ {x : Word} {n : Nat} {exempt : Bool}, Scannable k cs m x n exempt →
      Scannable k cs m' x n exempt := by
    intro x n exempt hs
    induction hs with
    | here hi hc hin => exact .here (by rw [hbyte]; exact hi) hc hin
    | next hi hc hin tail ih => exact .next (by rw [hbyte]; exact hi) hc hin ih
    | refill hi hout hbuf tail ih =>
      exact .refill (by rw [hbyte]; exact hi) hout (hbuffered hbuf) ih
  exact ⟨hbuffered hs.buffered, hwalk hs.scannable⟩

/-- An instruction that is looked at and passed over. -/
theorem scannable_next_iff {exempt : Bool}
    (hi : cs.decodeAt m.byte (a + BitVec.ofNat 64 n) = some i)
    (hc : exempt = true ∨ i.cflow = false) (hin : InBuffer k a n i) :
    Scannable k cs m a n exempt ↔ Scannable k cs m a (n + i.size) false := by
  constructor
  · intro h
    cases h with
    | here hi' hc' hin' =>
      obtain rfl := Option.some.inj (hi.symm.trans hi')
      rcases hc with hc | hc
      · cases hc
      · rw [hc] at hc'
        cases hc'
    | next hi' hc' hin' tail =>
      obtain rfl := Option.some.inj (hi.symm.trans hi')
      exact tail
    | refill hi' hout hbuf tail =>
      obtain rfl := Option.some.inj (hi.symm.trans hi')
      exact absurd hin hout
  · exact .next hi hc hin

/-- An instruction that is not looked at any more. -/
theorem scannable_refill_iff (hi : cs.decodeAt m.byte (a + BitVec.ofNat 64 n) = some i)
    (hout : ¬ InBuffer k a n i) :
    Scannable k cs m a n false ↔ ScanReads k cs m (a + BitVec.ofNat 64 n) false := by
  constructor
  · intro h
    cases h with
    | here hi' hc' hin' =>
      obtain rfl := Option.some.inj (hi.symm.trans hi')
      exact absurd hin' hout
    | next hi' hc' hin' tail =>
      obtain rfl := Option.some.inj (hi.symm.trans hi')
      exact absurd hin' hout
    | refill hi' hout' hbuf tail => exact ⟨hbuf, tail⟩
  · exact fun h => .refill hi hout h.buffered h.scannable

/-- The first instruction of a buffer is looked at. -/
theorem inBuffer_first (hi : cs.decodeAt m.byte a = some i) : InBuffer k a 0 i := by
  have hpos := looked_pos k a
  have hsize : i.size ≤ 15 := cs.size_le hi
  exact ⟨hpos, by omega⟩

/-- The pages of the block, and of the buffer that starts with its last instruction, are
enough. -/
theorem ScanReads.of_pages {flag : Bool} {d : Nat} (hd : FirstCflow cs m.byte a flag d)
    (hok : ∀ i, i < d + 4096 → k.Reads m a i) : ScanReads k cs m a flag := by
  have hshift : ∀ {x : Word} {j d' : Nat}, (∀ i, i < j + d' + 4096 → k.Reads m x i) →
      ∀ i, i < d' + 4096 → k.Reads m (x + BitVec.ofNat 64 j) i := by
    intro x j d' h i hi
    have hsum := h (j + i) (by omega)
    rw [Kernel.Reads, Kernel.Loads, Kernel.Opens, BitVec.ofNat_add, ← BitVec.add_assoc] at hsum
    exact hsum
  have hbuf : ∀ {x : Word} {d' : Nat}, (∀ i, i < d' + 4096 → k.Reads m x i) → Buffered k m x :=
    fun h => ⟨h 0 (by omega), (h 4095 (by omega)).1⟩
  have hwalk : ∀ {x : Word} {flag : Bool} {d : Nat}, FirstCflow cs m.byte x flag d →
      (∀ i, i < d + 4096 → k.Reads m x i) → ∀ (a : Word) (n : Nat),
      a + BitVec.ofNat 64 n = x → (flag = true → n = 0) → Scannable k cs m a n flag := by
    intro x flag d hd
    induction hd with
    | @here x i hi hc =>
      intro hx a n heq _
      subst heq
      by_cases hin : InBuffer k a n i
      · exact .here hi hc hin
      · rw [scannable_refill_iff hi hin]
        exact ⟨hbuf hx, .here (by simpa using hi) hc (inBuffer_first hi)⟩
    | @next x exempt i d hi hc tail ih =>
      intro hx a n heq hflag
      subst heq
      have hrest := ih (hshift hx)
      by_cases hin : InBuffer k a n i
      · exact .next hi hc hin (hrest a (n + i.size) (add_len_ofNat a n i).symm
          fun h => absurd h Bool.false_ne_true)
      · cases exempt with
        | true =>
          rw [hflag rfl] at hi hin
          exact absurd (inBuffer_first (by simpa using hi)) hin
        | false =>
          rw [scannable_refill_iff hi hin]
          refine ⟨hbuf hx, .next (by simpa using hi) hc (inBuffer_first hi) ?_⟩
          exact hrest _ _ (by rw [← add_len_ofNat]; simp) fun h => absurd h Bool.false_ne_true
  exact ⟨hbuf hok, hwalk hd hok a 0 (by simp) fun _ => rfl⟩

end Buffers

/-! ## The loop over one buffer -/

section Loop

variable {k : Kernel} {cs : Capstone} {m : Space} {addr : Word} {buf : Nat → Byte}

/-- The loop past the exempted instruction.  It finds the control-flow
instruction, or stops at an instruction from which the rest of the distance is
still to be walked. -/
theorem scanLoop_rest (hbuf : ∀ j, j < 4096 → buf j = window m.byte addr j) :
    ∀ (fuel n size : Nat) (beg : Bool) (d : Nat), size < fuel → n + size = 4096 →
      FirstCflow cs m.byte (addr + BitVec.ofNat 64 n) false d →
      Scannable k cs m addr n false ∧ n + d < looked k addr ∧
          scanLoop cs buf addr (looked k addr) fuel n size beg false =
            .ok (.found (n + d) false) ∨
        ∃ n' d', n ≤ n' ∧ n' + d' = n + d ∧
          FirstCflow cs m.byte (addr + BitVec.ofNat 64 n') false d' ∧
          (Scannable k cs m addr n false ↔
            ScanReads k cs m (addr + BitVec.ofNat 64 n') false) ∧
          scanLoop cs buf addr (looked k addr) fuel n size beg false =
            .ok (.ended n' false) := by
  intro fuel
  induction fuel with
  | zero =>
    intro n size beg d hfuel
    omega
  | succ fuel ih =>
    intro n size beg d hfuel hsize hd
    have hwhole := hd
    cases hd with
    | @here _ i hi hc =>
      have hdis := buffer_disasm hbuf hsize hi (addr + BitVec.ofNat 64 n)
      by_cases hin : InBuffer k addr n i
      · left
        have hfit : i.size ≤ size := by
          have hle := hin.2
          omega
        rw [if_pos hfit] at hdis
        exact ⟨.here hi hc hin, hin.1, by simp [scanLoop, hin.1, hdis, hc]⟩
      · -- Where the loop stops, a buffer starts at the same instruction.
        refine Or.inr ⟨n, _, le_refl n, rfl, hwhole, scannable_refill_iff hi hin, ?_⟩
        by_cases hn : n < looked k addr
        · have hcut : ¬ i.size ≤ size := fun h => hin ⟨hn, by omega⟩
          rw [if_neg hcut] at hdis
          simp [scanLoop, hn, hdis]
        · simp [scanLoop, hn]
    | @next _ _ i d hi hc tail =>
      have hnc : i.cflow = false := by simpa using hc
      have hdis := buffer_disasm hbuf hsize hi (addr + BitVec.ofNat 64 n)
      by_cases hin : InBuffer k addr n i
      · have hfit : i.size ≤ size := by
          have hle := hin.2
          omega
        rw [if_pos hfit] at hdis
        have hpos : 0 < i.size := cs.size_pos hi
        rw [add_len_ofNat] at tail
        have hloop : scanLoop cs buf addr (looked k addr) (fuel + 1) n size beg false =
            scanLoop cs buf addr (looked k addr) fuel (n + i.size) (size - i.size) false false := by
          simp [scanLoop, hin.1, hdis, hnc]
        rw [hloop, scannable_next_iff hi hc hin]
        rcases ih (n + i.size) (size - i.size) false d (by omega) (by omega) tail with
          ⟨hscan, hlt, hfound⟩ | ⟨n', d', hle, hsum, hrest, hscan, hend⟩
        · left
          rw [hfound, ← Nat.add_assoc]
          exact ⟨hscan, hlt, rfl⟩
        · exact Or.inr ⟨n', d', by omega, by omega, hrest, hscan, hend⟩
      · refine Or.inr ⟨n, _, le_refl n, rfl, hwhole, scannable_refill_iff hi hin, ?_⟩
        by_cases hn : n < looked k addr
        · have hcut : ¬ i.size ≤ size := fun h => hin ⟨hn, by omega⟩
          rw [if_neg hcut] at hdis
          simp [scanLoop, hn, hdis]
        · simp [scanLoop, hn]

/-- The loop over a fresh buffer.  It clears `curr_syscall`, and when it does not
find the control-flow instruction it has passed at least one instruction. -/
theorem scanLoop_fresh (hbuf : ∀ j, j < 4096 → buf j = window m.byte addr j)
    {flag : Bool} {d : Nat} (hd : FirstCflow cs m.byte addr flag d) :
    Scannable k cs m addr 0 flag ∧ d < looked k addr ∧
        scanLoop cs buf addr (looked k addr) 4097 0 4096 true flag = .ok (.found d false) ∨
      ∃ n d', 0 < n ∧ n + d' = d ∧ FirstCflow cs m.byte (addr + BitVec.ofNat 64 n) false d' ∧
        (Scannable k cs m addr 0 flag ↔ ScanReads k cs m (addr + BitVec.ofNat 64 n) false) ∧
        scanLoop cs buf addr (looked k addr) 4097 0 4096 true flag = .ok (.ended n false) := by
  have hzero : addr + BitVec.ofNat 64 0 = addr := by simp
  have hlooked := looked_pos k addr
  cases hd with
  | @here _ i hi hc =>
    have hin := inBuffer_first (k := k) hi
    rw [← hzero] at hi
    have hdis := buffer_disasm hbuf (show 0 + 4096 = 4096 from rfl) hi (addr + BitVec.ofNat 64 0)
    have h15 : i.size ≤ 15 := cs.size_le hi
    rw [if_pos (by omega)] at hdis
    left
    refine ⟨.here hi hc hin, hlooked, ?_⟩
    rw [scanLoop, if_pos hlooked, hdis]
    simp [hc]
  | @next _ _ i d hi hc tail =>
    have hin := inBuffer_first (k := k) hi
    rw [← hzero] at hi
    have hdis := buffer_disasm hbuf (show 0 + 4096 = 4096 from rfl) hi (addr + BitVec.ofNat 64 0)
    have h15 : i.size ≤ 15 := cs.size_le hi
    have hpos : 0 < i.size := cs.size_pos hi
    rw [if_pos (by omega)] at hdis
    have hskip : (i.cflow && !(true && flag)) = false := by
      rcases hc with hc | hc <;> simp [hc]
    have hloop : scanLoop cs buf addr (looked k addr) 4097 0 4096 true flag =
        scanLoop cs buf addr (looked k addr) 4096 (0 + i.size) (4096 - i.size) false false := by
      rw [scanLoop, if_pos hlooked, hdis]
      simp only [Insn.atAddr_cflow, hskip, Insn.atAddr_size]
      rfl
    rw [← hzero, add_len_ofNat] at tail
    rw [hloop, scannable_next_iff hi hc hin]
    rcases scanLoop_rest (k := k) hbuf 4096 (0 + i.size) (4096 - i.size) false d
      (by omega) (by omega) tail with
      ⟨hscan, hlt, hfound⟩ | ⟨n, d', hle, hsum, hrest, hscan, hend⟩
    · left
      rw [Nat.zero_add] at hlt hfound hscan ⊢
      exact ⟨hscan, hlt, hfound⟩
    · exact Or.inr ⟨n, d', by omega, by omega, hrest, hscan, hend⟩

end Loop

/-! ## The whole scan -/

section Turn

variable {k : Kernel} {cs : Capstone} {addr : Word} {e : Engine} {saved : Int} {buf : Nat → Byte}
  {space' : Space} {n : Nat} {flag : Bool}

/-- `mem_read` of a buffer whose pages allow that. -/
theorem readMem_buffered (buf : Nat → Byte) (h : Buffered k e.space addr) :
    ∃ space' : Space, space'.byte = e.space.byte ∧ e.space.Opened space' ∧
      e.space.SameLoads k space' ∧
      readMem k buf addr PAGE_SZ e =
        .ok (looked k addr, fill buf 0 4096 (window e.space.byte addr))
          { e with space := space' } := by
  obtain ⟨m', hbyte, hopened, hloads, hread⟩ := memRead_buffered (s := ⟨buf, e.space⟩) h
  exact ⟨m', hbyte, hopened, hloads, by rw [readMem, hread]⟩

/-- `mem_read` of a buffer whose pages do not allow that. -/
theorem readMem_not_buffered (buf : Nat → Byte) (h : ¬ Buffered k e.space addr) :
    (∃ e', readMem k buf addr PAGE_SZ e = .error .crash e') ∨
      ∃ r buf' space', r ≤ 0 ∧ e.space.SameLoads k space' ∧
        readMem k buf addr PAGE_SZ e = .ok (r, buf') { e with space := space' } := by
  rcases memRead_not_buffered (s := ⟨buf, e.space⟩) h with
    ⟨s', hread⟩ | ⟨r, s', hr, hloads, hread⟩
  · exact Or.inl ⟨_, by rw [readMem, hread]⟩
  · exact Or.inr ⟨r, s'.buf, s'.space, hr, hloads, by rw [readMem, hread]⟩

/-- The control-flow instruction is in the page. -/
theorem opcodesCflowAux_found (fuel : Nat) (hne : saved ≠ -1)
    (hread : readMem k (fun _ => 0) addr PAGE_SZ e = .ok (saved, buf) { e with space := space' })
    (hscan : scanLoop cs buf addr saved.toNat 4097 0 4096 true e.currSyscall =
      .ok (.found n flag)) :
    opcodesCflowAux k cs (fuel + 1) addr true e =
      .ok n { e with space := space', currSyscall := flag } := by
  rw [opcodesCflowAux, if_neg (by simp), Exec.bind_of_ok hread]
  simp only [hne, if_false]
  rw [Exec.bind_of_ok (Exec.get_apply _), hscan]
  rfl

/-- The page is used up, and the recursive call goes on. -/
theorem opcodesCflowAux_ended (fuel : Nat) (hne : saved ≠ -1)
    (hread : readMem k (fun _ => 0) addr PAGE_SZ e = .ok (saved, buf) { e with space := space' })
    (hscan : scanLoop cs buf addr saved.toNat 4097 0 4096 true e.currSyscall =
      .ok (.ended n flag))
    (hn : 0 < n) :
    opcodesCflowAux k cs (fuel + 1) addr true e =
      (do
        let rest ← opcodesCflowAux k cs fuel (addr + BitVec.ofNat 64 n) true
        return (n + rest : Int).bmod (2 ^ 32) : Eng Int)
        { e with space := space', currSyscall := flag } := by
  have hne0 : (n != 0) = true := by simpa using Nat.pos_iff_ne_zero.mp hn
  rw [opcodesCflowAux, if_neg (by simp), Exec.bind_of_ok hread]
  simp only [hne, if_false]
  rw [Exec.bind_of_ok (Exec.get_apply _), hscan]
  simp only
  rw [Exec.bind_of_ok (Exec.modify_apply _ _), if_pos (by simp [hne0])]

/-- A scan stops where a buffer cannot be read. -/
theorem opcodesCflowAux_not_buffered (fuel : Nat) (h : ¬ Buffered k e.space addr) :
    ∃ halt e', (halt = .crash ∨ halt = .fatal) ∧
      opcodesCflowAux k cs (fuel + 1) addr true e = .error halt e' := by
  rcases readMem_not_buffered (fun _ => 0) h with
    ⟨e', hread⟩ | ⟨r, buf', space', hr, -, hread⟩
  · exact ⟨.crash, e', Or.inl rfl, by
      rw [opcodesCflowAux, if_neg (by simp), Exec.bind_of_error hread]⟩
  · rw [opcodesCflowAux, if_neg (by simp), Exec.bind_of_ok hread]
    by_cases hminus : r = -1
    · obtain ⟨e', hstop, -⟩ := fatalDump_stops (α := PUnit) { e with space := space' }
      refine ⟨.fatal, e', Or.inr rfl, ?_⟩
      simp only [hminus, if_true]
      rw [Exec.bind_of_error hstop]
    · have hzero : r.toNat = 0 := by omega
      obtain ⟨e', hstop, -⟩ := fatalDump_stops (α := Int) { e with space := space' }
      refine ⟨.fatal, e', Or.inr rfl, ?_⟩
      simp only [hminus, if_false]
      rw [Exec.bind_of_ok (Exec.get_apply _), hzero, scanLoop_empty]
      exact hstop

end Turn

/-- The scan of a block: it returns when the pages allow its buffers, and stops otherwise. -/
private theorem opcodesCflowAux_cases (k : Kernel) (cs : Capstone) :
    ∀ (fuel d : Nat) (addr : Word) (e : Engine), d < fuel →
      FirstCflow cs e.space.byte addr e.currSyscall d →
      (ScanReads k cs e.space addr e.currSyscall ∧
        ∃ space' : Space, space'.byte = e.space.byte ∧ e.space.Opened space' ∧
          opcodesCflowAux k cs fuel addr true e =
            .ok ((d : Int).bmod (2 ^ 32)) { e with space := space', currSyscall := false }) ∨
      ¬ ScanReads k cs e.space addr e.currSyscall ∧
        ∃ halt e', (halt = .crash ∨ halt = .fatal) ∧
          opcodesCflowAux k cs fuel addr true e = .error halt e' := by
  intro fuel
  induction fuel with
  | zero =>
    intro d addr e hfuel
    omega
  | succ fuel ih =>
    intro d addr e hfuel hd
    by_cases hb : Buffered k e.space addr
    · obtain ⟨space₁, hbyte, hopened, hloads, hread⟩ := readMem_buffered (fun _ => 0) hb
      have hne : (looked k addr : Int) ≠ -1 := by omega
      have hbuf : ∀ j, j < 4096 → fill (fun _ => 0) 0 4096 (window e.space.byte addr) j =
          window e.space.byte addr j := fun j hj => fill_of_lt hj
      rcases scanLoop_fresh (k := k) hbuf hd with
        ⟨hscan, hlt, hfound⟩ | ⟨n, d', hn, hsum, hrest, hscan, hend⟩
      · have hlooked : looked k addr ≤ 4096 := by
          unfold looked
          split_ifs <;> omega
        have hmod : (d : Int).bmod (2 ^ 32) = d := Int.bmod_eq_of_le (by omega) (by omega)
        rw [hmod]
        exact Or.inl ⟨⟨hb, hscan⟩, space₁, hbyte, hopened,
          opcodesCflowAux_found fuel hne hread hfound⟩
      · -- The buffer is used up: the recursive call walks the rest of the distance.
        have hturn := opcodesCflowAux_ended fuel hne hread hend hn
        have hreads : ScanReads k cs e.space addr e.currSyscall ↔
            ScanReads k cs space₁ (addr + BitVec.ofNat 64 n) false := by
          rw [ScanReads.congr hbyte hloads, ← hscan]
          exact ⟨fun h => h.scannable, fun h => ⟨hb, h⟩⟩
        rw [hturn, hreads]
        rcases ih d' (addr + BitVec.ofNat 64 n)
          { e with space := space₁, currSyscall := false } (by omega)
          (by rw [hbyte]; exact hrest) with
          ⟨hok, space₂, hbyte₂, hopened₂, hrun⟩ | ⟨hbad, halt, e', hhalt, hrun⟩
        · refine Or.inl ⟨hok, space₂, hbyte₂.trans hbyte, hopened.trans hopened₂, ?_⟩
          have hmod : ((n : Int) + (d' : Int).bmod (2 ^ 32)).bmod (2 ^ 32) =
              (d : Int).bmod (2 ^ 32) := by
            rw [Int.add_bmod_bmod, ← hsum, Nat.cast_add]
          rw [← hmod, Exec.bind_of_ok hrun]
          rfl
        · exact Or.inr ⟨hbad, halt, e', hhalt, Exec.bind_of_error hrun⟩
    · exact Or.inr ⟨fun h => hb h.buffered, opcodesCflowAux_not_buffered fuel hb⟩

section Scan

variable {k : Kernel} {cs : Capstone} {addr : Word} {e : Engine} {d : Nat}

/-- The scan of any block whose buffers can be read ends.  Its result is the offset as an
`int`. -/
theorem opcodesCflow_bmod (hd : FirstCflow cs e.space.byte addr e.currSyscall d)
    (hle : d ≤ 2 ^ 64) (hreads : ScanReads k cs e.space addr e.currSyscall) :
    ∃ space' : Space, space'.byte = e.space.byte ∧ e.space.Opened space' ∧
      opcodesCflow k cs addr true e =
        .ok ((d : Int).bmod (2 ^ 32)) { e with space := space', currSyscall := false } := by
  rcases opcodesCflowAux_cases k cs (2 ^ 64 + 1) d addr e (Nat.lt_succ_of_le hle) hd with
    ⟨-, hrun⟩ | ⟨hbad, -⟩
  · exact hrun
  · exact absurd hreads hbad

/-- A scan that returns has returned the offset as an `int`. -/
theorem opcodesCflow_of_ok (hd : FirstCflow cs e.space.byte addr e.currSyscall d)
    (hle : d ≤ 2 ^ 64) {n : Int} {e' : Engine} (run : opcodesCflow k cs addr true e = .ok n e') :
    n = (d : Int).bmod (2 ^ 32) := by
  rw [opcodesCflow] at run
  rcases opcodesCflowAux_cases k cs (2 ^ 64 + 1) d addr e (Nat.lt_succ_of_le hle) hd with
    ⟨-, space', -, -, hok⟩ | ⟨-, halt, e₁, -, hstop⟩
  · exact (EStateM.Result.ok.inj (run.symm.trans hok)).1
  · cases run.symm.trans hstop

/-- What `opcodes_cflow` owes: it ends, returns the offset of the first control-flow
instruction and clears `curr_syscall`. -/
def ScansBlock (k : Kernel) (cs : Capstone) (addr : Word) (d : Nat) (e : Engine) : Prop :=
  ∃ space' : Space, space'.byte = e.space.byte ∧
    opcodesCflow k cs addr true e =
      .ok (d : Int) { e with space := space', currSyscall := false }

/-- The scan returns the offset of the first control-flow instruction, for every number of
buffers and recursive calls, exactly when the pages allow the buffers that it reads. -/
theorem opcodesCflow_eq_iff (hd : FirstCflow cs e.space.byte addr e.currSyscall d)
    (hsmall : d < 2 ^ 31) :
    ScansBlock k cs addr d e ↔ ScanReads k cs e.space addr e.currSyscall := by
  have hmod : (d : Int).bmod (2 ^ 32) = d := Int.bmod_eq_of_le (by omega) (by omega)
  rcases opcodesCflowAux_cases k cs (2 ^ 64 + 1) d addr e (by omega) hd with
    ⟨hreads, space', hbyte, -, hrun⟩ | ⟨hbad, halt, e', -, hrun⟩
  · rw [hmod] at hrun
    exact ⟨fun _ => hreads, fun _ => ⟨space', hbyte, hrun⟩⟩
  · refine ⟨?_, fun h => absurd h hbad⟩
    rintro ⟨space', -, hok⟩
    rw [opcodesCflow, hrun] at hok
    cases hok

end Scan

/-- Two pages full of `nop`, with a `ret` at one address. -/
def retAt (addr : Word) : Space where
  byte a := if a = addr then 0xc3 else 0x90
  prot := mappedBetween 0x400000 0x402000 ⟨true, false, true⟩

/-- `nop; nop; ret` across a page boundary. -/
theorem opcodesCflow_eq_iff_nop_ret :
    ScansBlock (Kernel.between 0x400000 0x402000) scanEncodings.capstone 0x400ffe 2
      (Engine.fresh (retAt 0x401000)) := by
  have hd : FirstCflow scanEncodings.capstone (retAt 0x401000).byte 0x400ffe false 2 :=
    .next (i := nop) (d := 1) (by decide) (by decide)
      (.next (i := nop) (d := 0) (by decide) (by decide)
        (.here (i := nearRet) (by decide) rfl))
  refine (opcodesCflow_eq_iff (e := Engine.fresh (retAt 0x401000)) hd (by decide)).mpr ?_
  exact .of_pages hd fun i hi => between_reads (by decide) (by decide) rfl
    (by simp; omega)

/-- `nop; ret` in the last page that is mapped, and not at its beginning: the buffer reaches
into the next page. -/
theorem opcodesCflow_dies_past_block :
    FirstCflow scanEncodings.capstone (retAt 0x401801).byte 0x401800 false 1 ∧
      ¬ ScansBlock (Kernel.between 0x400000 0x402000) scanEncodings.capstone 0x401800 1
        (Engine.fresh (retAt 0x401801)) := by
  refine ⟨.next (i := nop) (d := 0) (by decide) (by decide)
    (.here (i := nearRet) (by decide) rfl), ?_⟩
  rintro ⟨space', -, hrun⟩
  have hlast : ¬ Buffered (Kernel.between 0x400000 0x402000) (retAt 0x401801) 0x401800 :=
    fun h => absurd h.last (by decide)
  obtain ⟨halt, e', -, hstop⟩ : ∃ halt e', (halt = .crash ∨ halt = .fatal) ∧
      opcodesCflowAux (Kernel.between 0x400000 0x402000) scanEncodings.capstone (2 ^ 64 + 1)
        0x401800 true (Engine.fresh (retAt 0x401801)) = .error halt e' :=
    opcodesCflowAux_not_buffered (2 ^ 64) hlast
  rw [opcodesCflow, hstop] at hrun
  cases hrun

end Dryadalis
