import Dryadalis.Registers

/-!
# Decoded instructions and the disassembler

The engine never looks at instruction bytes itself: it hands them to Capstone
and reads the number, the size, the groups and the operands of the result.
Capstone is not part of the repository, so it is a parameter here.  The
structure `Capstone` holds a decoder for instruction bytes together with the
facts the engine relies on:

* an instruction is 1 to 15 bytes long and lies inside the bytes given;
* decoding depends only on the instruction's own bytes.

A truncated instruction then does not decode, which is `decode_take_eq_none`.

The address passed to `cs_disasm` only matters for a relative branch, whose
immediate is the absolute target.  `Insn.rel` is the displacement of such a
branch, and `Insn.atAddr` is the operand list Capstone reports at an address.
-/

namespace Dryadalis

open ByteMem

/-! ## Instructions -/

/-- The instruction groups the engine tests.  `other` stands for the groups
that it never compares with, such as the processor modes and extensions. -/
inductive Group where
  | JUMP | CALL | RET | INT | IRET | PRIVILEGE | BRANCH_RELATIVE | VM
  | other (n : Nat)
  deriving DecidableEq, Repr

/-- The instruction numbers the engine tests, and those the native branch
semantics names. -/
inductive InsnId where
  | JE | JNE | JA | JAE | JB | JBE | JCXZ | JECXZ | JRCXZ | JG | JGE | JL | JLE
  | JO | JNO | JP | JNP | JS | JNS | JMP | CALL | RET | SYSCALL
  | other (n : Nat)
  deriving DecidableEq, Repr

/-- `x86_op_mem`.  A register that the operand does not have is `INVALID`. -/
structure MemOp where
  segment : X86Reg
  base : X86Reg
  index : X86Reg
  scale : Int
  disp : Word
  deriving DecidableEq

/-- `cs_x86_op`.  `invalid` is the type of an operand slot that Capstone left
at zero. -/
inductive Operand where
  | invalid
  | reg (r : X86Reg)
  | imm (v : Word)
  | mem (m : MemOp)
  deriving DecidableEq

/-- `cs_insn` with its detail.  `rel` is the displacement of a relative branch,
counted from the next instruction. -/
structure Insn where
  id : InsnId
  size : Nat
  groups : List Group
  operands : List Operand
  rel : Option Word
  deriving DecidableEq

/-- The size as the `uint64_t` it is added to. -/
def Insn.len (i : Insn) : Word := BitVec.ofNat 64 i.size

/-- The instruction as Capstone reports it at `addr`: the operand of a relative
branch is the immediate `addr + size + rel`. -/
def Insn.atAddr (i : Insn) (addr : Word) : Insn :=
  match i.rel with
  | none => i
  | some r => { i with operands := [.imm (addr + i.len + r)] }

@[simp] theorem Insn.atAddr_id (i : Insn) (addr : Word) : (i.atAddr addr).id = i.id := by
  unfold Insn.atAddr
  split <;> rfl

@[simp] theorem Insn.atAddr_size (i : Insn) (addr : Word) : (i.atAddr addr).size = i.size := by
  unfold Insn.atAddr
  split <;> rfl

@[simp] theorem Insn.atAddr_groups (i : Insn) (addr : Word) :
    (i.atAddr addr).groups = i.groups := by
  unfold Insn.atAddr
  split <;> rfl

@[simp] theorem Insn.atAddr_len (i : Insn) (addr : Word) : (i.atAddr addr).len = i.len := by
  rw [Insn.len, Insn.atAddr_size, Insn.len]

/-- `operands[0]` -/
def Insn.operand (i : Insn) : Operand := i.operands.headD .invalid

/-! ## The disassembler -/

/-- Capstone, as the engine uses it. -/
structure Capstone where
  decode : List Byte → Option Insn
  size_pos : ∀ {bs i}, decode bs = some i → 0 < i.size
  size_le : ∀ {bs i}, decode bs = some i → i.size ≤ 15
  size_fits : ∀ {bs i}, decode bs = some i → i.size ≤ bs.length
  own_bytes : ∀ {bs bs' i}, decode bs = some i → bs'.take i.size = bs.take i.size →
    decode bs' = some i

/-- `cs_disasm` and `cs_disasm_iter`, for the first instruction of a buffer. -/
def Capstone.disasm (cs : Capstone) (addr : Word) (bs : List Byte) : Option Insn :=
  (cs.decode bs).map (·.atAddr addr)

/-- The instruction in memory at `a`. -/
def Capstone.decodeAt (cs : Capstone) (m : Word → Byte) (a : Word) : Option Insn :=
  cs.decode (bytesAt m a 15)

/-- A truncated instruction does not decode. -/
theorem Capstone.decode_take_eq_none (cs : Capstone) {bs : List Byte} {i : Insn} {k : Nat}
    (h : cs.decode bs = some i) (hk : k < i.size) : cs.decode (bs.take k) = none := by
  cases hd : cs.decode (bs.take k) with
  | none => rfl
  | some j =>
    have hfit : j.size ≤ (bs.take k).length := cs.size_fits hd
    have hlen : (bs.take k).length ≤ k := by simp
    have hown : bs.take j.size = (bs.take k).take j.size := by
      rw [List.take_take, Nat.min_eq_left (by omega)]
    have hj : cs.decode bs = some j := cs.own_bytes hd hown
    have hij : i = j := Option.some.inj (h.symm.trans hj)
    subst hij
    omega

/-- A buffer that starts at `a` decodes to the instruction at `a` as soon as it
is long enough to hold it, and to nothing before that. -/
theorem Capstone.decode_bytesAt (cs : Capstone) {m : Word → Byte} {a : Word} {i : Insn}
    (h : cs.decodeAt m a = some i) (n : Nat) :
    cs.decode (bytesAt m a n) = if i.size ≤ n then some i else none := by
  have h15 : i.size ≤ 15 := cs.size_le h
  split
  · rename_i hn
    apply cs.own_bytes h
    rw [bytesAt_take m a hn, bytesAt_take m a h15]
  · rename_i hn
    have htake : bytesAt m a n = (bytesAt m a 15).take n := (bytesAt_take m a (by omega)).symm
    rw [htake]
    exact cs.decode_take_eq_none h (by omega)

/-- Fifteen bytes are enough, and more do not change the instruction. -/
theorem Capstone.decode_bytesAt_of_le (cs : Capstone) (m : Word → Byte) (a : Word) {n : Nat}
    (hn : 15 ≤ n) : cs.decode (bytesAt m a n) = cs.decodeAt m a := by
  cases hi : cs.decodeAt m a with
  | some i => rw [cs.decode_bytesAt hi, if_pos (Nat.le_trans (cs.size_le hi) hn)]
  | none =>
    cases hj : cs.decode (bytesAt m a n) with
    | none => rfl
    | some j =>
      have hsize : j.size ≤ 15 := cs.size_le hj
      have hown : cs.decodeAt m a = some j := by
        apply cs.own_bytes hj
        rw [bytesAt_take m a hsize, bytesAt_take m a (Nat.le_trans hsize hn)]
      rw [hi] at hown
      cases hown

/-- Decoding depends only on the bytes of the instruction. -/
theorem Capstone.decodeAt_congr (cs : Capstone) {m m' : Word → Byte} {a : Word} {i : Insn}
    (h : cs.decodeAt m a = some i)
    (hm : ∀ j, j < i.size → window m' a j = window m a j) : cs.decodeAt m' a = some i := by
  have h15 : i.size ≤ 15 := cs.size_le h
  apply cs.own_bytes h
  rw [bytesAt_take m' a h15, bytesAt_take m a h15]
  exact bytesAt_congr hm

/-! ## Disassemblers for a few encodings -/

/-- Some encodings with their instructions, none of which is the beginning of
another one. -/
structure Encodings where
  entries : List (List Byte × Insn)
  length_eq : ∀ x ∈ entries, x.1.length = x.2.size
  size_pos : ∀ x ∈ entries, 0 < x.2.size
  size_le : ∀ x ∈ entries, x.2.size ≤ 15
  prefixFree : ∀ x ∈ entries, ∀ y ∈ entries, x.1 <+: y.1 → x = y

namespace Encodings

/-- The instruction whose encoding starts `bs`. -/
def decode (t : Encodings) (bs : List Byte) : Option Insn :=
  (t.entries.find? fun x => x.1.isPrefixOf bs).map (·.2)

theorem exists_of_decode {t : Encodings} {bs : List Byte} {i : Insn} (h : t.decode bs = some i) :
    ∃ x ∈ t.entries, x.1 <+: bs ∧ x.2 = i := by
  rw [decode, Option.map_eq_some_iff] at h
  obtain ⟨x, hx, hi⟩ := h
  have hpre := List.find?_some hx
  exact ⟨x, List.mem_of_find?_eq_some hx, List.isPrefixOf_iff_prefix.mp hpre, hi⟩

/-- At most one encoding starts a list of bytes, so the order of the entries
does not matter. -/
theorem decode_of_mem {t : Encodings} {bs : List Byte} {x : List Byte × Insn}
    (hx : x ∈ t.entries) (hpre : x.1 <+: bs) : t.decode bs = some x.2 := by
  cases hfind : t.entries.find? fun x => x.1.isPrefixOf bs with
  | none =>
    have hno := List.find?_eq_none.mp hfind x hx
    exact absurd (List.isPrefixOf_iff_prefix.mpr hpre) (by simpa using hno)
  | some y =>
    have hy : y ∈ t.entries := List.mem_of_find?_eq_some hfind
    have hfound := List.find?_some hfind
    have hypre : y.1 <+: bs := List.isPrefixOf_iff_prefix.mp hfound
    have hxy : x = y := by
      rcases List.prefix_or_prefix_of_prefix hpre hypre with hp | hp
      · exact t.prefixFree x hx y hy hp
      · exact (t.prefixFree y hy x hx hp).symm
    rw [decode, hfind, hxy]
    rfl

/-- The disassembler that knows exactly these encodings. -/
def capstone (t : Encodings) : Capstone where
  decode := t.decode
  size_pos h := by
    obtain ⟨x, hx, -, rfl⟩ := exists_of_decode h
    exact t.size_pos x hx
  size_le h := by
    obtain ⟨x, hx, -, rfl⟩ := exists_of_decode h
    exact t.size_le x hx
  size_fits h := by
    obtain ⟨x, hx, hpre, rfl⟩ := exists_of_decode h
    rw [← t.length_eq x hx]
    exact hpre.length_le
  own_bytes h htake := by
    obtain ⟨x, hx, hpre, rfl⟩ := exists_of_decode h
    apply decode_of_mem hx
    rw [List.prefix_iff_eq_take] at hpre ⊢
    rw [t.length_eq x hx] at hpre ⊢
    rw [htake]
    exact hpre

/-- It decodes an encoding that the memory has at an address. -/
theorem decodeAt_of_mem {t : Encodings} {x : List Byte × Insn} (hx : x ∈ t.entries)
    {m : Word → Byte} {a : Word} (h : bytesAt m a x.1.length = x.1) :
    t.capstone.decodeAt m a = some x.2 := by
  have hlen : x.1.length ≤ 15 := by
    rw [t.length_eq x hx]
    exact t.size_le x hx
  apply decode_of_mem hx
  rw [List.prefix_iff_eq_take, bytesAt_take m a hlen]
  exact h.symm

end Encodings

end Dryadalis
