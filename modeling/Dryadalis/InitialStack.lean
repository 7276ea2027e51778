import Dryadalis.Auxv
import Dryadalis.StubLayout

/-!
# The stack that the guest starts with

`setup_stack` maps `STACK_SZ` bytes, and builds the stack of a new process in the upper
half: the argument count, the arguments, the environment and the auxiliary vector.  One
index runs through the vectors of the host and through the new stack at the same time; the
copies end at a null pointer of the source, and nothing is compared with the size of the
mapping.

The words of the mapping are `StackMem.words`, from its first byte on.  `above` is whatever
memory follows the mapping.  `setupStack_run` is the run of `setup_stack` wherever there is
room for what it writes.  Both results are read off it: the contents of the new stack
(`setupStack_contents`), and when all of it is inside the mapping (`setupStack_inside_iff`).
-/

namespace Dryadalis

open Exec

/-! ## The vectors of the host -/

/-- What the kernel has put on the stack of the host: `argv` and `envp`, with a null pointer
after each, and the auxiliary vector, which has a zero word at its end at the latest. -/
structure ProcVectors where
  argv : List Word
  envp : List Word
  auxv : List Word
  argv_ne : ∀ w ∈ argv, w ≠ 0
  envp_ne : ∀ w ∈ envp, w ≠ 0
  auxv_end : 0 ∈ auxv

/-- The words from `argv` on. -/
def ProcVectors.words (v : ProcVectors) : List Word := v.argv ++ 0 :: (v.envp ++ 0 :: v.auxv)

/-- What `setup_stack` reads of the binary.  `interpBase` is there if an interpreter is
loaded, and `random` and `sArch` are the addresses of two variables. -/
structure StackBinary where
  pie : Bool
  base : Word
  eEntry : Word
  fd : BitVec 32
  ePhentsize : BitVec 16
  ePhnum : BitVec 16
  ePhoff : Word
  interpBase : Option Word
  random : Word
  sArch : Word
  random_ne : random ≠ 0
  sArch_ne : sArch ≠ 0

/-! ## The auxiliary vector -/

def AT_NULL : Word := 0
def AT_EXECFD : Word := 2
def AT_PHDR : Word := 3
def AT_PHENT : Word := 4
def AT_PHNUM : Word := 5
def AT_PAGESZ : Word := 6
def AT_BASE : Word := 7
def AT_ENTRY : Word := 9
def AT_UID : Word := 11
def AT_EUID : Word := 12
def AT_GID : Word := 13
def AT_EGID : Word := 14
def AT_PLATFORM : Word := 15
def AT_SECURE : Word := 23
def AT_RANDOM : Word := 25
def AT_EXECFN : Word := 31

/-- The pairs that `setup_stack` adds before `AT_NULL`, in the order of the calls. -/
def auxEntries (b : StackBinary) (execfn : Word) : List (Word × Word) :=
  [(AT_ENTRY, if b.pie then b.base + b.eEntry else b.eEntry),
    (AT_EXECFD, b.fd.signExtend 64),
    (AT_PHENT, b.ePhentsize.setWidth 64),
    (AT_PHNUM, b.ePhnum.setWidth 64),
    (AT_BASE, b.interpBase.getD b.base),
    (AT_RANDOM, b.random),
    (AT_PHDR, b.base + b.ePhoff),
    (AT_PLATFORM, b.sArch),
    (AT_EGID, 1000),
    (AT_EUID, 1000),
    (AT_GID, 1000),
    (AT_UID, 1000),
    (AT_PAGESZ, 0x1000),
    (AT_EXECFN, execfn),
    (AT_SECURE, 0)]

/-! ## The functions of the source -/

/-- The words of the mapping. -/
def STACK_WORDS : Nat := Stub.STACK_SZ / 8

/-- The index of the word that `map_stack` returns a pointer to. -/
def STACK_TOP : Nat := 0x5000

theorem STACK_WORDS_eq : STACK_WORDS = STACK_TOP + 0x5000 := rfl

/-- `map_stack`, with the address that `mmap` returns. -/
def mapStack (r : Word) : Word := if r = minusOne then minusOne else r + 0x28000

/-- `map_val` -/
def mapVal : List Word → Nat → Stk Unit
  | [], _ => throw .segv
  | w :: arg, stack => do
    if w = 0 then
      return ()
    storeWord stack w
    mapVal arg (stack + 1)

/-- The loop `for ( ; iter[idx]; idx++)`, over the words from `idx` on. -/
def skipToNull : List Word → Nat → Stk Nat
  | [], _ => throw .segv
  | w :: iter, idx => if w = 0 then return idx else skipToNull iter (idx + 1)

/-- `iter[i]` -/
def iterWord (iter : List Word) (i : Nat) : Stk Word :=
  match iter[i]? with
  | some w => return w
  | none => throw .segv

/-- `setup_stack`.  An `int` index overflows only after a word outside the mapping has been
written. -/
def setupStack (iter : List Word) (b : StackBinary) (argc : BitVec 32) (r : Word) : Stk Word := do
  let stack := mapStack r
  if stack = minusOne then
    return minusOne
  modify fun m => { m with rsp := stack, baseGuestStack := stack - 0x200000 }
  storeWord STACK_TOP ((argc - 1).signExtend 64)
  mapVal (iter.drop 1) (STACK_TOP + 1)
  let argvEnd ← skipToNull (iter.drop 1) 1
  let idx := argvEnd + 1
  mapVal (iter.drop idx) (STACK_TOP + idx)
  let envpEnd ← skipToNull (iter.drop idx) idx
  let idx := envpEnd + 1
  let execfn ← iterWord iter 1
  addAuxvts (STACK_TOP + idx) (auxEntries b execfn)
  addAuxvt AT_NULL (STACK_TOP + idx) 0
  return stack

/-! ## Filling zero words -/

/-- The registers of the guest that `setup_stack` sets. -/
def StackMem.regs (m : StackMem) : Word × Word := (m.rsp, m.baseGuestStack)

/-- The memory starts with `ws`, which is all that was written, and `r` zero words. -/
structure Filled (m : StackMem) (ws : List Word) (r : Nat) (post : List Word) : Prop where
  words : m.words = ws ++ (List.replicate r 0 ++ post)
  written : ∀ i ∈ m.written, i < ws.length

section Fill

variable {m : StackMem} {ws as rest post : List Word} {r i : Nat}

/-- A word that is skipped stays zero. -/
theorem Filled.skip (h : Filled m ws (r + 1) post) : Filled m (ws ++ [0]) r post := by
  refine ⟨?_, fun i hi => ?_⟩
  · rw [h.words, List.replicate_succ, List.append_assoc]
    rfl
  · have hlt := h.written i hi
    rw [List.length_append]
    omega

theorem storeWord_filled (h : Filled m ws (r + 1) post) (hi : i = ws.length) (w : Word) :
    ∃ m', storeWord i w m = .ok () m' ∧ Filled m' (ws ++ [w]) r post ∧ m'.regs = m.regs := by
  subst hi
  refine ⟨_, storeWord_at w h.words rfl, ⟨?_, ?_⟩, rfl⟩
  · rw [List.append_assoc]
    rfl
  · intro i hi
    rw [List.length_append, List.length_singleton]
    rcases List.mem_cons.1 hi with rfl | hi
    · exact Nat.lt_succ_self _
    · exact Nat.lt_succ_of_lt (h.written i hi)

/-- A copy ends at the null pointer, and appends what is before it. -/
theorem mapVal_filled (rest : List Word) (has : ∀ w ∈ as, w ≠ 0)
    (h : Filled m ws (r + as.length) post) (hi : i = ws.length) :
    ∃ m', mapVal (as ++ 0 :: rest) i m = .ok () m' ∧ Filled m' (ws ++ as) r post ∧
      m'.regs = m.regs := by
  induction as generalizing m ws i with
  | nil =>
    rw [List.append_nil]
    exact ⟨m, rfl, h, rfl⟩
  | cons w as ih =>
    obtain ⟨m₁, hstore, hfilled, hregs⟩ := storeWord_filled h hi w
    have hi' : i + 1 = (ws ++ [w]).length := by
      rw [List.length_append, List.length_singleton, hi]
    obtain ⟨m₂, hrun, hfilled₂, hregs₂⟩ :=
      ih (fun x hx => has x (List.mem_cons_of_mem w hx)) hfilled hi'
    rw [List.append_assoc, List.singleton_append] at hfilled₂
    refine ⟨m₂, ?_, hfilled₂, hregs₂.trans hregs⟩
    rw [List.cons_append, mapVal, if_neg (has w List.mem_cons_self)]
    exact (bind_of_ok hstore).trans hrun

theorem skipToNull_run (has : ∀ w ∈ as, w ≠ 0) (i : Nat) :
    skipToNull (as ++ 0 :: rest) i m = .ok (i + as.length) m := by
  induction as generalizing i with
  | nil => rfl
  | cons w as ih =>
    rw [List.cons_append, skipToNull, if_neg (has w List.mem_cons_self),
      ih fun x hx => has x (List.mem_cons_of_mem w hx)]
    rw [List.length_cons, Nat.add_right_comm, Nat.add_assoc]

end Fill

/-! ## The auxiliary vector of the guest -/

theorem auxEntries_id (b : StackBinary) (execfn : Word) :
    ∀ p ∈ auxEntries b execfn, p.1 ≠ 0 := by
  simp [auxEntries, AT_ENTRY, AT_EXECFD, AT_PHENT, AT_PHNUM, AT_BASE, AT_RANDOM, AT_PHDR,
    AT_PLATFORM, AT_EGID, AT_EUID, AT_GID, AT_UID, AT_PAGESZ, AT_EXECFN, AT_SECURE]

theorem packed_ne_zero {ps : List (Word × Word)} (hid : ∀ p ∈ ps, p.1 ≠ 0) :
    ∀ w ∈ packed ps, w ≠ 0 := by
  intro w hw
  obtain ⟨p, hp, hw⟩ := List.mem_flatMap.1 hw
  exact packedEntry_ne_zero (hid p hp) w hw

/-- The calls of `add_auxvt`, with the one for `AT_NULL`. -/
theorem addAuxvts_filled {m : StackMem} {ws post : List Word} {r base : Nat}
    {ps : List (Word × Word)} (hid : ∀ p ∈ ps, p.1 ≠ 0) (hlen : ps.length ≤ 15)
    (h : Filled m ws (r + ((packed ps).length + 2)) post) (hbase : base = ws.length) :
    ∃ m', (addAuxvts base ps >>= fun _ => addAuxvt AT_NULL base 0) m = .ok () m' ∧
      m'.words = ws ++ (packed ps ++ (List.replicate (r + 2) 0 ++ post)) ∧
      (∀ i ∈ m'.written, i < base + ((packed ps).length + 2)) ∧
      base + (packed ps).length + 1 ∈ m'.written ∧ m'.regs = m.regs := by
  have hextent := extent_bounds ps
  have hle := extent_le ps
  have hwords : m.words =
      ws ++ ([] ++ (List.replicate (r + ((packed ps).length + 2)) 0 ++ post)) := h.words
  obtain ⟨js, hrun, hjs⟩ := addAuxvts_run hbase hid hwords
    (fun w hw => absurd hw List.not_mem_nil) (by omega)
    (by rw [List.length_nil, INT_MAX]; omega)
  have hroom : r + ((packed ps).length + 2) - (packed ps).length = r + 2 := by omega
  rw [List.nil_append, hroom] at hrun
  have hnull := addAuxvt_at (l := packed ps) AT_NULL 0
    (m := { m with
      words := ws ++ (packed ps ++ (List.replicate (r + 2) 0 ++ post))
      written := js ++ m.written })
    rfl hbase (packed_ne_zero hid) (by rw [INT_MAX]; omega)
  refine ⟨_, (bind_of_ok hrun).trans hnull, rfl, ?_, ?_, rfl⟩
  · intro i hi
    rw [List.length_nil] at hjs
    rcases List.mem_cons.1 hi with rfl | hi
    · omega
    · rcases List.mem_cons.1 hi with rfl | hi
      · omega
      · rcases List.mem_append.1 hi with hi | hi
        · have hlt := hjs i hi
          omega
        · have hlt := h.written i hi
          omega
  · rw [Nat.add_assoc]
    exact List.mem_cons_self

/-! ## The run -/

section Setup

variable {w₀ r : Word} {as bs rest : List Word} {argc : BitVec 32}

/-- The words on the new stack, up to the end of the auxiliary vector. -/
def stackFrame (argc : BitVec 32) (as bs : List Word) (ps : List (Word × Word)) : List Word :=
  (argc - 1).signExtend 64 :: (as ++ 0 :: (bs ++ 0 :: packed ps))

theorem stackFrame_length (ps : List (Word × Word)) :
    (stackFrame argc as bs ps).length = as.length + bs.length + 3 + (packed ps).length := by
  simp [stackFrame]
  omega

theorem iterWord_one {m : StackMem} : iterWord (w₀ :: (as ++ 0 :: rest)) 1 m =
    .ok (as.headD 0) m := by
  cases as <;> rfl

/-- `setup_stack` over a source of two stretches that end with a null pointer, when the zero
words from `STACK_TOP` on have room for the frame and for the pair of `AT_NULL`. -/
theorem setupStack_run (w₀ : Word) (rest : List Word) (b : StackBinary) (argc : BitVec 32)
    (has : ∀ w ∈ as, w ≠ 0) (hbs : ∀ w ∈ bs, w ≠ 0)
    (hr : mapStack r ≠ minusOne) {m : StackMem} {n : Nat} {post : List Word}
    (hm : Filled m (List.replicate STACK_TOP 0)
      (n + ((stackFrame argc as bs (auxEntries b (as.headD 0))).length + 2)) post) :
    ∃ m', setupStack (w₀ :: (as ++ 0 :: (bs ++ 0 :: rest))) b argc r m = .ok (mapStack r) m' ∧
      m'.words = List.replicate STACK_TOP 0 ++
        (stackFrame argc as bs (auxEntries b (as.headD 0)) ++
          (List.replicate (n + 2) 0 ++ post)) ∧
      (∀ i ∈ m'.written,
        i < STACK_TOP + ((stackFrame argc as bs (auxEntries b (as.headD 0))).length + 2)) ∧
      STACK_TOP + (stackFrame argc as bs (auxEntries b (as.headD 0))).length + 1 ∈ m'.written ∧
      m'.regs = (mapStack r, mapStack r - 0x200000) := by
  generalize hps : auxEntries b (as.headD 0) = ps at hm ⊢
  have hid : ∀ p ∈ ps, p.1 ≠ 0 := hps ▸ auxEntries_id b _
  have hlen : ps.length ≤ 15 := by rw [← hps]; exact Nat.le_refl 15
  rw [stackFrame_length] at hm ⊢
  have hm₀ : Filled { m with rsp := mapStack r, baseGuestStack := mapStack r - 0x200000 }
      (List.replicate STACK_TOP 0)
      (n + ((packed ps).length + 2) + 1 + bs.length + 1 + as.length + 1) post := by
    have hsum : n + (as.length + bs.length + 3 + (packed ps).length + 2) =
        n + ((packed ps).length + 2) + 1 + bs.length + 1 + as.length + 1 := by omega
    exact ⟨hsum ▸ hm.words, hm.written⟩
  -- The index of the source is the length of what has been filled.
  have hargv : STACK_TOP + 1 =
      (List.replicate STACK_TOP (0 : Word) ++ [(argc - 1).signExtend 64]).length := by
    simp
  have henvp : STACK_TOP + (1 + as.length + 1) = (List.replicate STACK_TOP (0 : Word) ++
      [(argc - 1).signExtend 64] ++ as ++ [0]).length := by
    simp
    omega
  have hauxv : STACK_TOP + (1 + as.length + 1 + bs.length + 1) = (List.replicate STACK_TOP
      (0 : Word) ++ [(argc - 1).signExtend 64] ++ as ++ [0] ++ bs ++ [0]).length := by
    simp
    omega
  obtain ⟨m₁, hrun₁, hfilled₁, hregs₁⟩ :=
    storeWord_filled hm₀ List.length_replicate.symm ((argc - 1).signExtend 64)
  obtain ⟨m₂, hrun₂, hfilled₂, hregs₂⟩ := mapVal_filled (bs ++ 0 :: rest) has hfilled₁ hargv
  obtain ⟨m₃, hrun₃, hfilled₃, hregs₃⟩ := mapVal_filled rest hbs hfilled₂.skip henvp
  obtain ⟨m₄, hrun₄, hwords, hwritten, htop, hregs₄⟩ :=
    addAuxvts_filled hid hlen hfilled₃.skip hauxv
  obtain ⟨_, m₅, hrun₅, hrun₆⟩ := exists_of_bind_ok hrun₄
  have hdrop : (w₀ :: (as ++ 0 :: (bs ++ 0 :: rest))).drop (1 + as.length + 1) =
      bs ++ 0 :: rest := by
    rw [List.drop_succ_cons, Nat.add_comm 1, List.drop_append]
    simp
  refine ⟨m₄, ?_, ?_, ?_, ?_, ?_⟩
  · unfold setupStack
    simp only [if_neg hr]
    rw [bind_of_ok (modify_apply _ m), bind_of_ok hrun₁, List.drop_one, List.tail_cons,
      bind_of_ok hrun₂, bind_of_ok (skipToNull_run has 1), hdrop, bind_of_ok hrun₃,
      bind_of_ok (skipToNull_run hbs _), bind_of_ok iterWord_one, hps, bind_of_ok hrun₅,
      bind_of_ok hrun₆]
    rfl
  · rw [hwords, stackFrame]
    simp
  · intro i hi
    have hlt := hwritten i hi
    omega
  · have hsum : STACK_TOP + (as.length + bs.length + 3 + (packed ps).length) + 1 =
        STACK_TOP + (1 + as.length + 1 + bs.length + 1) + (packed ps).length + 1 := by
      omega
    rw [hsum]
    exact htop
  · rw [hregs₄, hregs₃, hregs₂, hregs₁]
    rfl

end Setup

/-! ## The contents of the new stack -/

/-- A mapping of zero words, with the words of `above` after it, and a state that is still
cleared. -/
def freshMapping (above : List Word) : StackMem :=
  { words := List.replicate STACK_WORDS 0 ++ above, written := [], rsp := 0, baseGuestStack := 0 }

theorem freshMapping_filled (above : List Word) {n k : Nat} (h : n + k = 0x5000) :
    Filled (freshMapping above) (List.replicate STACK_TOP 0) (n + k) above := by
  refine ⟨?_, fun i hi => absurd hi List.not_mem_nil⟩
  rw [h, ← List.append_assoc, List.replicate_append_replicate, ← STACK_WORDS_eq]
  rfl

/-- The words that the guest finds at `rsp`. -/
def initialStack (v : ProcVectors) (b : StackBinary) : List Word :=
  BitVec.ofNat 64 (v.argv.length - 1) :: (v.argv.tail ++ 0 :: (v.envp ++ 0 ::
    (pairWords (auxEntries b (v.argv.getD 1 0)) ++ [AT_NULL, 0])))

/-- The values that depend on the binary are not zero. -/
structure StackBinary.AuxNonzero (b : StackBinary) : Prop where
  entry : (if b.pie then b.base + b.eEntry else b.eEntry) ≠ 0
  fd : b.fd ≠ 0
  phentsize : b.ePhentsize ≠ 0
  phnum : b.ePhnum ≠ 0
  base : b.interpBase.getD b.base ≠ 0
  phdr : b.base + b.ePhoff ≠ 0

theorem packed_of_nonzero {ps : List (Word × Word)} (h : ∀ p ∈ ps, p.2 ≠ 0) :
    packed ps = pairWords ps := by
  induction ps with
  | nil => rfl
  | cons p ps ih =>
    rw [packed_cons, packedEntry, if_neg (h p List.mem_cons_self),
      ih fun q hq => h q (List.mem_cons_of_mem p hq)]
    rfl

theorem signExtend_ne_zero {x : BitVec 32} (hx : x ≠ 0) : x.signExtend 64 ≠ 0 := by
  intro h
  have hint := congrArg BitVec.toInt h
  rw [BitVec.toInt_signExtend_of_le (by decide)] at hint
  exact hx (BitVec.eq_of_toInt_eq hint)

theorem setWidth_ne_zero {x : BitVec 16} (hx : x ≠ 0) : x.setWidth 64 ≠ 0 := by
  intro h
  have hnat := congrArg BitVec.toNat h
  have hlt := x.isLt
  rw [BitVec.toNat_setWidth, Nat.mod_eq_of_lt (by omega)] at hnat
  exact hx (BitVec.eq_of_toNat_eq hnat)

/-- `AT_SECURE` is the only pair with the value zero. -/
theorem auxEntries_nonzero {b : StackBinary} (hb : b.AuxNonzero) {execfn : Word}
    (hexecfn : execfn ≠ 0) : ∀ p ∈ (auxEntries b execfn).dropLast, p.2 ≠ 0 := by
  simp only [auxEntries, List.dropLast_cons_cons, List.dropLast_singleton, List.forall_mem_cons]
  exact ⟨hb.entry, signExtend_ne_zero hb.fd, setWidth_ne_zero hb.phentsize,
    setWidth_ne_zero hb.phnum, hb.base, b.random_ne, hb.phdr, b.sArch_ne, by decide,
    by decide, by decide, by decide, by decide, hexecfn, fun p hp => absurd hp List.not_mem_nil⟩

/-- The vector as it is in memory, with the zero words after it. -/
theorem packed_auxEntries {b : StackBinary} (hb : b.AuxNonzero) {execfn : Word}
    (hexecfn : execfn ≠ 0) :
    packed (auxEntries b execfn) ++ [0, 0, 0] =
      pairWords (auxEntries b execfn) ++ [AT_NULL, 0] := by
  have hinit : auxEntries b execfn = (auxEntries b execfn).dropLast ++ [(AT_SECURE, 0)] := rfl
  have hpacked := packed_of_nonzero (auxEntries_nonzero hb hexecfn)
  have hlast : ∀ ps : List (Word × Word), packed ps = pairWords ps →
      packed (ps ++ [(AT_SECURE, 0)]) ++ [0, 0, 0] =
        pairWords (ps ++ [(AT_SECURE, 0)]) ++ [AT_NULL, 0] := by
    intro ps h
    simp [packed_append, pairWords_append, packedEntry, h, AT_NULL]
  have h := hlast _ hpacked
  rwa [← hinit] at h

/-- `argc - 1` as a word. -/
theorem argc_word {n : Nat} (hpos : 1 ≤ n) (hn : n < 2 ^ 31) :
    (BitVec.ofNat 32 n - 1).signExtend 64 = BitVec.ofNat 64 (n - 1) := by
  have hnat : (BitVec.ofNat 32 n - 1).toNat = n - 1 := by
    rw [BitVec.toNat_sub, BitVec.toNat_ofNat]
    show (2 ^ 32 - 1 + n % 2 ^ 32) % 2 ^ 32 = n - 1
    omega
  have hmsb : (BitVec.ofNat 32 n - 1).msb = false := by
    rw [BitVec.msb_eq_decide, hnat, decide_eq_false]
    omega
  rw [BitVec.signExtend_eq_setWidth_of_msb_false hmsb]
  apply BitVec.eq_of_toNat_eq
  rw [BitVec.toNat_setWidth, hnat, BitVec.toNat_ofNat]

theorem initialStack_length {v : ProcVectors} (hargc : 1 ≤ v.argv.length) (b : StackBinary) :
    (initialStack v b).length = v.argv.length + v.envp.length + 34 := by
  have hpairs : (pairWords (auxEntries b (v.argv.getD 1 0))).length = 30 := by
    rw [pairWords_length]
    rfl
  rw [initialStack]
  simp only [List.length_cons, List.length_append, List.length_tail, hpairs, List.length_nil]
  omega

/-- The frame that `setup_stack` writes, and the three zero words after it. -/
theorem stackFrame_initial {v : ProcVectors} {b : StackBinary} (hb : b.AuxNonzero) {w₀ : Word}
    {as : List Word} (hv : v.argv = w₀ :: as) (hne : as.headD 0 ≠ 0)
    (hshort : v.argv.length < 2 ^ 31) :
    stackFrame (BitVec.ofNat 32 v.argv.length) as v.envp (auxEntries b (as.headD 0)) ++
      [0, 0, 0] = initialStack v b := by
  have hexecfn : v.argv.getD 1 0 = as.headD 0 := by
    rw [hv]
    cases as <;> rfl
  have hargc : 1 ≤ v.argv.length := by rw [hv]; exact Nat.succ_pos _
  rw [stackFrame, initialStack, hexecfn, ← packed_auxEntries hb hne, argc_word hargc hshort, hv]
  simp

/-- The auxiliary vector comes after the vectors of the host. -/
theorem initialStack_storedByPairs {v : ProcVectors} (hargc : 1 ≤ v.argv.length)
    (b : StackBinary) (pre rest : List Word) :
    StoredByPairs (auxEntries b (v.argv.getD 1 0))
      ((pre ++ (initialStack v b ++ rest)).drop
        (pre.length + (v.argv.length + v.envp.length + 2))) := by
  have hsplit : pre ++ (initialStack v b ++ rest) =
      (pre ++ (BitVec.ofNat 64 (v.argv.length - 1) :: (v.argv.tail ++ 0 :: (v.envp ++ [0])))) ++
        (pairWords (auxEntries b (v.argv.getD 1 0)) ++ ([AT_NULL, 0] ++ rest)) := by
    rw [initialStack]
    simp
  have hstart : pre.length + (v.argv.length + v.envp.length + 2) =
      (pre ++ (BitVec.ofNat 64 (v.argv.length - 1) ::
        (v.argv.tail ++ 0 :: (v.envp ++ [0])))).length := by
    simp only [List.length_cons, List.length_append, List.length_tail, List.length_nil]
    omega
  rw [hsplit, hstart, List.drop_left]
  exact storedByPairs_iff.2 (List.prefix_append _ _)

/-- For a host with at least one argument, the guest finds at `rsp` its argument count, its
arguments, the environment and the auxiliary vector, each pair in its own two words; nothing
else in the mapping or after it is changed. -/
theorem setupStack_contents (v : ProcVectors) (b : StackBinary) (r : Word) (above : List Word)
    (hargc : 2 ≤ v.argv.length) (hb : b.AuxNonzero) (hr : mapStack r ≠ minusOne)
    (hfits : (initialStack v b).length ≤ 0x5000) :
    ∃ m, setupStack v.words b (BitVec.ofNat 32 v.argv.length) r (freshMapping above) =
        .ok (mapStack r) m ∧
      m.rsp = mapStack r ∧
      m.words = List.replicate STACK_TOP 0 ++ (initialStack v b ++
        (List.replicate (0x5000 - (initialStack v b).length) 0 ++ above)) ∧
      StoredByPairs (auxEntries b (v.argv.getD 1 0))
        (m.words.drop (STACK_TOP + (v.argv.length + v.envp.length + 2))) := by
  obtain ⟨w₀, as, hv, has⟩ : ∃ w₀ as, v.argv = w₀ :: as ∧ as ≠ [] := by
    match hargv : v.argv, hargc with
    | w₀ :: execfn :: as, _ => exact ⟨w₀, execfn :: as, rfl, List.cons_ne_nil _ _⟩
  have hargs : ∀ w ∈ as, w ≠ 0 := by
    intro w hw
    exact v.argv_ne w (hv ▸ List.mem_cons_of_mem w₀ hw)
  have hne : as.headD 0 ≠ 0 := by
    cases as with
    | nil => exact absurd rfl has
    | cons execfn as => exact hargs execfn List.mem_cons_self
  have hwords : v.words = w₀ :: (as ++ 0 :: (v.envp ++ 0 :: v.auxv)) := by
    rw [ProcVectors.words, hv]
    rfl
  have hlen := initialStack_length (v := v) (by omega) b
  have hstack := stackFrame_initial hb hv hne (by omega)
  have hframe := congrArg List.length hstack
  rw [List.length_append, hlen] at hframe
  simp only [List.length_cons, List.length_nil] at hframe
  obtain ⟨k, hk⟩ : ∃ k, 0x5000 = v.argv.length + v.envp.length + 34 + k :=
    Nat.exists_eq_add_of_le (hlen ▸ hfits)
  obtain ⟨m, hrun, hm, -, -, hregs⟩ :=
    setupStack_run w₀ v.auxv b (BitVec.ofNat 32 v.argv.length) hargs v.envp_ne hr
      (freshMapping_filled above (n := k + 1) (by omega))
  have hcontents : m.words = List.replicate STACK_TOP 0 ++ (initialStack v b ++
      (List.replicate (0x5000 - (initialStack v b).length) 0 ++ above)) := by
    have hrest : 0x5000 - (initialStack v b).length = k := by omega
    have hzeros : List.replicate (k + 1 + 2) (0 : Word) = [0, 0, 0] ++ List.replicate k 0 := rfl
    rw [hm, hrest, ← hstack, hzeros]
    simp
  have hpairs := initialStack_storedByPairs (v := v) (by omega) b (List.replicate STACK_TOP 0)
    (List.replicate (0x5000 - (initialStack v b).length) 0 ++ above)
  rw [← hcontents, List.length_replicate] at hpairs
  exact ⟨m, hwords ▸ hrun, congrArg Prod.fst hregs, hcontents, hpairs⟩

/-- A small binary that is not position-independent. -/
def StackBinary.small : StackBinary :=
  { pie := false, base := 0x400000, eEntry := 0x401000, fd := 3, ePhentsize := 56, ePhnum := 2
    ePhoff := 64, interpBase := none, random := 0x2000, sArch := 0x3000
    random_ne := by decide, sArch_ne := by decide }

/-- The vectors of a host with `n + 1` arguments and one environment string. -/
def ProcVectors.ofArgs (n : Nat) : ProcVectors :=
  { argv := List.replicate (n + 1) 0x10, envp := [0x20], auxv := [0]
    argv_ne := fun w hw => by rw [List.eq_of_mem_replicate hw]; decide
    envp_ne := fun w hw => by rw [List.mem_singleton.1 hw]; decide
    auxv_end := List.mem_singleton_self 0 }

/-- The new stack for two arguments. -/
theorem setupStack_contents_two :
    ∃ m, setupStack (ProcVectors.ofArgs 1).words .small 2 0x1000 (freshMapping []) =
        .ok 0x29000 m ∧
      m.rsp = 0x29000 ∧
      m.words = List.replicate STACK_TOP 0 ++ (initialStack (.ofArgs 1) .small ++
        (List.replicate (0x5000 - (initialStack (.ofArgs 1) .small).length) 0 ++ [])) ∧
      StoredByPairs (auxEntries .small 0x10) (m.words.drop (STACK_TOP + (2 + 1 + 2))) :=
  setupStack_contents (.ofArgs 1) .small 0x1000 [] (by decide)
    ⟨by decide, by decide, by decide, by decide, by decide, by decide⟩ (by decide) (by decide)

/-! ## Inside the mapping -/

section Inside

variable (v : ProcVectors) (b : StackBinary) (argc : BitVec 32) (r : Word)

/-- The strings that the first copy takes.  It starts after `argv[0]`, which is the null
pointer itself when there are no arguments. -/
def ProcVectors.args : List Word := if v.argv = [] then v.envp else v.argv.tail

/-- The strings that the second copy takes. -/
def ProcVectors.env : List Word := if v.argv = [] then v.auxv.takeWhile (· ≠ 0) else v.envp

/-- Whatever follows the mapping in memory, `setup_stack` writes to no word outside it. -/
def StaysInside : Prop :=
  ∀ above, ∀ i ∈ (final (setupStack v.words b argc r (freshMapping above))).written,
    i < STACK_WORDS

/-- The number of words of the new stack, with the pair of `AT_NULL`. -/
def stackRoom : Nat :=
  v.args.length + v.env.length + 20 +
    (auxEntries b (v.args.headD 0)).countP fun p => p.2 ≠ 0

variable {v b argc r}

/-- The words from `argv` on are the two stretches that are copied. -/
theorem ProcVectors.words_eq (v : ProcVectors) : ∃ w₀ rest,
    v.words = w₀ :: (v.args ++ 0 :: (v.env ++ 0 :: rest)) ∧ (∀ w ∈ v.args, w ≠ 0) ∧
      ∀ w ∈ v.env, w ≠ 0 := by
  unfold ProcVectors.words ProcVectors.args ProcVectors.env
  cases hargv : v.argv with
  | cons w₀ argv =>
    refine ⟨w₀, v.auxv, rfl, ?_, v.envp_ne⟩
    exact fun w hw => v.argv_ne w (hargv ▸ List.mem_cons_of_mem w₀ hw)
  | nil =>
    obtain ⟨aux, rest, hauxv, hzero⟩ := List.eq_append_cons_of_mem v.auxv_end
    have haux : ∀ w ∈ aux, w ≠ 0 := fun w hw heq => hzero (heq ▸ hw)
    have htake : v.auxv.takeWhile (· ≠ 0) = aux := by
      rw [hauxv, List.takeWhile_append_of_pos (by simpa using haux)]
      simp
    simp only [if_true]
    rw [htake]
    refine ⟨0, rest, ?_, v.envp_ne, haux⟩
    rw [hauxv]
    rfl

theorem packed_length (ps : List (Word × Word)) :
    (packed ps).length = ps.length + ps.countP fun p => p.2 ≠ 0 := by
  induction ps with
  | nil => rfl
  | cons p ps ih =>
    rw [packed_cons, List.length_append, ih, packedEntry, List.countP_cons, List.length_cons]
    generalize (ps.countP fun p => p.2 ≠ 0) = c
    by_cases h : p.2 = 0
    · rw [if_pos h, if_neg (by simpa using h), List.length_singleton]
      omega
    · rw [if_neg h, if_pos (by simpa using h), List.length_cons, List.length_singleton]
      omega

theorem stackFrame_room (v : ProcVectors) (b : StackBinary) (argc : BitVec 32) :
    (stackFrame argc v.args v.env (auxEntries b (v.args.headD 0))).length + 2 = stackRoom v b := by
  rw [stackFrame_length, packed_length, stackRoom]
  show _ + 3 + (15 + _) + 2 = _
  omega

/-- The new stack fits: every word that is written is in the mapping. -/
theorem staysInside_of_room (hr : mapStack r ≠ minusOne) (hfits : stackRoom v b ≤ 0x5000) :
    StaysInside v b argc r := by
  obtain ⟨w₀, rest, hwords, hargs, henv⟩ := v.words_eq
  intro above i hi
  have hroom := stackFrame_room v b argc
  obtain ⟨m, hrun, -, hwritten, -, -⟩ := setupStack_run w₀ rest b argc hargs henv hr
    (freshMapping_filled above (n := 0x5000 - stackRoom v b) (by omega))
  rw [hwords, hrun] at hi
  have hlt := hwritten i hi
  rw [STACK_WORDS_eq]
  omega

/-- It does not fit: with zero words after the mapping, one of them is written. -/
theorem not_staysInside (hr : mapStack r ≠ minusOne) (hfull : 0x5000 < stackRoom v b) :
    ¬ StaysInside v b argc r := by
  intro hinside
  obtain ⟨w₀, rest, hwords, hargs, henv⟩ := v.words_eq
  have hroom := stackFrame_room v b argc
  have hfilled : Filled (freshMapping (List.replicate (stackRoom v b) 0))
      (List.replicate STACK_TOP 0) (0x5000 + stackRoom v b) [] := by
    have h := freshMapping_filled (List.replicate (stackRoom v b) 0) (n := 0x5000) (k := 0) rfl
    refine ⟨?_, h.written⟩
    rw [h.words, List.append_nil, Nat.add_zero, List.replicate_append_replicate]
  rw [← hroom] at hfilled
  obtain ⟨m, hrun, -, -, htop, -⟩ := setupStack_run w₀ rest b argc hargs henv hr hfilled
  have hlt := hinside (List.replicate (stackRoom v b) 0) _ (by
    rw [hwords, ← hroom, hrun]
    exact htop)
  rw [STACK_WORDS_eq] at hlt
  omega

/-- `setup_stack` stays inside the mapping exactly when there is no mapping, or the new stack
fits in its upper half. -/
theorem setupStack_inside_iff :
    StaysInside v b argc r ↔ mapStack r = minusOne ∨ stackRoom v b ≤ 0x5000 := by
  by_cases hr : mapStack r = minusOne
  · refine iff_of_true ?_ (Or.inl hr)
    intro above i hi
    unfold setupStack at hi
    simp only [if_pos hr] at hi
    exact absurd hi List.not_mem_nil
  · rw [or_iff_right hr]
    constructor
    · intro hinside
      by_contra hfull
      exact not_staysInside hr (Nat.not_le.1 hfull) hinside
    · exact staysInside_of_room hr

end Inside

theorem ProcVectors.ofArgs_args (n : Nat) : (ProcVectors.ofArgs n).args.length = n := by
  have hne : (ProcVectors.ofArgs n).argv ≠ [] := List.cons_ne_nil _ _
  rw [ProcVectors.args, if_neg hne]
  exact List.length_replicate

/-- 20480 arguments do not fit. -/
theorem setupStack_leaves_mapping : ¬ StaysInside (.ofArgs 0x4fff) .small 0x5000 0x1000 := by
  refine not_staysInside (by decide) ?_
  rw [stackRoom, ProcVectors.ofArgs_args]
  omega

end Dryadalis
