import Dryadalis.Phases

/-!
# Every dispatch ends

The loops of the engine have no bound of their own: `mem_read` and `mem_write` end by an
equality test, `opcodes_cflow` calls itself on the rest of the memory, and
`__eval_target` walks whatever groups it is given.  Only the scan can go on for ever, and
what stops it is a page that it cannot read: one that faults, or one that `mprotect`
refuses.

The measure is `room page a`, the number of bytes from `a` to the end of that page.
One buffer never gets past the page, because `mem_read` copies page by page and an
instruction does not leave the buffer, so every recursive call has less room.

`dispatcher_ends` is about every state of the engine: any memory, any hooks that
`mem_write` can count, any registers and any decoder.  `opcodesCflow_ends_iff` says why the
page is needed.
-/

namespace Dryadalis

open ByteMem Exec

/-! ## One buffer -/

section Buffer

variable {cs : Capstone} {buf : Nat → Byte} {addr : Word} {saved : Nat}

/-- The loop does not get past the end of the buffer. -/
theorem scanLoop_ended_le : ∀ {fuel n size n' : Nat} {beg flag flag' : Bool},
    scanLoop cs buf addr saved fuel n size beg flag = .ok (.ended n' flag') → n' ≤ n + size := by
  intro fuel
  induction fuel with
  | zero =>
    intro n size n' beg flag flag' h
    cases h
  | succ fuel ih =>
    intro n size n' beg flag flag' h
    unfold scanLoop at h
    split at h
    · split at h
      · cases h
        omega
      · rename_i i hi
        split at h
        · cases h
        · obtain ⟨j, hdecode, rfl⟩ := Option.map_eq_some_iff.mp hi
          have hfits := cs.size_fits hdecode
          rw [List.length_map, List.length_range] at hfits
          have hrest := ih h
          rw [Insn.atAddr_size] at hrest
          omega
    · cases h
      omega

end Buffer

/-! ## The room that is left -/

/-- The number of bytes from `a` to the last one of a page. -/
def room (page a : Word) : Nat := (page + 4095 - a).toNat

section Room

variable {page a : Word}

/-- With less room than a page, the address is in the page. -/
theorem pageAlign_of_room (hpage : pageOfft page = 0) (h : room page a < 4096) :
    pageAlign a = page := by
  have hmod := mod_of_pageOfft hpage
  have hlt := page.isLt
  have halt := a.isLt
  apply BitVec.eq_of_toNat_eq
  rw [pageAlign_toNat]
  unfold room at h
  rw [BitVec.toNat_sub, BitVec.toNat_add] at h
  have hlit : (4095 : Word).toNat = 4095 := rfl
  omega

/-- A step of at most a page that does not use up the room takes its length away. -/
theorem room_add {n : Nat} (hn : n ≤ room page a) :
    room page (a + BitVec.ofNat 64 n) = room page a - n := by
  have hn' : n < 2 ^ 64 := Nat.lt_of_le_of_lt hn (BitVec.isLt _)
  have hsub : page + 4095 - (a + BitVec.ofNat 64 n) = page + 4095 - a - BitVec.ofNat 64 n :=
    (BitVec.sub_sub _ _ _).symm
  unfold room at hn ⊢
  rw [hsub, BitVec.toNat_sub_of_le, BitVec.toNat_ofNat, Nat.mod_eq_of_lt hn']
  rw [BitVec.le_def, BitVec.toNat_ofNat, Nat.mod_eq_of_lt hn']
  exact hn

end Room

/-! ## Nothing else goes on for ever -/

/-- The engine did not run into a loop without an end. -/
def Ends (h : Halt) (_ : Engine) : Prop := h ≠ .diverge

theorem stoppable_ends : Stoppable (fun _ => True) Ends where
  record _ _ := trivial
  log _ := trivial
  fatal _ h := by cases h
  crash _ h := by cases h

section Ends

variable {k : Kernel} {page : Word} {n : Which → Word}

theorem steady_ends (hshort : ∀ which, (n which).toNat < 2 ^ 31) :
    Steady (fun e => e.HasLengths n) Ends where
  record h := h.of_record
  log h := h
  fatal _ h := by cases h
  crash _ h := by cases h
  lengths := ⟨n, hshort, fun h => h⟩

theorem phases_ends (hshort : ∀ which, (n which).toNat < 2 ^ 31) :
    Phases (fun e => e.HasLengths n) (fun e => e.HasLengths n) (fun _ e => e.HasLengths n)
      (fun e => e.HasLengths n) (fun e => e.HasLengths n) Ends where
  guest := steady_ends hshort
  host := steady_ends hshort
  looked _ := (steady_ends hshort).toLogged
  done := steady_ends hshort
  failed := (steady_ends hshort).toFatal
  callback h _ := h
  noCallback h _ := h
  lookup h _ := h
  unknown h _ := h
  request _ _ _ h := h
  silent _ h := h
  guestExit _ h := by cases h
  assertion _ h := by cases h
  targetError h := h
  notFound h := h
  unhandled _ _ h := by cases h
  crash _ h := by cases h
  resume h := h.elim (fun h => h) fun h => h

theorem Space.SameLoads.reads_iff {m m' : Space} (h : m.SameLoads k m') (a : Word) (j : Nat) :
    k.Reads m' a j ↔ k.Reads m a j :=
  and_congr (h.loads_iff a j) Iff.rfl

/-- With less room than a page, the address is as readable as the page. -/
theorem reads_of_room {m : Space} {a : Word} (hpage : pageOfft page = 0)
    (h : room page a < 4096) : k.Reads m a 0 ↔ k.Reads m page 0 := by
  have hzero : ∀ x : Word, x + BitVec.ofNat 64 0 = x := fun x => by simp
  have hself : pageAlign page = page := pageAlign_of_aligned (mod_of_pageOfft hpage)
  rw [Kernel.Reads, Kernel.Reads, Kernel.Loads, Kernel.Loads, Kernel.Opens, Kernel.Opens, hzero,
    hzero, pageAlign_of_room hpage h, hself]

section Steps

variable {P : Engine → Prop}

/-- One buffer of the scan.  In the page that cannot be read nothing is read. -/
theorem readMem_room (hP : Logged P) (hpage : pageOfft page = 0) (a : Word) :
    Meets (fun e => ¬ k.Reads e.space page 0 ∧ P e) (readMem k (fun _ => 0) a PAGE_SZ)
      (fun r e => (room page a < 4096 → r.1 ≤ 0) ∧ ¬ k.Reads e.space page 0 ∧ P e) Ends := by
  refine ⟨fun e he => ?_⟩
  obtain ⟨hshut, he⟩ := he
  by_cases hbuffered : Buffered k e.space a
  · obtain ⟨m', -, -, hloads, hread⟩ := readMem_buffered (fun _ => 0) hbuffered
    rw [hread]
    refine .ok ⟨fun hroom => absurd hbuffered.first ?_, ?_, hP.record he rfl⟩
    · rwa [reads_of_room hpage hroom]
    · rwa [hloads.reads_iff]
  · rcases readMem_not_buffered (fun _ => 0) hbuffered with
      ⟨e', hread⟩ | ⟨r, buf', m', hr, hloads, hread⟩
    · rw [hread]
      exact .error (fun h => by cases h)
    · rw [hread]
      refine .ok ⟨fun _ => hr, ?_, hP.record he rfl⟩
      rwa [hloads.reads_iff]

/-- The scan ends: the fuel is more than the room that is left. -/
theorem opcodesCflowAux_ends (hP : Stoppable P Ends) (hpage : pageOfft page = 0)
    (cs : Capstone) : ∀ (fuel : Nat) (a : Word) (beg : Bool), room page a < fuel →
      Meets (fun e => ¬ k.Reads e.space page 0 ∧ P e) (opcodesCflowAux k cs fuel a beg)
        (fun _ => P) Ends := by
  intro fuel
  induction fuel with
  | zero =>
    intro a beg h
    omega
  | succ fuel ih =>
    intro a beg hroom
    have hfatal : ∀ {α : Type}, Meets (fun e => ¬ k.Reads e.space page 0 ∧ P e)
        (fatalDump : Eng α) (fun _ e => ¬ k.Reads e.space page 0 ∧ P e) Ends :=
      hP.fatalDump.pre fun _ he => he.2
    unfold opcodesCflowAux
    refine .ite (fun _ => .pure fun _ he => he.2) fun _ => ?_
    refine .bind (readMem_room hP.toLogged hpage a) fun r => .of_imp fun hsaved => ?_
    obtain ⟨saved, buf⟩ := r
    refine .when (fun _ => hfatal) fun _ => .bind .get fun e => ?_
    split
    · rename_i hloop
      exact absurd (scanLoop_error hloop) (by decide)
    · exact .bind (Q := fun _ => P) (.modify fun _ he => hP.record he.2 rfl)
        fun _ => .pure fun _ he => he
    · rename_i n flag hloop
      refine .bind (Q := fun _ e => ¬ k.Reads e.space page 0 ∧ P e)
        (.modify fun _ he => ⟨he.1, hP.record he.2 rfl⟩) fun _ => .ite (fun hmore => ?_) fun _ => ?_
      · have hpos : n ≠ 0 := by simpa using hmore
        have hle : n ≤ 4096 := by simpa using scanLoop_ended_le hloop
        have hlong : 4096 ≤ room page a := by
          by_contra hlast
          have hzero : saved.toNat = 0 := by
            have hle := hsaved (by omega)
            simp only at hle
            omega
          rw [hzero, scanLoop_empty] at hloop
          cases hloop
          exact hpos rfl
        have hless : room page (a + BitVec.ofNat 64 _) = _ := room_add (Nat.le_trans hle hlong)
        exact .bind (ih _ _ (by omega)) fun _ => .pure fun _ he => he
      · exact hP.fatalDump.pre fun _ he => he.2

/-- The scan ends in a space in which some page cannot be read. -/
theorem opcodesCflow_ends (hP : Stoppable P Ends) (hpage : pageOfft page = 0) (cs : Capstone)
    (a : Word) :
    Meets (fun e => ¬ k.Reads e.space page 0 ∧ P e) (opcodesCflow k cs a true) (fun _ => P) Ends :=
  opcodesCflowAux_ends hP hpage cs _ a true (Nat.lt_succ_of_lt (BitVec.isLt _))

end Steps

/-- No dispatch goes on for ever when there is a page that `mprotect` refuses, whatever
the state of the engine, the memory and the decoder, and whatever the lengths of the hooks
that `mem_write` counts in an `int`.  The same holds for the start of a run. -/
theorem dispatcher_ends (hpage : pageOfft page = 0) (hrefuse : k.mprotect page = false)
    (cs : Capstone) (entry : Word) (e : Engine)
    (hshort : ∀ which, (e.hook which).length.toNat < 2 ^ 31) :
    (∀ e', dispatcher k cs e ≠ .error .diverge e') ∧
      ∀ e', instrument k cs entry e ≠ .error .diverge e' := by
  let n : Which → Word := fun which => (e.hook which).length
  have hself : pageAlign page = page := pageAlign_of_aligned (mod_of_pageOfft hpage)
  have hshut : ∀ m : Space, ¬ k.Reads m page 0 := by
    intro m hreads
    have hopen := hreads.2
    rw [Kernel.Opens, show page + BitVec.ofNat 64 0 = page by simp, hself, hrefuse] at hopen
    cases hopen
  have hscan : ∀ a, Meets (fun e => e.HasLengths n) (opcodesCflow k cs a true)
      (fun _ e => e.HasLengths n) Ends := fun a =>
    (opcodesCflow_ends (steady_ends hshort).toStoppable hpage cs a).pre fun _ he => ⟨hshut _, he⟩
  refine ⟨fun e' h => ?_, fun e' h => ?_⟩
  · exact ((phases_ends hshort).dispatcher hscan hscan).of_error (s := e) (fun _ => rfl) h rfl
  · exact ((phases_ends hshort).instrument hscan entry).of_error (s := e) (fun _ => rfl) h rfl

end Ends

/-- All of the address space but a megabyte is out of reach. -/
theorem dispatcher_ends_code :
    let e := Engine.fresh (codeSpace fun _ => 0)
    (∀ e', dispatcher Kernel.code scanEncodings.capstone e ≠ .error .diverge e') ∧
      ∀ e', instrument Kernel.code scanEncodings.capstone 0x401000 e ≠ .error .diverge e' :=
  dispatcher_ends (show pageOfft 0 = 0 by decide) (by decide) _ _ _ (by rintro (_ | _) <;> decide)

/-! ## Why the page is needed -/

section Endless

variable {k : Kernel} {cs : Capstone} {m : Word → Byte} {addr : Word} {buf : Nat → Byte}
  {saved : Nat} (hnone : ∀ a, ∃ i, cs.decodeAt m a = some i ∧ i.cflow = false)

include hnone

variable (saved) in
/-- The loop over a buffer of memory without a control-flow instruction finds none. -/
theorem scanLoop_straight (hbuf : ∀ j, j < 4096 → buf j = window m addr j) :
    ∀ (fuel n size : Nat) (beg flag : Bool), size < fuel → n + size = 4096 →
      ∃ n' flag', n ≤ n' ∧ (n < saved → 15 ≤ size → n < n') ∧
        scanLoop cs buf addr saved fuel n size beg flag = .ok (.ended n' flag') := by
  intro fuel
  induction fuel with
  | zero =>
    intro n size beg flag h
    omega
  | succ fuel ih =>
    intro n size beg flag hfuel hsize
    by_cases hn : n < saved
    · obtain ⟨i, hi, hc⟩ := hnone (addr + BitVec.ofNat 64 n)
      have hdis := buffer_disasm hbuf hsize hi (addr + BitVec.ofNat 64 n)
      have hpos : 0 < i.size := cs.size_pos hi
      have hle : i.size ≤ 15 := cs.size_le hi
      by_cases hfit : i.size ≤ size
      · rw [if_pos hfit] at hdis
        obtain ⟨n', flag', hle', -, hloop⟩ :=
          ih (n + i.size) (size - i.size) false false (by omega) (by omega)
        exact ⟨n', flag', by omega, by omega, by simp [scanLoop, hn, hdis, hc, hloop]⟩
      · rw [if_neg hfit] at hdis
        exact ⟨n, flag, le_refl n, by omega, by simp [scanLoop, hn, hdis]⟩
    · exact ⟨n, flag, le_refl n, fun h => absurd h hn, by rw [scanLoop, if_neg hn]⟩

/-- With every page in reach and no control-flow instruction anywhere, no bound on the
recursion is enough. -/
theorem opcodesCflowAux_diverges :
    ∀ (fuel : Nat) (a : Word) (e : Engine), e.space.byte = m →
      (∀ x, k.Reads e.space x 0) →
      ∃ e', opcodesCflowAux k cs fuel a true e = .error .diverge e' := by
  intro fuel
  induction fuel with
  | zero => exact fun a e _ _ => ⟨e, rfl⟩
  | succ fuel ih =>
    intro a e hm hreads
    have hlast : k.Loads e.space a 4095 := by
      have hload := (hreads (a + BitVec.ofNat 64 4095)).1
      rwa [Kernel.Loads, show a + BitVec.ofNat 64 4095 + BitVec.ofNat 64 0 =
        a + BitVec.ofNat 64 4095 by simp] at hload
    obtain ⟨space', hbyte, -, hloads, hread⟩ :=
      readMem_buffered (fun _ => 0) ⟨hreads a, hlast⟩
    have hbuf : ∀ j, j < 4096 →
        fill (fun _ => 0) 0 4096 (window e.space.byte a) j = window m a j := by
      intro j hj
      rw [fill_of_lt hj, hm]
    obtain ⟨n, flag, -, hn, hloop⟩ := scanLoop_straight (looked k a) hnone hbuf 4097 0 4096 true
      e.currSyscall (by omega) (by omega)
    have hn' : 0 < n := hn (looked_pos k a) (by omega)
    obtain ⟨e', hrest⟩ := ih (a + BitVec.ofNat 64 n) { e with space := space', currSyscall := flag }
      (hbyte.trans hm) fun x => (hloads.reads_iff x 0).mpr (hreads x)
    refine ⟨e', ?_⟩
    rw [opcodesCflowAux_ended fuel (by omega) hread hloop hn']
    exact bind_of_error hrest

/-- In memory in which every address decodes and no instruction is one of control flow, it
is a page that cannot be read or protected, and nothing else, that makes the scan end. -/
theorem opcodesCflow_ends_iff {e : Engine} (hm : e.space.byte = m) (a : Word) :
    (∀ e', opcodesCflow k cs a true e ≠ .error .diverge e') ↔
      ∃ page, pageOfft page = 0 ∧ ¬ k.Reads e.space page 0 := by
  constructor
  · intro hends
    by_contra hall
    have hreads : ∀ x, k.Reads e.space x 0 := by
      intro x
      by_contra hshut
      refine hall ⟨pageAlign x, pageOfft_pageAlign x, fun h => hshut ?_⟩
      have hzero : ∀ y : Word, y + BitVec.ofNat 64 0 = y := fun y => by simp
      rwa [Kernel.Reads, Kernel.Loads, Kernel.Opens, hzero, pageAlign_pageAlign, ← hzero x] at h
    obtain ⟨e', h⟩ := opcodesCflowAux_diverges hnone (2 ^ 64 + 1) a e hm hreads
    exact hends e' h
  · rintro ⟨page, hpage, hshut⟩ e' h
    exact (opcodesCflow_ends stoppable_ends hpage cs a).of_error (s := e) ⟨hshut, trivial⟩ h rfl

end Endless

/-- A megabyte of `nop`, and nothing but `nop` anywhere. -/
theorem opcodesCflow_ends_iff_nops :
    (∀ e', opcodesCflow Kernel.code scanEncodings.capstone 0x400000 true
        (Engine.fresh (codeSpace fun _ => 0x90)) ≠ .error .diverge e') ↔
      ∃ page, pageOfft page = 0 ∧ ¬ Kernel.code.Reads (codeSpace fun _ => 0x90) page 0 := by
  refine opcodesCflow_ends_iff (m := fun _ => 0x90) (fun a => ⟨nop, ?_, rfl⟩) rfl 0x400000
  have hconst : bytesAt (fun _ : Word => (0x90 : Byte)) a 15 = List.replicate 15 0x90 := rfl
  rw [Capstone.decodeAt, hconst]
  decide

end Dryadalis
