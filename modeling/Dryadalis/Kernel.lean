import Dryadalis.Registers

/-!
# Pages, the address space and the kernel

The engine and the guest share one address space.  `Space` holds its bytes and
the protection of each page.  The kernel behind it is not part of the
repository, so its answers are the fields of the parameter `Kernel`: which
`mprotect`, `mmap` and `munmap` calls succeed, whether code that is not readable can be
loaded, what `arch_prctl` answers, and what any other system call answers and writes.

A system call has two results here.  The kernel leaves a raw value in `rax`, in
which the last 4095 values are negated error numbers.  The `syscall` function of
the C library turns every error into `-1` and stores the number in `errno`, so
the engine only ever sees `libcRet` of the raw value.

The second half is the arithmetic of the page macros on natural numbers, which
every copy loop needs.
-/

namespace Dryadalis

open ByteMem

/-! ## The page macros -/

/-- `PAGE_SZ` -/
def PAGE_SZ : Word := 0x1000

/-- `PAGE_ALIGN` -/
def pageAlign (x : Word) : Word := x &&& ~~~0xfff

/-- `PAGE_OFFT` -/
def pageOfft (x : Word) : Word := x &&& 0xfff

/-! ## The address space -/

/-- The three protection bits of `mmap` and `mprotect`. -/
structure Prot where
  read : Bool
  write : Bool
  exec : Bool
  deriving DecidableEq, Repr

/-- The bytes of the address space, and the protection of the page at each
page-aligned address; `none` is a page with no mapping. -/
structure Space where
  byte : Word → Byte
  prot : Word → Option Prot

/-! ## The kernel -/

/-- A system call made for the guest: its number, the arguments that were
passed, and the raw value the kernel left in `rax`. -/
structure Request where
  nr : Nat
  args : List Word
  rax : Word
  deriving DecidableEq

/-- The answers of the kernel.  `archPrctl` is the raw answer to a code and an
address, and `archPrctlGet` to a code that reads a base into a variable of the
engine.  `execLoads` says whether a page with `PROT_EXEC` alone can be read, which
depends on the processor.  `sys` may depend on the calls made before and on the whole
address space, and returns the space after the call. -/
structure Kernel where
  execLoads : Bool
  mprotect : Word → Bool
  mmap : Word → Word → Bool
  munmap : Word → Bool
  archPrctl : BitVec 32 → Word → Word
  archPrctlGet : BitVec 32 → Word
  sys : List Request → Nat → List Word → Space → Word × Space

/-- A kernel that grants every request and changes nothing. -/
def Kernel.granting : Kernel where
  execLoads := true
  mprotect _ := true
  mmap _ _ := true
  munmap _ := true
  archPrctl _ _ := 0
  archPrctlGet _ := 0
  sys _ _ _ m := (0, m)

/-- `mprotect` of one page. -/
def Kernel.mprotectPage (k : Kernel) (m : Space) (page : Word) (p : Prot) : Option Space :=
  if k.mprotect page then some { m with prot := Function.update m.prot page (some p) } else none

@[simp] theorem Kernel.mprotectPage_of_ok {k : Kernel} {m : Space} {page : Word} {p : Prot}
    (h : k.mprotect page = true) :
    k.mprotectPage m page p = some { m with prot := Function.update m.prot page (some p) } := by
  rw [Kernel.mprotectPage, if_pos h]

/-- `munmap` of one page. -/
def Kernel.munmapPage (k : Kernel) (m : Space) (page : Word) : Option Space :=
  if k.munmap page then some { m with prot := Function.update m.prot page none } else none

/-- The number of bytes of the pages that a mapping of `len` bytes covers. -/
def mappedLen (len : Word) : Nat := (len.toNat + 4095) / 4096 * 4096

/-- `mmap` with `MAP_FIXED | MAP_PRIVATE | MAP_ANON` at a page-aligned address.
The pages read as zero afterwards.  A length of zero is refused. -/
def Kernel.mmapFixed (k : Kernel) (m : Space) (addr len : Word) (p : Prot) : Option Space :=
  if len ≠ 0 ∧ k.mmap addr len then
    some { byte := patch m.byte addr 0 (mappedLen len) (fun _ => 0)
           prot := patch m.prot addr 0 (mappedLen len) (fun _ => some p) }
  else none

/-- The kernel grants a mapping of this length at this address. -/
def Kernel.Grants (k : Kernel) (addr len : Word) : Prop := len ≠ 0 ∧ k.mmap addr len = true

instance (k : Kernel) (addr len : Word) : Decidable (k.Grants addr len) :=
  inferInstanceAs (Decidable (_ ∧ _))

theorem mmapFixed_of_grants {k : Kernel} {m : Space} {addr len : Word} {p : Prot}
    (h : k.Grants addr len) :
    k.mmapFixed m addr len p =
      some ⟨patch m.byte addr 0 (mappedLen len) fun _ => 0,
        patch m.prot addr 0 (mappedLen len) fun _ => some p⟩ :=
  if_pos h

theorem mmapFixed_of_not_grants {k : Kernel} {m : Space} {addr len : Word} {p : Prot}
    (h : ¬ k.Grants addr len) : k.mmapFixed m addr len p = none :=
  if_neg h

/-- The raw value is a negated error number. -/
def isError (r : Word) : Bool := 2 ^ 64 - 4095 ≤ r.toNat

/-- The return value of the `syscall` function of the C library. -/
def libcRet (r : Word) : Word := if isError r then minusOne else r

theorem libcRet_eq_self_iff (r : Word) : libcRet r = r ↔ isError r = false ∨ r = minusOne := by
  unfold libcRet
  cases h : isError r with
  | false => simp
  | true => simp [eq_comm]

/-! ## Accesses -/

/-- A load from the page does not fault.  On this processor what can be written can be
read. -/
def Kernel.loads (k : Kernel) : Option Prot → Bool
  | none => false
  | some p => p.read || p.write || (p.exec && k.execLoads)

/-- A store to the page does not fault. -/
def Prot.stores : Option Prot → Bool
  | none => false
  | some p => p.write

/-- None of the `n` bytes at `a` faults when it is read. -/
def Kernel.canLoad (k : Kernel) (m : Space) (a : Word) (n : Nat) : Bool :=
  (List.range n).all fun i => k.loads (m.prot (pageAlign (a + BitVec.ofNat 64 i)))

/-- None of the `n` bytes at `a` faults when it is written. -/
def Space.canStore (m : Space) (a : Word) (n : Nat) : Bool :=
  (List.range n).all fun i => Prot.stores (m.prot (pageAlign (a + BitVec.ofNat 64 i)))

@[simp] theorem Kernel.canLoad_zero (k : Kernel) (m : Space) (a : Word) : k.canLoad m a 0 = true :=
  rfl

@[simp] theorem Space.canStore_zero (m : Space) (a : Word) : m.canStore a 0 = true := rfl

theorem Kernel.canLoad_iff (k : Kernel) (m : Space) (a : Word) (n : Nat) :
    k.canLoad m a n = true ↔
      ∀ i, i < n → k.loads (m.prot (pageAlign (a + BitVec.ofNat 64 i))) = true := by
  simp [Kernel.canLoad]

theorem Space.canStore_iff (m : Space) (a : Word) (n : Nat) :
    m.canStore a n = true ↔
      ∀ i, i < n → Prot.stores (m.prot (pageAlign (a + BitVec.ofNat 64 i))) = true := by
  simp [Space.canStore]

/-- A page keeps its protection or gets all three rights. -/
def Space.Opened (m m' : Space) : Prop :=
  ∀ page, m'.prot page = m.prot page ∨ m'.prot page = some ⟨true, true, true⟩

theorem Space.Opened.refl (m : Space) : m.Opened m := fun _ => Or.inl rfl

theorem Space.Opened.trans {m m₁ m₂ : Space} (h : m.Opened m₁) (h' : m₁.Opened m₂) :
    m.Opened m₂ := by
  intro page
  rcases h' page with heq | hall
  · rw [heq]
    exact h page
  · exact Or.inr hall

theorem Space.Opened.loads {m m' : Space} (h : m.Opened m') {k : Kernel} {page : Word}
    (hm : k.loads (m.prot page) = true) : k.loads (m'.prot page) = true := by
  rcases h page with heq | hall
  · rw [heq]
    exact hm
  · rw [hall]
    rfl

theorem Space.Opened.stores {m m' : Space} (h : m.Opened m') {page : Word}
    (hm : Prot.stores (m.prot page) = true) : Prot.stores (m'.prot page) = true := by
  rcases h page with heq | hall
  · rw [heq]
    exact hm
  · rw [hall]
    rfl

/-! ### A part of the address space -/

/-- The pages from `lo` up to `hi` have this protection, and no other page is mapped. -/
def mappedBetween (lo hi : Word) (p : Prot) : Word → Option Prot :=
  fun page => if lo ≤ page ∧ page < hi then some p else none

/-- A kernel that grants every request, but no protection of a page outside `[lo, hi)`. -/
def Kernel.between (lo hi : Word) : Kernel :=
  { Kernel.granting with mprotect := fun page => lo ≤ page && page < hi }

/-- A megabyte of code and data at `0x400000`. -/
def codeSpace (byte : Word → Byte) : Space :=
  ⟨byte, mappedBetween 0x400000 0x500000 ⟨true, true, true⟩⟩

/-- A kernel that protects the pages of `codeSpace`, and no others. -/
def Kernel.code : Kernel := Kernel.between 0x400000 0x500000

/-! ## Why a run of the engine stops -/

/-- `fatal` is `fatal_dump`, `exit` a direct call of `exit`, `assertion` a failed
`assert`, `guestExit` the destructor called by the exit hooks, `crash` the use of
a null pointer or an access that the protection of its page does not allow, and
`diverge` a loop that does not end. -/
inductive Halt where
  | fatal | exit | assertion | guestExit | crash | diverge
  deriving DecidableEq, Repr

/-! ## Page arithmetic -/

@[simp] theorem PAGE_SZ_toNat : PAGE_SZ.toNat = 4096 := rfl

theorem pageOfft_toNat (x : Word) : (pageOfft x).toNat = x.toNat % 4096 := by
  rw [pageOfft, BitVec.toNat_and]
  exact Nat.and_two_pow_sub_one_eq_mod x.toNat 12

theorem mod_of_pageOfft {x : Word} (h : pageOfft x = 0) : x.toNat % 4096 = 0 := by
  rw [← pageOfft_toNat, h]
  rfl

/-- Clearing the low bits rounds down to a multiple of their power of two. -/
theorem and_not_lowMask_toNat {w : Nat} (x : BitVec w) (n : Nat) :
    (x &&& ~~~BitVec.ofNat w (2 ^ n - 1)).toNat = x.toNat / 2 ^ n * 2 ^ n := by
  have hshift : x &&& ~~~BitVec.ofNat w (2 ^ n - 1) = (x >>> n) <<< n := by
    apply BitVec.eq_of_getLsbD_eq
    intro i hi
    have hmask : (BitVec.ofNat w (2 ^ n - 1)).getLsbD i = decide (i < n) := by
      rw [BitVec.getLsbD_ofNat, Nat.testBit_two_pow_sub_one, decide_eq_true hi, Bool.true_and]
    rw [BitVec.getLsbD_and, BitVec.getLsbD_not, hmask, BitVec.getLsbD_shiftLeft,
      BitVec.getLsbD_ushiftRight]
    by_cases h : i < n
    · simp [h]
    · have hsum : n + (i - n) = i := by omega
      simp [h, hi, hsum]
  have hle : x.toNat / 2 ^ n * 2 ^ n ≤ x.toNat := Nat.div_mul_le_self _ _
  have hx := x.isLt
  rw [hshift, BitVec.toNat_shiftLeft, BitVec.toNat_ushiftRight, Nat.shiftLeft_eq,
    Nat.shiftRight_eq_div_pow, Nat.mod_eq_of_lt (by omega)]

theorem pageAlign_toNat (x : Word) : (pageAlign x).toNat = x.toNat / 4096 * 4096 :=
  and_not_lowMask_toNat x 12

theorem pageAlign_of_aligned {x : Word} (h : x.toNat % 4096 = 0) : pageAlign x = x := by
  apply BitVec.eq_of_toNat_eq
  rw [pageAlign_toNat]
  omega

/-- The room left in the page of `x`. -/
theorem pageRoom_toNat (x : Word) : (PAGE_SZ - pageOfft x).toNat = 4096 - x.toNat % 4096 := by
  have h := pageOfft_toNat x
  rw [BitVec.toNat_sub, PAGE_SZ_toNat, h]
  omega

theorem add_ofNat_toNat {a : Word} {i : Nat} (h : a.toNat + i < 2 ^ 64) :
    (a + BitVec.ofNat 64 i).toNat = a.toNat + i := by
  rw [BitVec.toNat_add, BitVec.toNat_ofNat, Nat.mod_eq_of_lt (show i < 2 ^ 64 by omega),
    Nat.mod_eq_of_lt h]

theorem pageAlign_add_toNat {a : Word} {i : Nat} (h : a.toNat + i < 2 ^ 64) :
    (pageAlign (a + BitVec.ofNat 64 i)).toNat = (a.toNat + i) / 4096 * 4096 := by
  rw [pageAlign_toNat, add_ofNat_toNat h]

theorem pageAlign_pageAlign (x : Word) : pageAlign (pageAlign x) = pageAlign x :=
  pageAlign_of_aligned (by rw [pageAlign_toNat]; omega)

theorem pageOfft_pageAlign (x : Word) : pageOfft (pageAlign x) = 0 := by
  apply BitVec.eq_of_toNat_eq
  have hx := pageAlign_toNat x
  rw [pageOfft_toNat, show (0 : Word).toNat = 0 from rfl]
  omega

/-- Bytes before the end of a page have the page of its first ones. -/
theorem pageAlign_add_of_lt (a : Word) {i j : Nat} (hij : i ≤ j)
    (hlt : (a.toNat + i) % 4096 + (j - i) < 4096) (hj : j < 2 ^ 64) :
    pageAlign (a + BitVec.ofNat 64 j) = pageAlign (a + BitVec.ofNat 64 i) := by
  apply BitVec.eq_of_toNat_eq
  rw [pageAlign_toNat, pageAlign_toNat, BitVec.toNat_add, BitVec.toNat_add, BitVec.toNat_ofNat,
    BitVec.toNat_ofNat, Nat.mod_eq_of_lt hj, Nat.mod_eq_of_lt (show i < 2 ^ 64 by omega)]
  omega

end Dryadalis
