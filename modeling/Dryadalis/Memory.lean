import Dryadalis.Lib.Exec
import Dryadalis.Kernel

/-!
# Guarded copies: `mem_read` and `mem_write`

The engine reads and patches guest code through `mem_read` and `mem_write` of
`memory.c`.  Both copy one page at a time and call `mprotect` on each page on
the way.  `get_prot` and `is_mapped` are stubs in the source: the requests to
the `umaps` driver are commented out, so every page counts as mapped and as
readable, writable and executable.

* `roundRead` is one chunk of a read, `memReadLoop` the loop of `memRead`.
* `memWriteLoop` is the loop of `memWrite`.  Its last round copies nothing and
  protects the page of the first byte after the range.

The stubs decide which protections are asked for, and not what the processor allows.
The `memmove` of a chunk runs on the protection that its page really has, before the
`mprotect` that follows it, and faults where that does not allow it: then the engine
stops with `Halt.crash`.  So the functions here end with the space in both cases.

Both loops end by an equality test, so both get a fuel that bounds the number
of rounds, and running out of it is `Halt.diverge`.  `Chunk` is what the read loop
may copy in one round; what whole calls do is the subject of `ReadRounds` and
`WritePages`.
-/

namespace Dryadalis

open ByteMem

/-! ## The stubs -/

/-- `is_mapped`: the query of the driver is commented out. -/
def isMapped (_addr : Word) : Bool := true

@[simp] theorem isMapped_eq_true (addr : Word) : isMapped addr = true := rfl

/-- `is_mapped_range`: one query for each page from `base`. -/
def isMappedRange (base range : Word) : Bool :=
  (List.range ((pageAlign range).toNat / 4096 + 1)).all
    fun i => isMapped (base + BitVec.ofNat 64 (4096 * i))

/-- `get_prot`: the query of the driver is commented out. -/
def getProt (_addr : Word) : Option Prot := some ⟨true, true, true⟩

@[simp] theorem isMappedRange_eq_true (base range : Word) : isMappedRange base range = true := by
  simp [isMappedRange]

/-! ## Reading -/

/-- The buffer that is read into, and the space that is read. -/
structure Reading where
  buf : Nat → Byte
  space : Space

/-- `round_read`: copy `size` bytes at `src + offt` to `buf + offt`, and put the
protection of the page back.  The count is zero when the page is reported unreadable and
cannot be opened, or when its protection cannot be set. -/
def roundRead (k : Kernel) (src offt size : Word) (s : Reading) :
    EStateM.Result Halt Reading Nat :=
  let page := pageAlign (src + offt)
  if !isMapped (src + offt) then .ok 0 s
  else
    match getProt (src + offt) with
    | none => .ok 0 s
    | some prot =>
      match (if prot.read then some s.space
        else k.mprotectPage s.space page { prot with read := true }) with
      | none => .ok 0 s
      | some m =>
        -- The `memmove`.
        if !k.canLoad m (src + offt) size.toNat then .error .crash ⟨s.buf, m⟩
        else
          let buf := fill s.buf offt.toNat size.toNat (window m.byte src)
          match k.mprotectPage m page prot with
          | none => .ok 0 ⟨buf, m⟩
          | some m => .ok size.toNat ⟨buf, m⟩

/-- The `assert` after a copy: the buffer and the memory agree on the range.  Both loops
have opened every page of the range by then, so the comparison does not fault. -/
def copied (m : Space) (buf : Nat → Byte) (addr size : Word) : Bool :=
  (List.range size.toNat).all fun i => buf i == window m.byte addr i

/-- The loop of `mem_read`.  `at_` is the variable `_k` of the source, the number
of bytes copied so far, and `sz` is the size of the next chunk. -/
def memReadLoop (k : Kernel) (src size : Word) :
    Nat → Word → Word → Int → Int → Reading → EStateM.Result Halt Reading Int
  | 0, _, _, _, _, s => .error .diverge s
  | fuel + 1, at_, sz, count, ret, s =>
    if at_ = size then
      if copied s.space s.buf src size then .ok ret s else .error .assertion s
    else
      match roundRead k src at_ sz s with
      | .error h s => .error h s
      | .ok r s =>
        if r = 0 then .ok count s
        else
          let next := at_ + sz
          let sz :=
            if pageAlign (next + src) = pageAlign (size + src) then size - next else PAGE_SZ
          memReadLoop k src size fuel next sz (count + r) r s

/-- `mem_read`.  A range inside one page is one chunk and returns its count.  A
longer range goes through the loop, which returns the size of its last chunk. -/
def memRead (k : Kernel) (src size : Word) (s : Reading) : EStateM.Result Halt Reading Int :=
  if size = 0 then .ok 0 s
  else if PAGE_SZ - pageOfft src < size then
    memReadLoop k src size (size.toNat + 1) 0 (PAGE_SZ - pageOfft src) 0 0 s
  else
    match roundRead k src 0 size s with
    | .error h s => .error h s
    | .ok r s => .ok (if r = 0 then -1 else r) s

/-! ## Writing -/

/-- A 64-bit value that is stored in an `int` and used in 64-bit arithmetic again. -/
def throughInt (x : Word) : Word := (x.setWidth 32).signExtend 64

theorem throughInt_of_lt {x : Word} (h : x.toNat < 2 ^ 31) : throughInt x = x := by
  have hmsb : (x.setWidth 32).msb = false := by
    rw [BitVec.msb_eq_false_iff_two_mul_lt, BitVec.toNat_setWidth]
    omega
  apply BitVec.eq_of_toNat_eq
  rw [throughInt, BitVec.signExtend_eq_setWidth_of_msb_false hmsb, BitVec.toNat_setWidth,
    BitVec.toNat_setWidth]
  omega

/-- The value that a `size_t` below `2 ^ 31` has when it is returned as an `int`. -/
theorem setWidth_toInt_of_lt {x : Word} (h : x.toNat < 2 ^ 31) :
    (x.setWidth 32).toInt = x.toNat := by
  rw [BitVec.toInt_eq_toNat_of_lt (by rw [BitVec.toNat_setWidth]; omega), BitVec.toNat_setWidth]
  omega

/-- The loop of `mem_write`.  `at_` is the variable `k` of the source, an `int` that is
added to 64-bit values.  The test `k == size` comes after the copy, so the last round
copies nothing but still sets the protection of the page of `dst + size`. -/
def memWriteLoop (k : Kernel) (dst : Word) (buf : Nat → Byte) (size : Word) :
    Nat → Word → Space → EStateM.Result Halt Space Int
  | 0, _, m => .error .diverge m
  | fuel + 1, at_, m =>
    let page := pageAlign (dst + at_)
    match getProt (dst + at_) with
    | none => .ok (-1) m
    | some prot =>
      let room := PAGE_SZ - pageOfft (dst + at_)
      let sz := if room < size - at_ then room else size - at_
      match (if prot.write then some m else k.mprotectPage m page { prot with write := true }) with
      | none => .ok (-1) m
      | some m =>
        -- The `memmove`.
        if !m.canStore (dst + at_) sz.toNat then .error .crash m
        else
          let m := { m with byte := patch m.byte dst at_.toNat sz.toNat buf }
          match k.mprotectPage m page prot with
          | none => .ok (-1) m
          | some m =>
            if at_ = size then
              if copied m buf dst size then .ok (size.setWidth 32).toInt m else .error .assertion m
            else memWriteLoop k dst buf size fuel (throughInt (at_ + sz)) m

/-- `mem_write` -/
def memWrite (k : Kernel) (dst : Word) (buf : Nat → Byte) (size : Word) (m : Space) :
    EStateM.Result Halt Space Int :=
  if !isMappedRange (pageAlign dst) (size + pageOfft dst) then .ok (-1) m
  else memWriteLoop k dst buf size (size.toNat + 1) 0 m

/-- `map_page`: one anonymous page over whatever is at `addr`. -/
def mapPage (k : Kernel) (m : Space) (addr : Word) (prot : Prot) : Except Halt Space :=
  match k.mmapFixed m (pageAlign addr) PAGE_SZ prot with
  | none => .error .fatal
  | some m => .ok m

/-! ## One chunk -/

/-- The `assert` after a copy holds when the buffer has been filled. -/
theorem copied_of_forall {m : Space} {buf : Nat → Byte} {addr size : Word}
    (h : ∀ i, i < size.toNat → buf i = window m.byte addr i) : copied m buf addr size = true := by
  simp only [copied, List.all_eq_true, List.mem_range, beq_iff_eq]
  exact h

/-- The `assert` only looks at the range. -/
theorem copied_congr {m m' : Space} {buf buf' : Nat → Byte} {addr size : Word}
    (h : ∀ i, i < size.toNat → buf i = buf' i ∧ window m.byte addr i = window m'.byte addr i) :
    copied m buf addr size = copied m' buf' addr size := by
  rw [copied, copied, Bool.eq_iff_iff, List.all_eq_true, List.all_eq_true]
  refine forall₂_congr fun i hi => ?_
  obtain ⟨hbuf, hbyte⟩ := h i (List.mem_range.mp hi)
  rw [hbuf, hbyte]

/-! ## The read loop -/

/-- The chunk `[at_, at_ + sz)` is what the loop of `mem_read` may copy next: it
is not empty, it lies in one page and in the range, and it ends with the range
or with its page. -/
structure Chunk (src size at_ sz : Word) : Prop where
  pos : 0 < sz.toNat
  inRange : at_.toNat + sz.toNat ≤ size.toNat
  inPage : (src.toNat + at_.toNat) % 4096 + sz.toNat ≤ 4096
  ends : at_.toNat + sz.toNat = size.toNat ∨ (src.toNat + at_.toNat + sz.toNat) % 4096 = 0

/-- The chunk after a chunk that ended with its page. -/
theorem Chunk.next {src size at_ : Word}
    (hlt : at_.toNat < size.toNat) (halign : (src.toNat + at_.toNat) % 4096 = 0) :
    Chunk src size at_
      (if pageAlign (at_ + src) = pageAlign (size + src) then size - at_ else PAGE_SZ) := by
  have hsub : (size - at_).toNat = size.toNat - at_.toNat :=
    BitVec.toNat_sub_of_le (BitVec.le_def.mpr (by omega))
  have hsrc := src.isLt
  have hpages : pageAlign (at_ + src) = pageAlign (size + src) ↔
      (at_.toNat + src.toNat) % 2 ^ 64 / 4096 = (size.toNat + src.toNat) % 2 ^ 64 / 4096 := by
    rw [← BitVec.toNat_inj, pageAlign_toNat, pageAlign_toNat, BitVec.toNat_add, BitVec.toNat_add]
    omega
  split
  · rename_i hsame
    rw [hpages] at hsame
    exact ⟨by omega, by omega, by omega, Or.inl (by omega)⟩
  · rename_i hother
    rw [hpages] at hother
    exact ⟨by simp, by simp; omega, by simp; omega, Or.inr (by simp; omega)⟩

/-- The first chunk of a range that leaves its page. -/
theorem Chunk.first {src size : Word} (h : PAGE_SZ - pageOfft src < size) :
    Chunk src size 0 (PAGE_SZ - pageOfft src) := by
  have hroom := pageRoom_toNat src
  rw [BitVec.lt_def] at h
  generalize PAGE_SZ - pageOfft src = room at hroom h ⊢
  exact ⟨by omega, by simp; omega, by simp; omega, Or.inr (by simp; omega)⟩

end Dryadalis
