import Dryadalis.Loader

/-!
# The mappings of a segment

`map_load` makes up to three mappings for a segment: the file over the pages of the file
part and one more, zeroes over the pages that are left, and last the protections.
Each length comes out of nested uses of `PAGE_ROUND`.  This file computes them
(`fileMapLength_eq`), and takes a successful call apart: `mapLoad_first` is the call that
fixes the load base, and `mapLoad_later` every other one, with the three ways through
`mapBss` as `mapBss_cases`.

The kernel keeps a process in user space: it grants no mapping at address zero or above
`TASK_SIZE`.  This is `Kernel.UserSpace`, and `FileMap` is what it says about a file
mapping that was granted: nothing wraps around.
-/

namespace Dryadalis

open ByteMem

/-! ## User space -/

/-- The end of user space, with four levels of page tables. -/
@[irreducible] def TASK_SIZE : Nat := 0x7ffffffff000

theorem TASK_SIZE_lt : TASK_SIZE < 2 ^ 47 := by
  rw [TASK_SIZE]
  decide

/-- The kernel maps and protects only pages of user space, and never the first page. -/
structure Kernel.UserSpace (k : Kernel) : Prop where
  mmap_pos : ∀ {addr len : Word}, k.mmap addr len = true → 0 < addr.toNat
  mmap_le : ∀ {addr len : Word}, k.mmap addr len = true →
    addr.toNat + mappedLen len ≤ TASK_SIZE
  mprotect_le : ∀ {page : Word}, k.mprotect page = true → page.toNat + 4096 ≤ TASK_SIZE

/-- A kernel that grants whatever lies in user space. -/
def Kernel.user : Kernel :=
  { Kernel.granting with
    mmap := fun addr len => 0 < addr.toNat && addr.toNat + mappedLen len ≤ 0x7ffffffff000
    mprotect := fun page => page.toNat + 4096 ≤ 0x7ffffffff000 }

theorem Kernel.user_userSpace : Kernel.user.UserSpace where
  mmap_pos h := by
    simp only [Kernel.user, Bool.and_eq_true, decide_eq_true_eq] at h
    exact h.1
  mmap_le h := by
    simp only [Kernel.user, Bool.and_eq_true, decide_eq_true_eq] at h
    rw [TASK_SIZE]
    exact h.2
  mprotect_le h := by
    rw [TASK_SIZE]
    simpa [Kernel.user] using h

/-! ## Rounding -/

theorem pageRound_add_one (x : Word) : pageRound x + 1 = pageAlign x + 0x1000 := by
  rw [pageRound, BitVec.add_assoc]
  rfl

/-- Rounding up what is a multiple of the page size already. -/
theorem pageAlign_add_of_aligned {x : Word} (h : x.toNat % 4096 = 0) :
    pageAlign (x + 0xfff) = x := by
  have hx := x.isLt
  apply BitVec.eq_of_toNat_eq
  rw [pageAlign_toNat, BitVec.toNat_add, show (0xfff : Word).toNat = 4095 from rfl,
    Nat.mod_eq_of_lt (by omega)]
  omega

/-- A length of whole pages is mapped as it is. -/
theorem mappedLen_of_aligned {len : Word} (h : len.toNat % 4096 = 0) :
    mappedLen len = len.toNat := by
  rw [mappedLen]
  omega

theorem sub_aligned {x y : Word} (hx : x.toNat % 4096 = 0) (hy : y.toNat % 4096 = 0) :
    (x - y).toNat % 4096 = 0 := by
  rw [BitVec.toNat_sub]
  omega

/-- The nested rounding of a distance between two page boundaries adds one page. -/
theorem pageRound_sub_add_one {x y : Word} (hx : x.toNat % 4096 = 0) (hy : y.toNat % 4096 = 0) :
    pageRound (x - y) + 1 = x - y + 0x1000 := by
  have halign := pageAlign_of_aligned (sub_aligned hx hy)
  rw [pageRound_add_one, halign]

/-- The file mapping of a segment goes from its first page to the page of the byte after
its file part. -/
theorem fileMapLength_eq (curr filesz : Word) :
    fileMapLength curr filesz = pageAlign (curr + filesz) - pageAlign curr + 0x1000 := by
  have hend := pageAlign_toNat (curr + filesz)
  have hstart := pageAlign_toNat curr
  have hsub := sub_aligned (x := pageAlign (curr + filesz)) (y := pageAlign curr) (by omega)
    (by omega)
  have hround : pageRound (curr + filesz) - pageAlign curr =
      pageAlign (curr + filesz) - pageAlign curr + 0xfff := by
    rw [pageRound, BitVec.sub_eq_add_neg, BitVec.sub_eq_add_neg, BitVec.add_assoc,
      BitVec.add_comm 0xfff, ← BitVec.add_assoc]
  rw [fileMapLength, pageRound_add_one, hround, pageAlign_add_of_aligned hsub]

/-- The length that `map_load` computes before it knows the address is right for a segment
that starts with a page. -/
theorem fileMapLength_of_aligned {curr : Word} (h : curr.toNat % 4096 = 0) (filesz : Word) :
    fileMapLength curr filesz = fileMapLength 0 filesz := by
  have hcurr := pageAlign_of_aligned h
  have hsum : pageAlign (curr + filesz) = curr + pageAlign filesz := by
    apply BitVec.eq_of_toNat_eq
    rw [pageAlign_toNat, BitVec.toNat_add, BitVec.toNat_add, pageAlign_toNat]
    omega
  have hzero : pageAlign (0 : Word) = 0 := rfl
  rw [fileMapLength_eq, fileMapLength_eq, hcurr, hsum, hzero, BitVec.add_comm curr (pageAlign _),
    BitVec.add_sub_cancel]
  simp

/-! ## Calls that were granted -/

section Granted

variable {k : Kernel} {m m' : Space} {addr len : Word} {p : Prot}

theorem mmapFile_eq_some {file : Nat → Byte} {offset : Word}
    (h : k.mmapFile m file addr len offset p = some m') :
    pageOfft addr = 0 ∧ len ≠ 0 ∧ k.mmap addr len = true ∧
      m' = ⟨patch m.byte addr 0 (mappedLen len) (fun i => file (offset.toNat + i)),
        patch m.prot addr 0 (mappedLen len) fun _ => some p⟩ := by
  rw [Kernel.mmapFile] at h
  split at h
  · rename_i hall
    exact ⟨hall.1, hall.2.1, hall.2.2, (Option.some.inj h).symm⟩
  · cases h

theorem mmapFixed_eq_some (h : k.mmapFixed m addr len p = some m') :
    len ≠ 0 ∧ k.mmap addr len = true ∧
      m' = ⟨patch m.byte addr 0 (mappedLen len) (fun _ => 0),
        patch m.prot addr 0 (mappedLen len) fun _ => some p⟩ := by
  rw [Kernel.mmapFixed] at h
  split at h
  · rename_i hall
    exact ⟨hall.1, hall.2, (Option.some.inj h).symm⟩
  · cases h

/-- The kernel has a mapping at the page and lets its protection be set. -/
def Protectable (k : Kernel) (m : Space) (page : Word) : Bool :=
  (m.prot page).isSome && k.mprotect page

theorem mprotectRange_eq_some (h : k.mprotectRange m addr len p = some m') :
    (∀ i, i < mappedLen len / 4096 → Protectable k m (addr + BitVec.ofNat 64 (4096 * i)) = true) ∧
      m' = ⟨m.byte, patch m.prot addr 0 (mappedLen len) fun _ => some p⟩ := by
  rw [Kernel.mprotectRange] at h
  split at h
  · rename_i hall
    rw [List.all_eq_true] at hall
    exact ⟨fun i hi => hall i (List.mem_range.mpr hi), (Option.some.inj h).symm⟩
  · cases h

end Granted

/-! ## A file mapping that was granted -/

/-- Where the file mapping of a segment at `curr` ends: the page of the byte after the file
part. -/
def fileEnd (curr filesz : Word) : Word := pageAlign (curr + filesz)

/-- The file mapping covers the pages from that of `curr` to `fileEnd`, all of them in user
space. -/
structure FileMap (curr filesz : Word) : Prop where
  pos : 0 < (pageAlign curr).toNat
  le : (pageAlign curr).toNat ≤ (fileEnd curr filesz).toNat
  below : (fileEnd curr filesz).toNat + 4096 ≤ TASK_SIZE
  len : mappedLen (fileMapLength curr filesz) =
    (fileEnd curr filesz).toNat + 4096 - (pageAlign curr).toNat

theorem fileMap_of_mmap {k : Kernel} (hk : k.UserSpace) {curr filesz : Word}
    (hlen : fileMapLength curr filesz ≠ 0)
    (h : k.mmap (pageAlign curr) (fileMapLength curr filesz) = true) : FileMap curr filesz := by
  have hpos := hk.mmap_pos h
  have hle := hk.mmap_le h
  have hne := BitVec.toNat_pos_of_ne_zero hlen
  have hstart := pageAlign_toNat curr
  have hend := pageAlign_toNat (curr + filesz)
  have hlenNat : (fileMapLength curr filesz).toNat =
      ((fileEnd curr filesz).toNat + 2 ^ 64 - (pageAlign curr).toNat + 4096) % 2 ^ 64 := by
    have hstart' := (pageAlign curr).isLt
    rw [fileMapLength_eq, BitVec.toNat_add, BitVec.toNat_sub, fileEnd,
      show (0x1000 : Word).toNat = 4096 from rfl]
    omega
  have hlt := (fileEnd curr filesz).isLt
  rw [show pageAlign (curr + filesz) = fileEnd curr filesz from rfl] at hend
  have haligned : (fileMapLength curr filesz).toNat % 4096 = 0 := by omega
  rw [mappedLen_of_aligned haligned] at hle
  unfold TASK_SIZE at hle
  refine ⟨hpos, by omega, by unfold TASK_SIZE; omega, ?_⟩
  rw [mappedLen_of_aligned haligned]
  omega

theorem FileMap.ne_zero {curr filesz : Word} (h : FileMap curr filesz) : curr ≠ 0 := by
  intro hzero
  have hpos := h.pos
  rw [hzero] at hpos
  exact absurd hpos (by decide)

/-! ## One call -/

section Call

variable {k : Kernel} {b : Binary} {ph : Phdr} {l l' : Loader}

/-- Where `map_load` puts a segment once the load base is known: the variable `curr_map`. -/
def loadAddress (b : Binary) (base : Word) (ph : Phdr) : Word :=
  if b.pie then base + ph.pVaddr else ph.pVaddr

/-- Where `map_load` puts the segment that fixes the load base. -/
def firstAddress (b : Binary) (ph : Phdr) : Word := if b.pie then b.baseAddress else ph.pVaddr

/-- The protections of the file mapping. -/
def Phdr.mapProt (ph : Phdr) : Prot := ⟨true, true, ph.pfX⟩

/-- The protections that the segment asks for. -/
def Phdr.prot (ph : Phdr) : Prot := ⟨true, ph.pfW, ph.pfX⟩

/-- The end of the anonymous mapping, less one page. -/
def bssEnd (curr memsz : Word) : Word := pageAlign (curr + memsz) + 0x1000

/-- The file mapping ends before the pages of the segment do, so that the rest is mapped
on its own. -/
def NeedsBss (curr : Word) (ph : Phdr) : Prop :=
  ph.pFilesz < ph.pMemsz ∧ curr ≠ 0 ∧
    fileEnd curr ph.pFilesz + 0x1000 < bssEnd curr ph.pMemsz

instance (curr : Word) (ph : Phdr) : Decidable (NeedsBss curr ph) :=
  inferInstanceAs (Decidable (_ ∧ _ ∧ _))

/-- The number of bytes from the end of the file part to the end of the file mapping. -/
def tailLen (curr filesz : Word) : Nat :=
  (fileEnd curr filesz + 0x1000 - (curr + filesz)).toNat

/-- The space after these bytes were cleared. -/
def clearTail (curr filesz : Word) (m : Space) : Space :=
  { m with byte := patch m.byte (curr + filesz) 0 (tailLen curr filesz) fun _ => 0 }

/-- The first segment is mapped at the load base, and only its file part is. -/
theorem mapLoad_first (hbase : l.base = 0) (h : mapLoad k b ph l = some l') :
    ∃ m, k.mmapFile l.space b.file (firstAddress b ph) (fileMapLength 0 ph.pFilesz)
        (pageAlign ph.pOffset) ph.mapProt = some m ∧
      ∃ m', k.mprotectRange m (firstAddress b ph) (pageRound ph.pMemsz) ph.prot = some m' ∧
        l'.space = m' ∧ l'.base = firstAddress b ph ∧
        l'.vbrk = if ph.pfW then firstAddress b ph + fileMapLength 0 ph.pFilesz + 1
          else l.vbrk := by
  simp only [mapLoad, mapSegment, if_pos hbase, bind, Option.bind_eq_some_iff, pure,
    Option.some.injEq] at h
  obtain ⟨⟨curr, l₁⟩, ⟨m, hm, heq⟩, l₂, hbss, m', hprot, rfl⟩ := h
  obtain ⟨rfl, rfl⟩ : 0 = curr ∧ { l with space := m, base := firstAddress b ph } = l₁ := by
    simpa [firstAddress] using heq
  have hl₂ : l₂ = { l with
      space := m
      base := firstAddress b ph
      vbrk := if ph.pfW then firstAddress b ph + fileMapLength 0 ph.pFilesz + 1
        else l.vbrk } := by
    rw [mapBss, if_neg (by simp)] at hbss
    split at hbss
    · rename_i hw
      simpa [hw, eq_comm] using hbss
    · rename_i hw
      simpa [hw, eq_comm] using hbss
  subst hl₂
  exact ⟨m, hm, m', by simpa [Phdr.prot] using hprot, rfl, rfl, rfl⟩

/-- The space after the part of a segment past the file. -/
inductive BssSpace (k : Kernel) (curr : Word) (ph : Phdr) (m : Space) : Space → Prop
  | mapped {m' : Space} (hbss : NeedsBss curr ph)
      (h : k.mmapFixed (clearTail curr ph.pFilesz m) (fileEnd curr ph.pFilesz + 0x1000)
        (bssEnd curr ph.pMemsz - (fileEnd curr ph.pFilesz + 0x1000) + 0x1000) ph.prot = some m') :
      BssSpace k curr ph m m'
  | cleared (hbss : ¬ NeedsBss curr ph) (h : ph.pFilesz < ph.pMemsz) :
      BssSpace k curr ph m (clearTail curr ph.pFilesz m)
  | none (h : ¬ ph.pFilesz < ph.pMemsz) : BssSpace k curr ph m m

/-- The break after a segment that is not the first. -/
def breakAfter (curr : Word) (ph : Phdr) (vbrk : Word) : Word :=
  if NeedsBss curr ph then bssEnd curr ph.pMemsz + 0x1000
  else if ph.pfW then
    if ph.pFilesz < ph.pMemsz then fileEnd curr ph.pFilesz + 0x1000
    else pageAlign curr + fileMapLength 0 ph.pFilesz + 1
  else vbrk

/-- The distance between two page boundaries, rounded as `map_load` rounds it. -/
theorem bss_length (curr filesz memsz : Word) :
    pageRound (bssEnd curr memsz - (fileEnd curr filesz + 0x1000)) + 1 =
      bssEnd curr memsz - (fileEnd curr filesz + 0x1000) + 0x1000 := by
  have hfile := pageAlign_toNat (curr + filesz)
  have hbss := pageAlign_toNat (curr + memsz)
  apply pageRound_sub_add_one
  · rw [bssEnd, BitVec.toNat_add, show (0x1000 : Word).toNat = 4096 from rfl]
    omega
  · rw [fileEnd, BitVec.toNat_add, show (0x1000 : Word).toNat = 4096 from rfl]
    omega

/-- The break after an anonymous mapping is its end. -/
theorem bss_break (curr filesz memsz : Word) :
    fileEnd curr filesz + 0x1000 +
        pageRound (bssEnd curr memsz - (fileEnd curr filesz + 0x1000)) + 1 =
      bssEnd curr memsz + 0x1000 := by
  have hlen := bss_length curr filesz memsz
  generalize fileEnd curr filesz + 0x1000 = mapEnd at hlen ⊢
  rw [BitVec.add_assoc, hlen, ← BitVec.add_assoc, BitVec.add_comm mapEnd, BitVec.sub_add_cancel]

theorem mapBss_cases {curr : Word} (hcurr : curr ≠ 0) {l l' : Loader}
    (h : mapBss k ph curr l = some l') :
    BssSpace k curr ph l.space l'.space ∧ l'.base = l.base ∧
      l'.vbrk = breakAfter curr ph l.vbrk := by
  have hmap : pageRound (curr + ph.pFilesz) + 1 = fileEnd curr ph.pFilesz + 0x1000 :=
    pageRound_add_one _
  have hbss : pageRound (curr + ph.pMemsz) + 1 = bssEnd curr ph.pMemsz := pageRound_add_one _
  rw [mapBss] at h
  simp only [hmap, hbss, bss_break, bss_length] at h
  split at h
  · rename_i hmore
    split at h
    · rename_i hend
      have hneeds : NeedsBss curr ph := ⟨hmore.1, hcurr, hend⟩
      simp only [bind, Option.bind_eq_some_iff, pure, Option.some.injEq] at h
      obtain ⟨m, hm, rfl⟩ := h
      exact ⟨.mapped hneeds hm, rfl, by rw [breakAfter, if_pos hneeds]⟩
    · rename_i hend
      have hneeds : ¬ NeedsBss curr ph := fun hn => hend hn.2.2
      split at h
      · rename_i hw
        obtain rfl := Option.some.inj h
        exact ⟨.cleared hneeds hmore.1, rfl, by
          rw [breakAfter, if_neg hneeds, if_pos hw, if_pos hmore.1]⟩
      · rename_i hw
        obtain rfl := Option.some.inj h
        exact ⟨.cleared hneeds hmore.1, rfl, by rw [breakAfter, if_neg hneeds, if_neg hw]⟩
  · rename_i hfull
    have hless : ¬ ph.pFilesz < ph.pMemsz := fun hlt => hfull ⟨hlt, hcurr⟩
    have hneeds : ¬ NeedsBss curr ph := fun hn => hless hn.1
    split at h
    · rename_i hw
      obtain rfl := Option.some.inj h
      exact ⟨.none hless, rfl, by
        rw [breakAfter, if_neg hneeds, if_pos hw, if_neg hless]⟩
    · rename_i hw
      obtain rfl := Option.some.inj h
      exact ⟨.none hless, rfl, by rw [breakAfter, if_neg hneeds, if_neg hw]⟩

/-- Every other segment is mapped at its load address: the file, the part past the file,
and the protections. -/
theorem mapLoad_later (hk : k.UserSpace) (hbase : l.base ≠ 0)
    (h : mapLoad k b ph l = some l') :
    let curr := loadAddress b l.base ph
    FileMap curr ph.pFilesz ∧ ∃ m m₂,
      k.mmapFile l.space b.file (pageAlign curr) (fileMapLength curr ph.pFilesz)
        (pageAlign ph.pOffset) ph.mapProt = some m ∧
      BssSpace k curr ph m m₂ ∧
      k.mprotectRange m₂ (pageAlign curr) (pageRound ph.pMemsz) ph.prot = some l'.space ∧
      l'.base = l.base ∧ l'.vbrk = breakAfter curr ph l.vbrk := by
  intro curr
  simp only [mapLoad, mapSegment, if_neg hbase, bind, Option.bind_eq_some_iff, pure,
    Option.some.injEq] at h
  obtain ⟨⟨c, l₁⟩, ⟨m, hm, heq⟩, l₂, hbss, m', hprot, rfl⟩ := h
  obtain ⟨hc, rfl⟩ : curr = c ∧ { l with space := m } = l₁ := by
    simpa [curr, loadAddress] using heq
  subst hc
  obtain ⟨-, hlen, hgrant, -⟩ := mmapFile_eq_some hm
  have hfile : FileMap curr ph.pFilesz := fileMap_of_mmap hk hlen hgrant
  have hcurr := hfile.ne_zero
  obtain ⟨hspace, hbase', hvbrk⟩ := mapBss_cases hcurr hbss
  simp only [if_pos hcurr] at hprot
  exact ⟨hfile, m, l₂.space, hm, hspace, hprot, hbase', hvbrk⟩

theorem mapLoad_first_base (hbase : l.base = 0) (h : mapLoad k b ph l = some l') :
    l'.base = firstAddress b ph := by
  obtain ⟨-, -, -, -, -, hbase', -⟩ := mapLoad_first hbase h
  exact hbase'

theorem mapLoad_first_vbrk (hbase : l.base = 0) (h : mapLoad k b ph l = some l') :
    l'.vbrk =
      if ph.pfW then firstAddress b ph + fileMapLength 0 ph.pFilesz + 1 else l.vbrk := by
  obtain ⟨-, -, -, -, -, -, hvbrk⟩ := mapLoad_first hbase h
  exact hvbrk

theorem mapLoad_later_base (hk : k.UserSpace) (hbase : l.base ≠ 0)
    (h : mapLoad k b ph l = some l') : l'.base = l.base := by
  obtain ⟨-, -, -, -, -, -, hbase', -⟩ := mapLoad_later hk hbase h
  exact hbase'

theorem mapLoad_later_vbrk (hk : k.UserSpace) (hbase : l.base ≠ 0)
    (h : mapLoad k b ph l = some l') :
    l'.vbrk = breakAfter (loadAddress b l.base ph) ph l.vbrk := by
  obtain ⟨-, -, -, -, -, -, -, hvbrk⟩ := mapLoad_later hk hbase h
  exact hvbrk

end Call

/-! ## The space after a call -/

/-- Consecutive pages that can be protected lie in user space. -/
theorem Kernel.UserSpace.mprotect_range {k : Kernel} (hk : k.UserSpace) {addr : Word} {n : Nat}
    (hn : 0 < n) (h : ∀ i, i < n → k.mprotect (addr + BitVec.ofNat 64 (4096 * i)) = true) :
    addr.toNat + n * 4096 ≤ TASK_SIZE := by
  induction n with
  | zero => omega
  | succ n ih =>
    have htask := TASK_SIZE_lt
    have hlast := hk.mprotect_le (h n (Nat.lt_succ_self n))
    rcases Nat.eq_zero_or_pos n with hzero | hpos
    · rw [hzero, add_ofNat_toNat addr.isLt] at hlast
      linarith
    · have hbelow := ih hpos fun i hi => h i (Nat.lt_succ_of_lt hi)
      rw [add_ofNat_toNat (by omega)] at hlast
      linarith

/-- The length of the last `mprotect` is `p_memsz`, rounded up by at least one byte. -/
theorem mappedLen_pageRound (memsz : Word) :
    mappedLen (pageRound memsz) = memsz.toNat / 4096 * 4096 + 4096 := by
  have halign := pageAlign_toNat memsz
  have hlt := memsz.isLt
  rw [mappedLen, pageRound, BitVec.toNat_add, halign, show (0xfff : Word).toNat = 4095 from rfl,
    Nat.mod_eq_of_lt (by omega)]
  omega

/-- What `map_load` has done to the space for a segment at `curr` when it returns 0.  Every
byte and every protection is that of the last of its mappings that covers the address. -/
structure Loaded (b : Binary) (curr : Word) (ph : Phdr) (m m' : Space) : Prop where
  file : FileMap curr ph.pFilesz
  memsz_le : (pageAlign curr).toNat + (ph.pMemsz.toNat / 4096 * 4096 + 4096) ≤ TASK_SIZE
  byte : ∀ x : Word, m'.byte x =
    if NeedsBss curr ph ∧ (fileEnd curr ph.pFilesz).toNat + 4096 ≤ x.toNat ∧
        x.toNat < (bssEnd curr ph.pMemsz).toNat + 4096 then 0
    else if ph.pFilesz < ph.pMemsz ∧ curr.toNat + ph.pFilesz.toNat ≤ x.toNat ∧
        x.toNat < (fileEnd curr ph.pFilesz).toNat + 4096 then 0
    else if (pageAlign curr).toNat ≤ x.toNat ∧
        x.toNat < (fileEnd curr ph.pFilesz).toNat + 4096 then
      b.file ((pageAlign ph.pOffset).toNat + (x.toNat - (pageAlign curr).toNat))
    else m.byte x
  prot : ∀ x : Word, m'.prot x =
    if (pageAlign curr).toNat ≤ x.toNat ∧
        x.toNat < (pageAlign curr).toNat + (ph.pMemsz.toNat / 4096 * 4096 + 4096) then
      some ph.prot
    else if NeedsBss curr ph ∧ (fileEnd curr ph.pFilesz).toNat + 4096 ≤ x.toNat ∧
        x.toNat < (bssEnd curr ph.pMemsz).toNat + 4096 then some ph.prot
    else if (pageAlign curr).toNat ≤ x.toNat ∧
        x.toNat < (fileEnd curr ph.pFilesz).toNat + 4096 then some ph.mapProt
    else m.prot x

/-- What `map_load` has done to the space for the segment that fixes the load base, at
`curr`.  Nothing is cleared or mapped past the file part. -/
structure LoadedFirst (b : Binary) (curr : Word) (ph : Phdr) (m m' : Space) : Prop where
  aligned : pageAlign curr = curr
  file : FileMap curr ph.pFilesz
  memsz_le : (pageAlign curr).toNat + (ph.pMemsz.toNat / 4096 * 4096 + 4096) ≤ TASK_SIZE
  byte : ∀ x : Word, m'.byte x =
    if (pageAlign curr).toNat ≤ x.toNat ∧
        x.toNat < (fileEnd curr ph.pFilesz).toNat + 4096 then
      b.file ((pageAlign ph.pOffset).toNat + (x.toNat - (pageAlign curr).toNat))
    else m.byte x
  prot : ∀ x : Word, m'.prot x =
    if (pageAlign curr).toNat ≤ x.toNat ∧
        x.toNat < (pageAlign curr).toNat + (ph.pMemsz.toNat / 4096 * 4096 + 4096) then
      some ph.prot
    else if (pageAlign curr).toNat ≤ x.toNat ∧
        x.toNat < (fileEnd curr ph.pFilesz).toNat + 4096 then some ph.mapProt
    else m.prot x

/-- A patch that does not wrap around, at one address. -/
theorem patch_apply_of_le {β : Type} (f : Word → β) {a : Word} {n : Nat} (g : Nat → β)
    (hn : a.toNat + n ≤ 2 ^ 64) (x : Word) :
    patch f a 0 n g x =
      if a.toNat ≤ x.toNat ∧ x.toNat < a.toNat + n then g (x.toNat - a.toNat) else f x := by
  rw [patch_apply]
  by_cases h : InRange a n x
  · have hbounds := (inRange_iff hn).mp h
    have hx := x.isLt
    have hdist : ByteMem.dist a x = x.toNat - a.toNat := by
      rw [ByteMem.dist, BitVec.toNat_sub]
      omega
    rw [if_pos h, if_pos hbounds, hdist]
  · rw [if_neg h, if_neg fun hbounds => h ((inRange_iff hn).mpr hbounds)]

/-- Where the anonymous mapping of a segment ends that lies in user space. -/
theorem bssEnd_toNat {curr memsz : Word}
    (h : (pageAlign curr).toNat + (memsz.toNat / 4096 * 4096 + 4096) ≤ TASK_SIZE) :
    (bssEnd curr memsz).toNat = (curr.toNat + memsz.toNat) / 4096 * 4096 + 4096 := by
  have halign := pageAlign_toNat curr
  unfold TASK_SIZE at h
  rw [bssEnd, BitVec.toNat_add, pageAlign_toNat, BitVec.toNat_add,
    show (0x1000 : Word).toNat = 4096 from rfl]
  omega

theorem fileEnd_toNat {curr filesz : Word} (h : curr.toNat + filesz.toNat < 2 ^ 64) :
    (fileEnd curr filesz).toNat = (curr.toNat + filesz.toNat) / 4096 * 4096 := by
  rw [fileEnd, pageAlign_toNat, BitVec.toNat_add, Nat.mod_eq_of_lt h]

section LaterSegment

variable {k : Kernel} {b : Binary} {ph : Phdr} {curr : Word} {m m₁ m₂ m' : Space}

theorem add_page_toNat {x : Word} (h : x.toNat + 4096 ≤ TASK_SIZE) :
    (x + 0x1000).toNat = x.toNat + 4096 := by
  have htask := TASK_SIZE_lt
  rw [BitVec.toNat_add, show (0x1000 : Word).toNat = 4096 from rfl, Nat.mod_eq_of_lt (by omega)]

/-- A segment that can be protected does not wrap around. -/
theorem add_lt_of_memsz_le {sz : Word} (hsz : sz.toNat ≤ ph.pMemsz.toNat)
    (hmemsz : (pageAlign curr).toNat + (ph.pMemsz.toNat / 4096 * 4096 + 4096) ≤ TASK_SIZE) :
    curr.toNat + sz.toNat < 2 ^ 64 := by
  have halign := pageAlign_toNat curr
  unfold TASK_SIZE at hmemsz
  omega

/-- An anonymous mapping is made when the part past the file has a page of its own. -/
theorem needsBss_iff (hfile : FileMap curr ph.pFilesz)
    (hmemsz : (pageAlign curr).toNat + (ph.pMemsz.toNat / 4096 * 4096 + 4096) ≤ TASK_SIZE) :
    NeedsBss curr ph ↔ ph.pFilesz < ph.pMemsz ∧
      (curr.toNat + ph.pFilesz.toNat) / 4096 < (curr.toNat + ph.pMemsz.toNat) / 4096 := by
  have hbss := bssEnd_toNat hmemsz
  have hnext := add_page_toNat hfile.below
  have hend (hless : ph.pFilesz < ph.pMemsz) :=
    fileEnd_toNat (add_lt_of_memsz_le (BitVec.lt_def.mp hless).le hmemsz)
  constructor
  · rintro ⟨hless, -, hlt⟩
    have hlt := BitVec.lt_def.mp hlt
    have hend := hend hless
    exact ⟨hless, by omega⟩
  · rintro ⟨hless, hlt⟩
    have hend := hend hless
    exact ⟨hless, hfile.ne_zero, BitVec.lt_def.mpr (by omega)⟩

/-- Clearing goes from the end of the file part to the end of the file mapping. -/
theorem clearTail_byte (hfile : FileMap curr ph.pFilesz)
    (hsum : curr.toNat + ph.pFilesz.toNat < 2 ^ 64) (x : Word) :
    (clearTail curr ph.pFilesz m).byte x =
      if curr.toNat + ph.pFilesz.toNat ≤ x.toNat ∧
        x.toNat < (fileEnd curr ph.pFilesz).toNat + 4096 then 0 else m.byte x := by
  have hbelow := hfile.below
  have hend := fileEnd_toNat hsum
  have hstart : (curr + ph.pFilesz).toNat = curr.toNat + ph.pFilesz.toNat := by
    rw [BitVec.toNat_add, Nat.mod_eq_of_lt hsum]
  have hlen : tailLen curr ph.pFilesz =
      (fileEnd curr ph.pFilesz).toNat + 4096 - (curr.toNat + ph.pFilesz.toNat) := by
    have hnext := add_page_toNat hbelow
    rw [tailLen, BitVec.toNat_sub_of_le (BitVec.le_def.mpr (by omega)), hnext, hstart]
  have htask := TASK_SIZE_lt
  simp only [clearTail]
  rw [patch_apply_of_le _ _ (by omega), hstart, hlen]
  exact if_congr (by omega) rfl rfl

/-- The anonymous mapping goes from the end of the file mapping to one page past the page
of the byte after the segment. -/
theorem bss_mapped (hk : k.UserSpace) (hfile : FileMap curr ph.pFilesz)
    (hneeds : NeedsBss curr ph)
    (h : k.mmapFixed m₁ (fileEnd curr ph.pFilesz + 0x1000)
      (bssEnd curr ph.pMemsz - (fileEnd curr ph.pFilesz + 0x1000) + 0x1000) ph.prot = some m')
    (x : Word) :
    m'.byte x = (if (fileEnd curr ph.pFilesz).toNat + 4096 ≤ x.toNat ∧
        x.toNat < (bssEnd curr ph.pMemsz).toNat + 4096 then 0 else m₁.byte x) ∧
      m'.prot x = (if (fileEnd curr ph.pFilesz).toNat + 4096 ≤ x.toNat ∧
        x.toNat < (bssEnd curr ph.pMemsz).toNat + 4096 then some ph.prot else m₁.prot x) := by
  obtain ⟨-, hgrant, rfl⟩ := mmapFixed_eq_some h
  have hle := hk.mmap_le hgrant
  have hstart := add_page_toNat hfile.below
  have hlt := BitVec.lt_def.mp hneeds.2.2
  have hfileAlign := pageAlign_toNat (curr + ph.pFilesz)
  have hbssAlign : (bssEnd curr ph.pMemsz).toNat % 4096 = 0 := by
    have halign := pageAlign_toNat (curr + ph.pMemsz)
    rw [bssEnd, BitVec.toNat_add, show (0x1000 : Word).toNat = 4096 from rfl]
    omega
  have hbssLt := (bssEnd curr ph.pMemsz).isLt
  have hlen : (bssEnd curr ph.pMemsz - (fileEnd curr ph.pFilesz + 0x1000) + 0x1000).toNat =
      ((bssEnd curr ph.pMemsz).toNat - (fileEnd curr ph.pFilesz).toNat) := by
    rw [BitVec.toNat_add, BitVec.toNat_sub_of_le (BitVec.le_def.mpr hlt.le), hstart,
      show (0x1000 : Word).toNat = 4096 from rfl]
    omega
  rw [show pageAlign (curr + ph.pFilesz) = fileEnd curr ph.pFilesz from rfl] at hfileAlign
  have hmapped : mappedLen (bssEnd curr ph.pMemsz - (fileEnd curr ph.pFilesz + 0x1000) + 0x1000) =
      (bssEnd curr ph.pMemsz).toNat - (fileEnd curr ph.pFilesz).toNat := by
    rw [mappedLen_of_aligned (by omega), hlen]
  have htask := TASK_SIZE_lt
  rw [hmapped] at hle ⊢
  simp only
  constructor
  · rw [patch_apply_of_le _ _ (by omega), hstart]
    exact if_congr (by omega) rfl rfl
  · rw [patch_apply_of_le _ _ (by omega), hstart]
    exact if_congr (by omega) rfl rfl

/-- The space after the file mapping. -/
theorem fileMap_mapped (hfile : FileMap curr ph.pFilesz)
    (h : k.mmapFile m b.file (pageAlign curr) (fileMapLength curr ph.pFilesz)
      (pageAlign ph.pOffset) ph.mapProt = some m₁) (x : Word) :
    m₁.byte x = (if (pageAlign curr).toNat ≤ x.toNat ∧
        x.toNat < (fileEnd curr ph.pFilesz).toNat + 4096 then
          b.file ((pageAlign ph.pOffset).toNat + (x.toNat - (pageAlign curr).toNat))
        else m.byte x) ∧
      m₁.prot x = (if (pageAlign curr).toNat ≤ x.toNat ∧
        x.toNat < (fileEnd curr ph.pFilesz).toNat + 4096 then some ph.mapProt
        else m.prot x) := by
  obtain ⟨-, -, -, rfl⟩ := mmapFile_eq_some h
  have hlen := hfile.len
  have hle := hfile.le
  have hbelow := hfile.below
  have htask := TASK_SIZE_lt
  rw [hlen]
  simp only
  constructor
  · rw [patch_apply_of_le _ _ (by omega)]
    exact if_congr (by omega) rfl rfl
  · rw [patch_apply_of_le _ _ (by omega)]
    exact if_congr (by omega) rfl rfl

theorem BssSpace.apply (hk : k.UserSpace) (hfile : FileMap curr ph.pFilesz)
    (hmemsz : (pageAlign curr).toNat + (ph.pMemsz.toNat / 4096 * 4096 + 4096) ≤ TASK_SIZE)
    (h : BssSpace k curr ph m m') (x : Word) :
    m'.byte x =
      (if NeedsBss curr ph ∧ (fileEnd curr ph.pFilesz).toNat + 4096 ≤ x.toNat ∧
          x.toNat < (bssEnd curr ph.pMemsz).toNat + 4096 then 0
      else if ph.pFilesz < ph.pMemsz ∧ curr.toNat + ph.pFilesz.toNat ≤ x.toNat ∧
          x.toNat < (fileEnd curr ph.pFilesz).toNat + 4096 then 0
      else m.byte x) ∧
    m'.prot x =
      (if NeedsBss curr ph ∧ (fileEnd curr ph.pFilesz).toNat + 4096 ≤ x.toNat ∧
          x.toNat < (bssEnd curr ph.pMemsz).toNat + 4096 then some ph.prot
      else m.prot x) := by
  have hclear (hlt : ph.pFilesz < ph.pMemsz) :=
    clearTail_byte (m := m) hfile (add_lt_of_memsz_le (BitVec.lt_def.mp hlt).le hmemsz) x
  cases h with
  | mapped hneeds h =>
    obtain ⟨hbyte, hprot⟩ := bss_mapped hk hfile hneeds h x
    rw [hclear hneeds.1] at hbyte
    simp only [hneeds, hneeds.1, true_and]
    exact ⟨hbyte, hprot⟩
  | cleared hneeds hlt =>
    simp only [hneeds, hlt, true_and, false_and, if_false]
    exact ⟨hclear hlt, rfl⟩
  | none hless =>
    have hneeds : ¬ NeedsBss curr ph := fun hn => hless hn.1
    simp only [hneeds, hless, false_and, if_false, and_self]

/-- `mprotect` covers the pages of `p_memsz` bytes from the first page of the segment on,
and one more when these are whole pages. -/
theorem mprotect_memsz (hk : k.UserSpace)
    (h : k.mprotectRange m (pageAlign curr) (pageRound ph.pMemsz) ph.prot = some m') :
    (pageAlign curr).toNat + (ph.pMemsz.toNat / 4096 * 4096 + 4096) ≤ TASK_SIZE ∧
      m'.byte = m.byte ∧ ∀ x : Word, m'.prot x =
        if (pageAlign curr).toNat ≤ x.toNat ∧
          x.toNat < (pageAlign curr).toNat + (ph.pMemsz.toNat / 4096 * 4096 + 4096) then
          some ph.prot
        else m.prot x := by
  obtain ⟨hpages, rfl⟩ := mprotectRange_eq_some h
  have hlen := mappedLen_pageRound ph.pMemsz
  have hcount : mappedLen (pageRound ph.pMemsz) / 4096 = ph.pMemsz.toNat / 4096 + 1 := by
    rw [hlen, ← Nat.succ_mul, Nat.mul_div_cancel _ (by decide)]
  have hmemsz : (pageAlign curr).toNat + (ph.pMemsz.toNat / 4096 * 4096 + 4096) ≤ TASK_SIZE := by
    rw [← Nat.succ_mul, Nat.succ_eq_add_one, ← hcount]
    apply hk.mprotect_range (by rw [hcount]; exact Nat.succ_pos _)
    intro i hi
    have hpage := hpages i hi
    rw [Protectable, Bool.and_eq_true] at hpage
    exact hpage.2
  have htask := TASK_SIZE_lt
  refine ⟨hmemsz, rfl, fun x => ?_⟩
  simp only
  rw [hlen, patch_apply_of_le _ _ (by omega)]

end LaterSegment

section LoadedSegment

variable {k : Kernel} {b : Binary} {ph : Phdr} {l l' : Loader}

/-- The effect of `map_load` on the space, for every segment but the first. -/
theorem mapLoad_loaded (hk : k.UserSpace) (hbase : l.base ≠ 0)
    (h : mapLoad k b ph l = some l') :
    Loaded b (loadAddress b l.base ph) ph l.space l'.space := by
  obtain ⟨hfile, m, m₂, hmap, hbss, hprot, -, -⟩ := mapLoad_later hk hbase h
  obtain ⟨hmemsz, hbyte, hprot⟩ := mprotect_memsz hk hprot
  refine ⟨hfile, hmemsz, fun x => ?_, fun x => ?_⟩
  · rw [hbyte, (hbss.apply hk hfile hmemsz x).1, (fileMap_mapped hfile hmap x).1]
  · rw [hprot, (hbss.apply hk hfile hmemsz x).2, (fileMap_mapped hfile hmap x).2]

/-- The effect of `map_load` on the space, for the first segment. -/
theorem mapLoad_loadedFirst (hk : k.UserSpace) (hbase : l.base = 0)
    (h : mapLoad k b ph l = some l') :
    LoadedFirst b (firstAddress b ph) ph l.space l'.space := by
  obtain ⟨m, hmap, m', hprot, rfl, -, -⟩ := mapLoad_first hbase h
  generalize firstAddress b ph = curr at hmap hprot ⊢
  have hgrant := mmapFile_eq_some hmap
  have hofft := mod_of_pageOfft hgrant.1
  have haligned := pageAlign_of_aligned hofft
  have hlength := fileMapLength_of_aligned hofft ph.pFilesz
  rw [← hlength] at hmap hgrant
  nth_rewrite 1 [← haligned] at hmap
  have hfile : FileMap curr ph.pFilesz :=
    fileMap_of_mmap hk hgrant.2.1 (by rw [haligned]; exact hgrant.2.2.1)
  nth_rewrite 1 [← haligned] at hprot
  obtain ⟨hmemsz, hbyte, hprot⟩ := mprotect_memsz hk hprot
  refine ⟨haligned, hfile, hmemsz, fun x => ?_, fun x => ?_⟩
  · rw [hbyte, (fileMap_mapped hfile hmap x).1]
  · rw [hprot, (fileMap_mapped hfile hmap x).2]

end LoadedSegment

end Dryadalis
