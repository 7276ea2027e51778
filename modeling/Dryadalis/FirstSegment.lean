import Dryadalis.SegmentPages

/-!
# The segment that fixes the load base

`map_load` has a branch of its own for the first segment, in which `curr_map` stays zero.
That variable is an address on the other branch, and the code past the file part is
guarded by it, so the first segment gets no zeroed tail and no anonymous pages.  Its file
part is put at the load base itself, which for a position-independent binary is not where
`p_vaddr` says.

`LikeLater` compares the two branches over one address space: what the first segment
leaves at its load address, and what `map_load` leaves there once the base is known.
-/

namespace Dryadalis

open ByteMem

/-- The binary with other bytes in its file. -/
def Binary.withFile (b : Binary) (file : Nat → Byte) : Binary := { b with file := file }

/-- For every file and every address space, the segment has the same bytes and the same
protections at its load address whether `map_load` loads it first or later. -/
def LikeLater (k : Kernel) (b : Binary) (ph : Phdr) : Prop :=
  ∀ (file : Nat → Byte) (l l₁ l₂ : Loader), l.base = 0 →
    mapLoad k (b.withFile file) ph l = some l₁ →
    mapLoad k (b.withFile file) ph { l with base := l₁.base } = some l₂ →
    ∀ i, i < ph.pMemsz.toNat →
      let x := loadAddress b l₁.base ph + BitVec.ofNat 64 i
      l₁.space.byte x = l₂.space.byte x ∧
        l₁.space.prot (pageAlign x) = l₂.space.prot (pageAlign x)

/-- Over some address space, `map_load` returns 0 on both branches. -/
def BothLoad (k : Kernel) (b : Binary) (ph : Phdr) : Prop :=
  ∃ l l₁ l₂ : Loader, l.base = 0 ∧ mapLoad k b ph l = some l₁ ∧
    mapLoad k b ph { l with base := l₁.base } = some l₂

/-! ## Success does not depend on the bytes -/

/-- The two loaders differ in the bytes of memory only, or in the break. -/
structure SameMap (l l' : Loader) : Prop where
  prot : l'.space.prot = l.space.prot
  base : l'.base = l.base

section SameMaps

variable {k : Kernel} {b : Binary} {ph : Phdr} {l l' l₁ : Loader} {m m' m₁ : Space}
  {addr len offset curr : Word} {p : Prot}

theorem mmapFile_sameMap (hprot : m'.prot = m.prot) {file : Nat → Byte} (file' : Nat → Byte)
    (h : k.mmapFile m file addr len offset p = some m₁) :
    ∃ m₁', k.mmapFile m' file' addr len offset p = some m₁' ∧ m₁'.prot = m₁.prot := by
  obtain ⟨hofft, hlen, hgrant, rfl⟩ := mmapFile_eq_some h
  rw [Kernel.mmapFile, if_pos ⟨hofft, hlen, hgrant⟩, hprot]
  exact ⟨_, rfl, rfl⟩

theorem mprotectRange_sameMap (hprot : m'.prot = m.prot)
    (h : k.mprotectRange m addr len p = some m₁) :
    ∃ m₁', k.mprotectRange m' addr len p = some m₁' ∧ m₁'.prot = m₁.prot := by
  rw [Kernel.mprotectRange] at h ⊢
  rw [hprot]
  split at h
  · rename_i hall
    obtain rfl := Option.some.inj h
    rw [if_pos hall]
    exact ⟨_, rfl, rfl⟩
  · cases h

theorem mapSegment_sameMap (hsame : SameMap l l') (file : Nat → Byte)
    (h : mapSegment k b ph l = some (curr, l₁)) :
    ∃ l₁', mapSegment k (b.withFile file) ph l' = some (curr, l₁') ∧ SameMap l₁ l₁' := by
  rw [mapSegment] at h ⊢
  rw [hsame.base]
  split at h
  · rename_i hbase
    simp only [bind, Option.bind_eq_some_iff, pure, Option.some.injEq, Prod.mk.injEq] at h
    obtain ⟨m, hm, rfl, rfl⟩ := h
    obtain ⟨m', hm', hprot⟩ := mmapFile_sameMap hsame.prot file hm
    rw [if_pos hbase]
    exact ⟨_, congrArg (· >>= _) hm', hprot, rfl⟩
  · rename_i hbase
    simp only [bind, Option.bind_eq_some_iff, pure, Option.some.injEq, Prod.mk.injEq] at h
    obtain ⟨m, hm, rfl, rfl⟩ := h
    obtain ⟨m', hm', hprot⟩ := mmapFile_sameMap hsame.prot file hm
    rw [if_neg hbase]
    exact ⟨_, congrArg (· >>= _) hm', hprot, rfl⟩

theorem mapBss_sameMap (hsame : SameMap l l') (h : mapBss k ph curr l = some l₁) :
    ∃ l₁', mapBss k ph curr l' = some l₁' ∧ SameMap l₁ l₁' := by
  simp only [mapBss] at h ⊢
  split at h
  · rename_i htail
    rw [if_pos htail]
    split at h
    · rename_i hbss
      rw [if_pos hbss, hsame.prot]
      simp only [bind, Option.bind_eq_some_iff, pure, Option.some.injEq] at h
      obtain ⟨m, hm, hl⟩ := h
      obtain ⟨hlen, hgrant, rfl⟩ := mmapFixed_eq_some hm
      subst hl
      exact ⟨_, congrArg (· >>= _) (mmapFixed_of_grants ⟨hlen, hgrant⟩), rfl, hsame.base⟩
    · rename_i hbss
      rw [if_neg hbss]
      split at h
      · rename_i hw
        obtain rfl := Option.some.inj h
        exact ⟨_, if_pos hw, hsame.prot, hsame.base⟩
      · rename_i hw
        obtain rfl := Option.some.inj h
        exact ⟨_, if_neg hw, hsame.prot, hsame.base⟩
  · rename_i htail
    rw [if_neg htail]
    split at h
    · rename_i hw
      obtain rfl := Option.some.inj h
      exact ⟨_, if_pos hw, hsame.prot, hsame.base⟩
    · rename_i hw
      obtain rfl := Option.some.inj h
      exact ⟨_, if_neg hw, hsame⟩

theorem mapLoad_sameMap (hsame : SameMap l l') (file : Nat → Byte)
    (h : mapLoad k b ph l = some l₁) :
    ∃ l₁', mapLoad k (b.withFile file) ph l' = some l₁' ∧ SameMap l₁ l₁' := by
  simp only [mapLoad, bind, Option.bind_eq_some_iff, pure, Option.some.injEq] at h
  obtain ⟨⟨curr, l₂⟩, hseg, l₃, hbss, m, hprot, rfl⟩ := h
  obtain ⟨l₂', hseg', hsame₂⟩ := mapSegment_sameMap hsame file hseg
  obtain ⟨l₃', hbss', hsame₃⟩ := mapBss_sameMap hsame₂ hbss
  rw [← hsame₃.base] at hprot
  obtain ⟨m', hm', heq⟩ := mprotectRange_sameMap hsame₃.prot hprot
  refine ⟨{ l₃' with space := m' }, ?_, heq, hsame₃.base⟩
  simp only [mapLoad, bind, hseg', hbss', Option.bind_some, hm', pure]

/-- The two branches of `map_load` return 0 over other bytes as well. -/
theorem BothLoad.withFile (hboth : BothLoad k b ph) (file : Nat → Byte) (bytes : Word → Byte) :
    ∃ l l₁ l₂ : Loader, l.base = 0 ∧ l.space.byte = bytes ∧
      mapLoad k (b.withFile file) ph l = some l₁ ∧
      mapLoad k (b.withFile file) ph { l with base := l₁.base } = some l₂ := by
  obtain ⟨l, l₁, l₂, hbase, h₁, h₂⟩ := hboth
  let l' : Loader := { l with space := ⟨bytes, l.space.prot⟩ }
  obtain ⟨l₁', h₁', hsame⟩ := mapLoad_sameMap (⟨rfl, rfl⟩ : SameMap l l') file h₁
  rw [← hsame.base] at h₂
  have hsame₂ : SameMap { l with base := l₁'.base } { l' with base := l₁'.base } := ⟨rfl, rfl⟩
  obtain ⟨l₂', h₂', -⟩ := mapLoad_sameMap hsame₂ file h₂
  exact ⟨l', l₁', l₂', hbase, rfl, h₁', h₂'⟩

end SameMaps

section Segment

variable {k : Kernel} {b : Binary} {ph : Phdr} {l l₁ l₂ : Loader}

/-- The two loads of a segment. -/
theorem mapLoad_both (hk : k.UserSpace) (hbase : l.base = 0) (h₁ : mapLoad k b ph l = some l₁)
    (h₂ : mapLoad k b ph { l with base := l₁.base } = some l₂) :
    l₁.base = firstAddress b ph ∧ LoadedFirst b (firstAddress b ph) ph l.space l₁.space ∧
      Loaded b (loadAddress b l₁.base ph) ph l.space l₂.space := by
  have hfirst := mapLoad_loadedFirst hk hbase h₁
  have haddr := mapLoad_first_base hbase h₁
  have hne : l₁.base ≠ 0 := by
    rw [haddr]
    exact hfirst.file.ne_zero
  have hlater : Loaded b (loadAddress b l₁.base ph) ph l.space l₂.space :=
    mapLoad_loaded hk (l := { l with base := l₁.base }) hne h₂
  exact ⟨haddr, hfirst, hlater⟩

/-- Without a part past the file, a segment at the load base is loaded alike. -/
theorem space_eq_of_noTail {curr : Word} {m m₁ m₂ : Space} (hfirst : LoadedFirst b curr ph m m₁)
    (hlater : Loaded b curr ph m m₂) (hsize : ph.pMemsz ≤ ph.pFilesz) (x : Word) :
    m₁.byte x = m₂.byte x ∧ m₁.prot x = m₂.prot x := by
  have hless : ¬ ph.pFilesz < ph.pMemsz := BitVec.not_lt.mpr hsize
  have hneeds : ¬ NeedsBss curr ph := fun hn => hless hn.1
  rw [hfirst.byte, hlater.byte, hfirst.prot, hlater.prot]
  simp only [hless, hneeds, false_and, if_false, and_self]

/-- The first byte past the file part is zero after a later load. -/
theorem byte_after_file {curr : Word} {m m' : Space} (h : Loaded b curr ph m m')
    (hless : ph.pFilesz < ph.pMemsz) : m'.byte (curr + BitVec.ofNat 64 ph.pFilesz.toNat) = 0 := by
  have hsum := add_lt_of_memsz_le (BitVec.lt_def.mp hless).le h.memsz_le
  have hend := fileEnd_toNat hsum
  rw [h.byte, add_ofNat_toNat hsum]
  split
  · rfl
  · rw [if_pos ⟨hless, by omega, by omega⟩]

/-- The first byte of a page-aligned segment after a later load. -/
theorem byte_at_start {curr : Word} {m m' : Space} (h : Loaded b curr ph m m')
    (haligned : curr.toNat % 4096 = 0) (hofft : ph.pOffset.toNat % 4096 = 0)
    (hsize : ph.pMemsz ≤ ph.pFilesz) : m'.byte curr = b.file ph.pOffset.toNat := by
  have hless : ¬ ph.pFilesz < ph.pMemsz := BitVec.not_lt.mpr hsize
  have hneeds : ¬ NeedsBss curr ph := fun hn => hless hn.1
  have hstart := pageAlign_toNat curr
  have hofftAlign := pageAlign_toNat ph.pOffset
  have hle := h.file.le
  rw [h.byte, if_neg fun hin => hneeds hin.1, if_neg fun hin => hless hin.1,
    if_pos ⟨by omega, by omega⟩]
  congr 1
  omega

end Segment

section Alike

variable {k : Kernel} {b : Binary} {ph : Phdr}

/-- A part past the file is cleared by a later load only. -/
theorem memsz_le_of_likeLater (hk : k.UserSpace) (hboth : BothLoad k b ph)
    (hlike : LikeLater k b ph) : ph.pMemsz ≤ ph.pFilesz := by
  by_contra hnot
  have hless : ph.pFilesz < ph.pMemsz := BitVec.not_le.mp hnot
  -- No byte is zero before, and the first load clears none.
  obtain ⟨l, l₁, l₂, hzeroBase, hbytes, h₁, h₂⟩ := hboth.withFile (fun _ => 1) fun _ => 1
  obtain ⟨-, hfirst, hlater⟩ := mapLoad_both hk hzeroBase h₁ h₂
  have hsame := (hlike (fun _ => 1) l l₁ l₂ hzeroBase h₁ h₂ ph.pFilesz.toNat
    (BitVec.lt_def.mp hless)).1
  rw [show loadAddress b l₁.base ph = loadAddress (b.withFile fun _ => 1) l₁.base ph from rfl,
    byte_after_file hlater hless, hfirst.byte] at hsame
  simp [Binary.withFile, hbytes] at hsame

/-- A first segment of a PIE that is not at `p_vaddr` 0 is put at another place. -/
theorem placed_of_likeLater (hk : k.UserSpace) (hvaddr : pageOfft ph.pVaddr = 0)
    (hofft : pageOfft ph.pOffset = 0) (hboth : BothLoad k b ph) (hlike : LikeLater k b ph)
    (hpos : 0 < ph.pMemsz.toNat) (hsize : ph.pMemsz ≤ ph.pFilesz) :
    b.pie = false ∨ ph.pVaddr = 0 := by
  have hvaddrNat := mod_of_pageOfft hvaddr
  have hofftNat := mod_of_pageOfft hofft
  by_contra hplace
  simp only [not_or, Bool.not_eq_false] at hplace
  obtain ⟨hpie, hne⟩ := hplace
  -- Only the first byte of the segment is one.
  obtain ⟨l, l₁, l₂, hzeroBase, hbytes, h₁, h₂⟩ :=
    hboth.withFile (fun j => if j = ph.pOffset.toNat then 1 else 0) fun _ => 0
  obtain ⟨hbase, hfirst, hlater⟩ := mapLoad_both hk hzeroBase h₁ h₂
  have hsame := (hlike _ l l₁ l₂ hzeroBase h₁ h₂ 0 hpos).1
  have hload (file : Nat → Byte) :
      loadAddress (b.withFile file) l₁.base ph = l₁.base + ph.pVaddr := if_pos hpie
  rw [hload] at hlater
  rw [← hbase] at hfirst
  rw [show loadAddress b l₁.base ph = l₁.base + ph.pVaddr from if_pos hpie,
    show l₁.base + ph.pVaddr + BitVec.ofNat 64 0 = l₁.base + ph.pVaddr by simp] at hsame
  have hbaseNat : l₁.base.toNat % 4096 = 0 := by
    have halign := pageAlign_toNat l₁.base
    rw [hfirst.aligned] at halign
    omega
  have hstart : (l₁.base + ph.pVaddr).toNat % 4096 = 0 := by
    rw [BitVec.toNat_add]
    omega
  have hone := byte_at_start hlater hstart hofftNat hsize
  have hzeroByte : l₁.space.byte (l₁.base + ph.pVaddr) = 0 := by
    have hofftAlign := pageAlign_toNat ph.pOffset
    have hmoved : l₁.base.toNat ≠ (l₁.base + ph.pVaddr).toNat := by
      intro heq
      apply hne
      rw [BitVec.toNat_inj] at heq
      simpa using heq
    rw [hfirst.byte, hfirst.aligned]
    split
    · rename_i hin
      exact if_neg (by omega)
    · exact congrFun hbytes _
  rw [hzeroByte, hone] at hsame
  simp [Binary.withFile] at hsame

/-- Without a part past the file, a segment that both loads put at one place is the same
after both. -/
theorem likeLater_of_placed (hk : k.UserSpace) (hsize : ph.pMemsz ≤ ph.pFilesz)
    (hplace : b.pie = false ∨ ph.pVaddr = 0) : LikeLater k b ph := by
  intro file l l₁ l₂ hbase h₁ h₂ i hi
  obtain ⟨haddr, hfirst, hlater⟩ := mapLoad_both hk hbase h₁ h₂
  have hsamePlace : loadAddress (b.withFile file) l₁.base ph =
      firstAddress (b.withFile file) ph := by
    rw [haddr]
    rcases hplace with hfixed | hzero
    · simp [loadAddress, firstAddress, Binary.withFile, hfixed]
    · cases hpie : b.pie <;> simp [loadAddress, firstAddress, Binary.withFile, hzero, hpie]
  rw [hsamePlace] at hlater
  have hsame := space_eq_of_noTail hfirst hlater hsize
  intro x
  exact ⟨(hsame x).1, (hsame (pageAlign x)).2⟩

end Alike

/-- A first segment is loaded like a later one exactly when it is empty, or has no part past
the file and is put where `p_vaddr` says. -/
theorem likeLater_iff {k : Kernel} {b : Binary} {ph : Phdr} (hk : k.UserSpace)
    (hvaddr : pageOfft ph.pVaddr = 0) (hofft : pageOfft ph.pOffset = 0)
    (hboth : BothLoad k b ph) :
    LikeLater k b ph ↔
      ph.pMemsz = 0 ∨ ph.pMemsz ≤ ph.pFilesz ∧ (b.pie = false ∨ ph.pVaddr = 0) := by
  constructor
  · intro hlike
    by_cases hzero : ph.pMemsz = 0
    · exact Or.inl hzero
    · have hpos := BitVec.toNat_pos_of_ne_zero hzero
      have hsize := memsz_le_of_likeLater hk hboth hlike
      exact Or.inr ⟨hsize, placed_of_likeLater hk hvaddr hofft hboth hlike hpos hsize⟩
  · rintro (hzero | ⟨hsize, hplace⟩)
    · intro file l l₁ l₂ _ _ _ i hi
      rw [hzero] at hi
      exact absurd hi (Nat.not_lt_zero i)
    · exact likeLater_of_placed hk hsize hplace

/-- A writable segment with sixteen bytes in the file and sixteen past it. -/
def halfFile : Phdr := ⟨.LOAD, true, false, 0, 0x400000, 0x10, 0x20⟩

/-- Nothing is mapped, and no segment is loaded. -/
def Loader.empty : Loader := ⟨⟨fun _ => 0, fun _ => none⟩, 0, 0⟩

theorem bothLoad_halfFile : BothLoad Kernel.user (fixedBinary []) halfFile := by
  have h₁ : (mapLoad Kernel.user (fixedBinary []) halfFile .empty).isSome = true := by decide
  have h₂ : ((mapLoad Kernel.user (fixedBinary []) halfFile .empty).bind fun l₁ =>
      mapLoad Kernel.user (fixedBinary []) halfFile
        { Loader.empty with base := l₁.base }).isSome = true := by
    decide
  obtain ⟨l₁, h₁⟩ := Option.isSome_iff_exists.mp h₁
  rw [h₁] at h₂
  obtain ⟨l₂, h₂⟩ := Option.isSome_iff_exists.mp h₂
  exact ⟨.empty, l₁, l₂, rfl, h₁, h₂⟩

theorem likeLater_iff_halfFile :
    Kernel.user.UserSpace ∧ pageOfft halfFile.pVaddr = 0 ∧ pageOfft halfFile.pOffset = 0 ∧
      BothLoad Kernel.user (fixedBinary []) halfFile ∧
      (LikeLater Kernel.user (fixedBinary []) halfFile ↔
        halfFile.pMemsz = 0 ∨ halfFile.pMemsz ≤ halfFile.pFilesz ∧
          ((fixedBinary []).pie = false ∨ halfFile.pVaddr = 0)) :=
  ⟨Kernel.user_userSpace, rfl, rfl, bothLoad_halfFile,
    likeLater_iff Kernel.user_userSpace rfl rfl bothLoad_halfFile⟩

/-- The bytes past the file part of a first segment are the next bytes of the file. -/
theorem first_keeps_file_tail : ¬ LikeLater Kernel.user (fixedBinary []) halfFile := by
  intro hlike
  obtain ⟨l, l₁, l₂, hzeroBase, hbytes, h₁, h₂⟩ :=
    bothLoad_halfFile.withFile (fun _ => 1) fun _ => 0
  obtain ⟨-, hfirst, hlater⟩ := mapLoad_both Kernel.user_userSpace hzeroBase h₁ h₂
  have hsame := (hlike (fun _ => 1) l l₁ l₂ hzeroBase h₁ h₂ 0x10 (by decide)).1
  rw [show loadAddress (fixedBinary []) l₁.base halfFile + BitVec.ofNat 64 0x10 =
    0x400000 + BitVec.ofNat 64 halfFile.pFilesz.toNat from rfl] at hsame
  have hzero := byte_after_file hlater (by decide)
  have hone : l₁.space.byte (0x400000 + BitVec.ofNat 64 halfFile.pFilesz.toNat) = 1 := by
    rw [hfirst.byte]
    exact if_pos (by decide)
  rw [hone] at hsame
  exact absurd (hsame.trans hzero) (by decide)

end Dryadalis
