import Dryadalis.SegmentMaps

/-!
# The image of a binary

The mappings of a segment reach up to two pages past the segment itself, and every one of
them is made with `MAP_FIXED`.  What is left after the loop of `map_binary` therefore
depends on the order of the segments.  In ascending order a segment only reaches into
pages that are still to be mapped, and the segments they belong to take them back.

`Layout` is the order of the segments in a file and `Conforms` what else the loader relies
on.  The bytes of a segment in the address space are `HasImage`.  The invariant of the
loop is `Imaged`; the part of it that concerns the load base is `BaseSet`.
-/

namespace Dryadalis

open ByteMem

/-! ## The segments of a binary -/

/-- The segments to load among program headers. -/
def loadsOf (phs : List Phdr) : List Phdr := phs.filter fun ph => ph.pType = .LOAD

/-- The segments to load. -/
def Binary.loads (b : Binary) : List Phdr := loadsOf b.sPh

/-- The load address of a segment. -/
def Binary.address (b : Binary) (ph : Phdr) : Word := loadAddress b b.baseAddress ph

theorem mem_loadsOf {phs : List Phdr} {ph : Phdr} :
    ph ∈ loadsOf phs ↔ ph ∈ phs ∧ ph.pType = .LOAD := by
  simp [loadsOf]

theorem loadsOf_append_load {phs : List Phdr} {ph : Phdr} (h : ph.pType = .LOAD) :
    loadsOf (phs ++ [ph]) = loadsOf phs ++ [ph] := by
  simp [loadsOf, h]

theorem loadsOf_append_skip {phs : List Phdr} {ph : Phdr} (h : ph.pType ≠ .LOAD) :
    loadsOf (phs ++ [ph]) = loadsOf phs := by
  simp [loadsOf, h]

/-- The segments before and after one of them. -/
theorem loads_of_split {b : Binary} {done rest : List Phdr} {ph : Phdr}
    (h : done ++ ph :: rest = b.sPh) (hload : ph.pType = .LOAD) :
    b.loads = loadsOf done ++ ph :: loadsOf rest := by
  simp [Binary.loads, ← h, loadsOf, hload]

/-- Of `n` bytes from `a` on there is one in the page. -/
def Occupies (a n page : Nat) : Prop := ∃ x, a ≤ x ∧ x < a + n ∧ x / 4096 = page

/-- The segments ascend and occupy different pages, where each is taken to have `len`
bytes. -/
structure Layout (b : Binary) (len : Phdr → Nat) : Prop where
  ascending : b.loads.Pairwise fun p q => p.pVaddr.toNat ≤ q.pVaddr.toNat
  disjoint : b.loads.Pairwise fun p q =>
    ∀ page, Occupies p.pVaddr.toNat (len p) page → ¬ Occupies q.pVaddr.toNat (len q) page

/-- The offset of a segment agrees with its address, and the first segment is all in the
file and starts with a page. -/
structure Conforms (b : Binary) (len : Phdr → Nat) : Prop extends Layout b len where
  congruent : ∀ ph ∈ b.loads, pageOfft ph.pOffset = pageOfft ph.pVaddr
  first : ∀ ph, b.loads.head? = some ph → ph.pMemsz = ph.pFilesz ∧ pageOfft ph.pVaddr = 0 ∧
    (b.pie = true → ph.pVaddr = 0) ∧ pageOfft ph.pOffset = 0

/-- The bytes of the segment are those of the file, and zero past the file part. -/
structure HasImage (b : Binary) (ph : Phdr) (m : Space) : Prop where
  file : ∀ i, i < ph.pFilesz.toNat →
    m.byte (b.address ph + BitVec.ofNat 64 i) = b.file (ph.pOffset.toNat + i)
  zero : ∀ i, ph.pFilesz.toNat ≤ i → i < ph.pMemsz.toNat →
    m.byte (b.address ph + BitVec.ofNat 64 i) = 0

/-- Loading the interpreter leaves the segments alone that come before it. -/
def InterpApart (b : Binary) : Prop :=
  ∀ done interp rest, done ++ interp :: rest = b.sPh → interp.pType = .INTERP →
    ∀ m m', b.loadInterp m = some m' → ∀ ph ∈ loadsOf done, ∀ i, i < ph.pMemsz.toNat →
        m'.byte (b.address ph + BitVec.ofNat 64 i) = m.byte (b.address ph + BitVec.ofNat 64 i)

/-- The file part of a segment is part of it, no load address wraps around, and the
interpreter is loaded elsewhere. -/
structure Loadable (b : Binary) : Prop where
  filesz_le : ∀ ph ∈ b.loads, ph.pFilesz ≤ ph.pMemsz
  address_lt : ∀ ph ∈ b.loads, b.pie = true →
    b.baseAddress.toNat + ph.pVaddr.toNat < 2 ^ 64
  interp : InterpApart b

/-- The bytes that a segment takes in memory.  An empty one takes the page that it is in. -/
def Phdr.extent (ph : Phdr) : Nat := max 1 ph.pMemsz.toNat

/-! ## Segments that ascend -/

/-- A segment ends before the page of a later one. -/
theorem end_le_page {a n c n' : Nat} (hle : a ≤ c) (hn : 0 < n) (hn' : 0 < n')
    (hdisj : ∀ page, Occupies a n page → ¬ Occupies c n' page) : a + n ≤ c / 4096 * 4096 := by
  by_contra hnot
  -- The two segments would share the page of the later one.
  refine hdisj (c / 4096) ?_ ⟨c, le_refl _, by omega, rfl⟩
  rcases Nat.lt_or_ge c (a + n) with hc | hc
  · exact ⟨c, hle, hc, rfl⟩
  · exact ⟨a + n - 1, by omega, by omega, by omega⟩

theorem Layout.end_le {b : Binary} (h : Layout b Phdr.extent) {done rest : List Phdr}
    {ph s : Phdr} (hsplit : done ++ ph :: rest = b.sPh) (hload : ph.pType = .LOAD)
    (hmem : s ∈ loadsOf done) :
    s.pVaddr.toNat + s.pMemsz.toNat ≤ ph.pVaddr.toNat / 4096 * 4096 := by
  have hle := h.ascending
  have hdisj := h.disjoint
  rw [loads_of_split hsplit hload, List.pairwise_append] at hle hdisj
  have hend := end_le_page (hle.2.2 s hmem ph List.mem_cons_self)
    (show 0 < s.extent from by rw [Phdr.extent]; omega)
    (show 0 < ph.extent from by rw [Phdr.extent]; omega)
    (hdisj.2.2 s hmem ph List.mem_cons_self)
  rw [Phdr.extent] at hend
  omega

/-! ## The load base -/

/-- The load base is set with the first segment.  For a position-independent binary it is
the answer of `base_address`, at the start of a page. -/
structure BaseSet (b : Binary) (done : List Phdr) (l : Loader) : Prop where
  unset : loadsOf done = [] → l.base = 0
  set : loadsOf done ≠ [] → l.base ≠ 0 ∧
    (b.pie = true → l.base = b.baseAddress ∧ b.baseAddress.toNat % 4096 = 0)

section Loop

variable {k : Kernel} {b : Binary} {ph s : Phdr} {done rest : List Phdr} {l l' : Loader}
  {m m' : Space}

/-- A turn of the loop loads a segment, or keeps the base and the break. -/
theorem mapPhdr_cases (h : mapPhdr k b l ph = some l') :
    (ph.pType = .LOAD ∧ mapLoad k b ph l = some l') ∨
      (ph.pType ≠ .LOAD ∧ l'.base = l.base ∧ l'.vbrk = l.vbrk ∧
        (l'.space = l.space ∨
          ph.pType = .INTERP ∧ b.loadInterp l.space = some l'.space)) := by
  rw [mapPhdr] at h
  cases htype : ph.pType with
  | INTERP =>
    rw [htype] at h
    obtain ⟨m', hm', rfl⟩ := Option.map_eq_some_iff.mp h
    exact .inr ⟨by decide, rfl, rfl, .inr ⟨rfl, hm'⟩⟩
  | LOAD =>
    rw [htype] at h
    exact .inl ⟨rfl, h⟩
  | other n =>
    rw [htype] at h
    obtain rfl := Option.some.inj h
    exact .inr ⟨by simp, rfl, rfl, .inl rfl⟩

theorem loadAddress_eq_address (h : b.pie = true → l.base = b.baseAddress) :
    loadAddress b l.base ph = b.address ph := by
  rw [Binary.address, loadAddress, loadAddress]
  split
  · rename_i hpie
    rw [h hpie]
  · rfl

theorem BaseSet.loadAddress (h : BaseSet b done l) (hsome : loadsOf done ≠ []) :
    loadAddress b l.base ph = b.address ph :=
  loadAddress_eq_address fun hpie => ((h.set hsome).2 hpie).1

/-- The base that the first segment sets. -/
theorem base_of_first (hk : k.UserSpace) (hzero : l.base = 0)
    (h : mapLoad k b ph l = some l') :
    l'.base ≠ 0 ∧ (b.pie = true → l'.base = b.baseAddress ∧ b.baseAddress.toNat % 4096 = 0) := by
  have hfirst := mapLoad_loadedFirst hk hzero h
  have hbase := mapLoad_first_base hzero h
  have halign := pageAlign_toNat (firstAddress b ph)
  rw [hfirst.aligned] at halign
  constructor
  · rw [hbase]
    exact hfirst.file.ne_zero
  · intro hpie
    have hbaseAddress : firstAddress b ph = b.baseAddress := if_pos hpie
    rw [hbaseAddress] at halign
    exact ⟨hbase.trans hbaseAddress, by omega⟩

/-- A header that is not a segment to load. -/
theorem BaseSet.skip (h : BaseSet b done l) (hskip : ph.pType ≠ .LOAD)
    (hbase : l'.base = l.base) : BaseSet b (done ++ [ph]) l' where
  unset := by
    rw [loadsOf_append_skip hskip, hbase]
    exact h.unset
  set := by
    rw [loadsOf_append_skip hskip, hbase]
    exact h.set

theorem BaseSet.load (hk : k.UserSpace) (h : BaseSet b done l) (hload : ph.pType = .LOAD)
    (hmap : mapLoad k b ph l = some l') : BaseSet b (done ++ [ph]) l' where
  unset hnone := by simp [loadsOf_append_load hload] at hnone
  set _ := by
    by_cases hnone : loadsOf done = []
    · exact base_of_first hk (h.unset hnone) hmap
    · rw [mapLoad_later_base hk (h.set hnone).1 hmap]
      exact h.set hnone

/-! ## One segment -/

/-- The image of a segment is kept where its bytes are. -/
theorem HasImage.congr (h : HasImage b s m) (hsize : s.pFilesz ≤ s.pMemsz)
    (hkeep : ∀ i, i < s.pMemsz.toNat →
      m'.byte (b.address s + BitVec.ofNat 64 i) = m.byte (b.address s + BitVec.ofNat 64 i)) :
    HasImage b s m' := by
  have hle := BitVec.le_def.mp hsize
  constructor
  · intro i hi
    rw [hkeep i (by omega)]
    exact h.file i hi
  · intro i hfile hi
    rw [hkeep i hi]
    exact h.zero i hfile hi

/-- Nothing changes below the page of the segment that is loaded. -/
theorem Loaded.byte_below {curr : Word} (h : Loaded b curr ph m m') {x : Word}
    (hx : x.toNat < (pageAlign curr).toNat) : m'.byte x = m.byte x := by
  have halign := pageAlign_toNat curr
  have hle := h.file.le
  rw [h.byte, if_neg (by omega), if_neg, if_neg (by omega)]
  rintro ⟨-, hlo, -⟩
  omega

/-- The image of a segment that is loaded once the load base is known. -/
theorem Loaded.hasImage (h : Loaded b (b.address ph) ph m m') (hsize : ph.pFilesz ≤ ph.pMemsz)
    (hofft : ph.pOffset.toNat % 4096 = (b.address ph).toNat % 4096) : HasImage b ph m' := by
  have hle := BitVec.le_def.mp hsize
  have hsum := add_lt_of_memsz_le hle h.memsz_le
  have hend := fileEnd_toNat hsum
  have hbss := bssEnd_toNat h.memsz_le
  have halign := pageAlign_toNat (b.address ph)
  have hofftAlign := pageAlign_toNat ph.pOffset
  have hmemsz := add_lt_of_memsz_le (le_refl _) h.memsz_le
  constructor
  · intro i hi
    have hx : (b.address ph + BitVec.ofNat 64 i).toNat = (b.address ph).toNat + i :=
      add_ofNat_toNat (by omega)
    rw [h.byte, hx, if_neg (by omega), if_neg (by omega), if_pos (by omega)]
    exact congrArg b.file (by omega)
  · intro i hfile hi
    have hx : (b.address ph + BitVec.ofNat 64 i).toNat = (b.address ph).toNat + i :=
      add_ofNat_toNat (by omega)
    have hless : ph.pFilesz < ph.pMemsz := BitVec.lt_def.mpr (by omega)
    rw [h.byte, hx]
    split
    · rfl
    · rename_i hnot
      have hin : (b.address ph).toNat + i < (fileEnd (b.address ph) ph.pFilesz).toNat + 4096 := by
        -- A byte past the file mapping is in the anonymous one.
        by_contra hpast
        have hneeds := (needsBss_iff h.file h.memsz_le).mpr ⟨hless, by omega⟩
        exact hnot ⟨hneeds, by omega, by omega⟩
      rw [if_pos ⟨hless, by omega, hin⟩]

/-- The image of the segment that fixes the load base. -/
theorem LoadedFirst.hasImage (h : LoadedFirst b (b.address ph) ph m m')
    (hsize : ph.pMemsz = ph.pFilesz) (hofft : pageOfft ph.pOffset = 0) : HasImage b ph m' := by
  have hsum := add_lt_of_memsz_le (le_refl _) h.memsz_le
  rw [hsize] at hsum
  have hend := fileEnd_toNat hsum
  have hofftNat := mod_of_pageOfft hofft
  have hofftAlign := pageAlign_toNat ph.pOffset
  constructor
  · intro i hi
    have hx : (b.address ph + BitVec.ofNat 64 i).toNat = (b.address ph).toNat + i :=
      add_ofNat_toNat (by omega)
    rw [h.byte, hx, h.aligned, if_pos (by omega)]
    exact congrArg b.file (by omega)
  · intro i hfile hi
    rw [hsize] at hi
    omega

theorem address_toNat (hlt : b.pie = true → b.baseAddress.toNat + ph.pVaddr.toNat < 2 ^ 64) :
    (b.address ph).toNat = (if b.pie then b.baseAddress.toNat else 0) + ph.pVaddr.toNat := by
  rw [Binary.address, loadAddress]
  split
  · rename_i hpie
    rw [BitVec.toNat_add, Nat.mod_eq_of_lt (hlt hpie)]
  · rw [Nat.zero_add]

/-! ## The loop -/

/-- What the loop of `map_binary` has done when the headers in `done` are behind it. -/
structure Imaged (b : Binary) (done : List Phdr) (l : Loader) : Prop extends
    BaseSet b done l where
  image : ∀ ph ∈ loadsOf done, HasImage b ph l.space

theorem Imaged.skip (h : Imaged b done l) (hskip : ph.pType ≠ .LOAD) (hbase : l'.base = l.base)
    (himage : ∀ s ∈ loadsOf done, HasImage b s l'.space) : Imaged b (done ++ [ph]) l' where
  toBaseSet := h.toBaseSet.skip hskip hbase
  image := by
    rw [loadsOf_append_skip hskip]
    exact himage

theorem Imaged.first (hk : k.UserSpace) (hconf : Conforms b Phdr.extent)
    (hsplit : done ++ ph :: rest = b.sPh) (hload : ph.pType = .LOAD) (h : Imaged b done l)
    (hnone : loadsOf done = []) (hmap : mapLoad k b ph l = some l') :
    Imaged b (done ++ [ph]) l' := by
  have hhead : b.loads.head? = some ph := by
    rw [loads_of_split hsplit hload, hnone]
    rfl
  obtain ⟨hsize, -, hvaddr, hofft⟩ := hconf.first ph hhead
  have hfirst := mapLoad_loadedFirst hk (h.unset hnone) hmap
  have haddr : firstAddress b ph = b.address ph := by
    rw [firstAddress, Binary.address, loadAddress]
    split
    · rename_i hpie
      rw [hvaddr hpie]
      exact (BitVec.add_zero _).symm
    · rfl
  rw [haddr] at hfirst
  refine ⟨h.toBaseSet.load hk hload hmap, ?_⟩
  rw [loadsOf_append_load hload, hnone]
  intro s hs
  obtain rfl := List.mem_singleton.mp hs
  exact hfirst.hasImage hsize hofft

/-- A segment that was loaded before ends before the first page of this one. -/
theorem Imaged.below (hconf : Conforms b Phdr.extent) (hb : Loadable b)
    (hsplit : done ++ ph :: rest = b.sPh) (hload : ph.pType = .LOAD) (h : Imaged b done l)
    (hs : s ∈ loadsOf done) :
    (b.address s).toNat + s.pMemsz.toNat ≤ (pageAlign (b.address ph)).toNat := by
  have hloads := loads_of_split hsplit hload
  have hend := hconf.end_le hsplit hload hs
  rw [pageAlign_toNat, address_toNat (hb.address_lt ph (by simp [hloads])),
    address_toNat (hb.address_lt s (by simp [hloads, hs]))]
  split
  · rename_i hpie
    have hbaseNat := ((h.set (List.ne_nil_of_mem hs)).2 hpie).2
    omega
  · omega

theorem Imaged.later (hk : k.UserSpace) (hconf : Conforms b Phdr.extent) (hb : Loadable b)
    (hsplit : done ++ ph :: rest = b.sPh) (hload : ph.pType = .LOAD) (h : Imaged b done l)
    (hsome : loadsOf done ≠ []) (hmap : mapLoad k b ph l = some l') :
    Imaged b (done ++ [ph]) l' := by
  have hloads := loads_of_split hsplit hload
  have hmem : ph ∈ b.loads := by simp [hloads]
  obtain ⟨hne, hset⟩ := h.set hsome
  have hloaded := mapLoad_loaded hk hne hmap
  rw [h.toBaseSet.loadAddress hsome] at hloaded
  refine ⟨h.toBaseSet.load hk hload hmap, ?_⟩
  rw [loadsOf_append_load hload]
  intro s hs
  rcases List.mem_append.mp hs with hs | hs
  · refine (h.image s hs).congr (hb.filesz_le s (by simp [hloads, hs])) fun i hi => ?_
    have hbelow := h.below hconf hb hsplit hload hs
    have hlt := (pageAlign (b.address ph)).isLt
    apply hloaded.byte_below
    rw [add_ofNat_toNat (by omega)]
    omega
  · obtain rfl := List.mem_singleton.mp hs
    have hcongr := congrArg BitVec.toNat (hconf.congruent s hmem)
    rw [pageOfft_toNat, pageOfft_toNat] at hcongr
    refine hloaded.hasImage (hb.filesz_le s hmem) ?_
    rw [address_toNat (hb.address_lt s hmem)]
    split
    · rename_i hpie
      have hbaseNat := (hset hpie).2
      omega
    · omega

theorem Imaged.step (hk : k.UserSpace) (hconf : Conforms b Phdr.extent) (hb : Loadable b)
    (hsplit : done ++ ph :: rest = b.sPh) (h : Imaged b done l)
    (hmap : mapPhdr k b l ph = some l') : Imaged b (done ++ [ph]) l' := by
  rcases mapPhdr_cases hmap with ⟨hload, hmap⟩ | ⟨hskip, hbase, -, hspace⟩
  · by_cases hnone : loadsOf done = []
    · exact h.first hk hconf hsplit hload hnone hmap
    · exact h.later hk hconf hb hsplit hload hnone hmap
  · refine h.skip hskip hbase ?_
    rcases hspace with hsame | ⟨hinterp, hspace⟩
    · rw [hsame]
      exact h.image
    · intro s hs
      have hin : s ∈ b.loads := by
        rw [Binary.loads, mem_loadsOf, ← hsplit]
        exact ⟨List.mem_append_left _ (mem_loadsOf.mp hs).1, (mem_loadsOf.mp hs).2⟩
      exact (h.image s hs).congr (hb.filesz_le s hin)
        (hb.interp done ph rest hsplit hinterp _ _ hspace s hs)

end Loop

/-- After the loop of `map_binary` every segment has its image. -/
theorem mapBinary_hasImage {k : Kernel} {b : Binary} {m : Space} {l : Loader} (hk : k.UserSpace)
    (hconf : Conforms b Phdr.extent) (hb : Loadable b) (h : mapBinary k b m = some l) :
    ∀ ph ∈ b.loads, HasImage b ph l.space := by
  have hdone : Imaged b b.sPh l :=
    Exec.foldlM_induct (fun hsplit hdone hmap => hdone.step hk hconf hb hsplit hmap)
      ⟨⟨fun _ => rfl, fun hsome => absurd rfl hsome⟩, by simp [loadsOf]⟩ h
  exact hdone.image

/-- Nothing is mapped. -/
def unmapped : Space := ⟨fun _ => 0, fun _ => none⟩

/-- A file of which every byte is one more than the number of its page. -/
def pageFile (j : Nat) : Byte := BitVec.ofNat 8 (j / 4096 + 1)

/-- The code of a small binary. -/
def textSegment : Phdr := ⟨.LOAD, false, true, 0, 0x400000, 0x1000, 0x1000⟩

/-- The code and the data of a small binary, with a page each. -/
def twoPages : Binary :=
  ⟨false, pageFile, [textSegment, ⟨.LOAD, true, false, 0x1000, 0x401000, 0x1000, 0x1000⟩], 0, some⟩

/-- A layout can be checked on neighbouring ends and pages. -/
theorem conforms_of_pages {b : Binary} {len : Phdr → Nat}
    (hpages : b.loads.Pairwise fun p q => p.pVaddr.toNat ≤ q.pVaddr.toNat ∧
      (p.pVaddr.toNat + len p ≤ q.pVaddr.toNat / 4096 * 4096 ∨ len q = 0))
    (hcongr : ∀ ph ∈ b.loads, pageOfft ph.pOffset = pageOfft ph.pVaddr)
    (hfirst : ∀ ph ∈ b.loads.head?.toList, ph.pMemsz = ph.pFilesz ∧ pageOfft ph.pVaddr = 0 ∧
      (b.pie = true → ph.pVaddr = 0) ∧ pageOfft ph.pOffset = 0) : Conforms b len where
  ascending := hpages.imp fun h => h.1
  disjoint := by
    refine hpages.imp fun ⟨_, hend⟩ page => ?_
    rintro ⟨x, hlo, hhi, hx⟩ ⟨y, hlo', hhi', hy⟩
    omega
  congruent := hcongr
  first ph hhead := hfirst ph (by simp [hhead])

theorem twoPages_loadable : Loadable twoPages where
  filesz_le := by decide
  address_lt := by decide
  interp done interp rest hsplit htype := by
    have hnone : ∀ ph ∈ twoPages.sPh, ph.pType ≠ .INTERP := by decide
    exact absurd htype (hnone interp (by rw [← hsplit]; simp))

theorem mapBinary_hasImage_twoPages :
    Kernel.user.UserSpace ∧ Conforms twoPages Phdr.extent ∧ Loadable twoPages ∧
      ∃ l, mapBinary Kernel.user twoPages unmapped = some l ∧
        ∀ ph ∈ twoPages.loads, HasImage twoPages ph l.space := by
  have hconf : Conforms twoPages Phdr.extent :=
    conforms_of_pages (by decide) (by decide) (by decide)
  have hsome : (mapBinary Kernel.user twoPages unmapped).isSome = true := by decide
  obtain ⟨l, hl⟩ := Option.isSome_iff_exists.mp hsome
  exact ⟨Kernel.user_userSpace, hconf, twoPages_loadable, l, hl,
    mapBinary_hasImage Kernel.user_userSpace hconf twoPages_loadable hl⟩

/-! ## Segments that are disturbed -/

/-- The segments are in order, and `map_binary` loads them, but one has lost its bytes. -/
def Disturbed (b : Binary) : Prop :=
  Conforms b (fun ph => ph.pMemsz.toNat) ∧
    ∃ l, mapBinary Kernel.user b unmapped = some l ∧ ¬ ∀ ph ∈ b.loads, HasImage b ph l.space

theorem disturbed_of_byte {b : Binary} (hconf : Conforms b fun ph => ph.pMemsz.toNat)
    (ph : Phdr) (i : Nat) (v : Byte) (hmem : ph ∈ b.loads) (hi : i < ph.pFilesz.toNat)
    (hbyte : ((mapBinary Kernel.user b unmapped).map fun l =>
      l.space.byte (b.address ph + BitVec.ofNat 64 i)) = some v)
    (hv : v ≠ b.file (ph.pOffset.toNat + i)) : Disturbed b := by
  obtain ⟨l, hl, rfl⟩ := Option.map_eq_some_iff.mp hbyte
  exact ⟨hconf, l, hl, fun himage => hv ((himage ph hmem).file i hi)⟩

/-- An empty segment in the second page of the first one. -/
def emptyInside : Binary :=
  ⟨false, pageFile, [⟨.LOAD, false, true, 0, 0x400000, 0x2000, 0x2000⟩,
    ⟨.LOAD, false, false, 0x800, 0x401800, 0, 0⟩], 0, some⟩

theorem emptyInside_disturbed : Disturbed emptyInside :=
  disturbed_of_byte (conforms_of_pages (by decide) (by decide) (by decide)) _ 0x1000 1
    (.head _) (by decide) (by decide) (by decide)

/-- The file part of the second segment reaches into the third. -/
def longFilePart : Binary :=
  ⟨false, pageFile, [textSegment, ⟨.LOAD, false, false, 0x1000, 0x401000, 0x2000, 0x1000⟩,
    ⟨.LOAD, false, false, 0, 0x402000, 0x1000, 0x1000⟩], 0, some⟩

theorem longFilePart_disturbed : Disturbed longFilePart :=
  disturbed_of_byte (conforms_of_pages (by decide) (by decide) (by decide)) _ 0x1000 1
    (.tail _ (.head _)) (by decide) (by decide) (by decide)

/-- The load address of the second segment is before that of the first. -/
def wrappedAddress : Binary :=
  ⟨true, pageFile, [⟨.LOAD, false, true, 0, 0, 0x1000, 0x1000⟩,
    ⟨.LOAD, false, false, 0x2000, 0xfffffffffffff000, 0x1000, 0x1000⟩], 0x400000, some⟩

theorem wrappedAddress_disturbed : Disturbed wrappedAddress :=
  disturbed_of_byte (conforms_of_pages (by decide) (by decide) (by decide)) _ 0 4
    (.head _) (by decide) (by decide) (by decide)

/-- The interpreter is loaded last, over the first segment. -/
def lateInterp : Binary :=
  ⟨false, pageFile, [textSegment, ⟨.INTERP, false, false, 0, 0, 0, 0⟩], 0,
    fun m => some { m with byte := patch m.byte 0x400000 0 0x1000 fun _ => 0 }⟩

theorem lateInterp_disturbed : Disturbed lateInterp :=
  disturbed_of_byte (conforms_of_pages (by decide) (by decide) (by decide)) _ 0 0
    (.head _) (by decide) (by decide) (by decide)

/-- Ascending and disjoint pages are not enough. -/
theorem images_disturbed :
    Disturbed emptyInside ∧ Disturbed longFilePart ∧ Disturbed wrappedAddress ∧
      Disturbed lateInterp :=
  ⟨emptyInside_disturbed, longFilePart_disturbed, wrappedAddress_disturbed, lateInterp_disturbed⟩

end Dryadalis
