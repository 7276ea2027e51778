import Dryadalis.SegmentMaps

/-!
# The pages of a segment

Two questions about one call of `map_load`: what protection the pages of the segment have
when it returns 0, and which pages it has changed, whatever it returns.

The last `mprotect` starts at the first page of the segment and is as long as `p_memsz`,
so it misses the last page when the offset in the first page makes the segment one page
longer.  A page that it misses keeps the protection of its mapping, which is right for
an anonymous page and writable for a page of the file (`mapLoad_protected_iff`).

The pages that a call has changed are listed by `mapLoadPages`; `mapLoad_frame` says that
a successful call changes nothing else.  Both mappings go one page too far when what they
cover ends with a page (`mapLoad_ownPages_iff`).
-/

namespace Dryadalis

open ByteMem

section Pages

variable {k : Kernel} {b : Binary} {ph : Phdr} {l l' : Loader} {curr : Word} {m m' : Space}

/-! ## Protections -/

/-- Every page of the segment has the protection that the segment asks for. -/
def Protected (ph : Phdr) (curr : Word) (m : Space) : Prop :=
  ∀ i, i < ph.pMemsz.toNat →
    m.prot (pageAlign (curr + BitVec.ofNat 64 i)) = some ph.prot

/-- The file mapping of a segment has the right protection exactly when the segment is
writable. -/
theorem mapProt_eq_iff (ph : Phdr) : ph.mapProt = ph.prot ↔ ph.pfW = true := by
  simp only [Phdr.mapProt, Phdr.prot, Prot.mk.injEq, true_and, and_true]
  exact eq_comm

/-- A page of the segment past the file mapping is in the anonymous mapping. -/
theorem needsBss_of_page (h : Loaded b curr ph m m') (hsize : ph.pFilesz ≤ ph.pMemsz) {i : Nat}
    (hi : i < ph.pMemsz.toNat)
    (hpage : (fileEnd curr ph.pFilesz).toNat + 4096 ≤ (curr.toNat + i) / 4096 * 4096) :
    NeedsBss curr ph ∧
      (curr.toNat + i) / 4096 * 4096 < (bssEnd curr ph.pMemsz).toNat + 4096 := by
  have hend := fileEnd_toNat (add_lt_of_memsz_le (BitVec.le_def.mp hsize) h.memsz_le)
  have hbss := bssEnd_toNat h.memsz_le
  refine ⟨(needsBss_iff h.file h.memsz_le).mpr ⟨BitVec.lt_def.mpr ?_, ?_⟩, ?_⟩
  all_goals omega

theorem protected_iff (h : Loaded b curr ph m m') (hsize : ph.pFilesz ≤ ph.pMemsz) :
    Protected ph curr m' ↔
      ph.pfW = true ∨ curr.toNat % 4096 + ph.pMemsz.toNat % 4096 ≤ 4096 ∨
        (curr.toNat + ph.pFilesz.toNat) / 4096 < (curr.toNat + ph.pMemsz.toNat - 1) / 4096 := by
  have hmemsz := add_lt_of_memsz_le (le_refl _) h.memsz_le
  have hend := fileEnd_toNat (add_lt_of_memsz_le (BitVec.le_def.mp hsize) h.memsz_le)
  have hstart := pageAlign_toNat curr
  have hfile := BitVec.le_def.mp hsize
  constructor
  · intro hprot
    by_contra hcond
    simp only [not_or, Bool.not_eq_true] at hcond
    obtain ⟨hw, hcross, hlast⟩ := hcond
    -- The last page is out of the reach of `mprotect`, and the file is mapped there.
    have hi : ph.pMemsz.toNat - 1 < ph.pMemsz.toNat := by omega
    have hpage := pageAlign_add_toNat (a := curr) (i := ph.pMemsz.toNat - 1) (by omega)
    have hlastProt := hprot _ hi
    rw [h.prot, hpage, if_neg (by omega), if_neg (by omega), if_pos (by omega)] at hlastProt
    rw [(mapProt_eq_iff ph).mp (Option.some.inj hlastProt)] at hw
    cases hw
  · intro hcond i hi
    have hpage := pageAlign_add_toNat (a := curr) (i := i) (by omega)
    rw [h.prot, hpage]
    by_cases hreach : (curr.toNat + i) / 4096 * 4096 <
        (pageAlign curr).toNat + (ph.pMemsz.toNat / 4096 * 4096 + 4096)
    · rw [if_pos ⟨by omega, hreach⟩]
    · rw [if_neg fun hin => hreach hin.2]
      by_cases hbss : (fileEnd curr ph.pFilesz).toNat + 4096 ≤ (curr.toNat + i) / 4096 * 4096
      · obtain ⟨hneeds, hlt⟩ := needsBss_of_page h hsize hi hbss
        rw [if_pos ⟨hneeds, hbss, hlt⟩]
      · rw [if_neg fun hin => hbss hin.2.1, if_pos ⟨by omega, by omega⟩]
        rcases hcond with hw | hcross | hlast
        · rw [(mapProt_eq_iff ph).mpr hw]
        · omega
        · omega

end Pages

/-- When `map_load` returns 0 for a segment after the first, its pages have the protection
it asks for exactly when it is writable, or `p_memsz` bytes from the start of its first
page reach its last page, or its last page is not one of the file mapping. -/
theorem mapLoad_protected_iff {k : Kernel} {b : Binary} {ph : Phdr} {l l' : Loader}
    (hk : k.UserSpace) (hbase : l.base ≠ 0) (hsize : ph.pFilesz ≤ ph.pMemsz)
    (h : mapLoad k b ph l = some l') :
    Protected ph (loadAddress b l.base ph) l'.space ↔
      ph.pfW = true ∨
        (loadAddress b l.base ph).toNat % 4096 + ph.pMemsz.toNat % 4096 ≤ 4096 ∨
        ((loadAddress b l.base ph).toNat + ph.pFilesz.toNat) / 4096 <
          ((loadAddress b l.base ph).toNat + ph.pMemsz.toNat - 1) / 4096 :=
  protected_iff (mapLoad_loaded hk hbase h) hsize

/-- A segment of 0x900 bytes that starts in the middle of a page, neither writable nor
executable. -/
def crossing : Phdr := ⟨.LOAD, false, false, 0x800, 0x400800, 0x900, 0x900⟩

/-- A binary at a fixed address. -/
def fixedBinary (phs : List Phdr) : Binary := ⟨false, fun _ => 1, phs, 0, some⟩

/-- The loader of a binary of which a segment at 0x10000 has been loaded. -/
def baseLoaded : Loader := ⟨⟨fun _ => 0, fun _ => none⟩, 0x10000, 0⟩

theorem mapLoad_crossing :
    (mapLoad Kernel.user (fixedBinary []) crossing baseLoaded).isSome = true := by
  decide

theorem mapLoad_protected_iff_crossing :
    ∃ l', mapLoad Kernel.user (fixedBinary []) crossing baseLoaded = some l' ∧
      Kernel.user.UserSpace ∧ baseLoaded.base ≠ 0 ∧ crossing.pFilesz ≤ crossing.pMemsz ∧
      (Protected crossing (loadAddress (fixedBinary []) baseLoaded.base crossing) l'.space ↔
        crossing.pfW = true ∨
          (loadAddress (fixedBinary []) baseLoaded.base crossing).toNat % 4096 +
            crossing.pMemsz.toNat % 4096 ≤ 4096 ∨
          ((loadAddress (fixedBinary []) baseLoaded.base crossing).toNat +
              crossing.pFilesz.toNat) / 4096 <
            ((loadAddress (fixedBinary []) baseLoaded.base crossing).toNat +
              crossing.pMemsz.toNat - 1) / 4096) := by
  obtain ⟨l', h⟩ := Option.isSome_iff_exists.mp mapLoad_crossing
  exact ⟨l', h, Kernel.user_userSpace, by decide, by decide,
    mapLoad_protected_iff Kernel.user_userSpace (by decide) (by decide) h⟩

/-- The second page of a read-only segment stays writable. -/
theorem mapLoad_crossing_writable :
    ∃ l', mapLoad Kernel.user (fixedBinary []) crossing baseLoaded = some l' ∧
      ¬ Protected crossing 0x400800 l'.space := by
  obtain ⟨l', h⟩ := Option.isSome_iff_exists.mp mapLoad_crossing
  refine ⟨l', h, fun hprot => ?_⟩
  have hpage : ((mapLoad Kernel.user (fixedBinary []) crossing baseLoaded).bind
      fun l => l.space.prot 0x401000) = some ⟨true, true, false⟩ := by decide
  rw [h, Option.bind_some, show (0x401000 : Word) = pageAlign (0x400800 + BitVec.ofNat 64 0x800)
    from rfl, hprot 0x800 (by decide)] at hpage
  exact absurd hpage (by decide)

/-! ## The pages that a call changes -/

/-- The first pages of `n` from `addr` on. -/
def pagesFrom (addr : Word) (n : Nat) : List Word :=
  (List.range n).map fun i => addr + BitVec.ofNat 64 (4096 * i)

theorem mem_pagesFrom {addr page : Word} {n : Nat} :
    page ∈ pagesFrom addr n ↔ ∃ i, i < n ∧ page = addr + BitVec.ofNat 64 (4096 * i) := by
  simp [pagesFrom, eq_comm]

section Changed

variable (k : Kernel) (b : Binary) (ph : Phdr) (l : Loader)

/-- The pages that the `memset` of `map_load` writes to. -/
def clearedPages (curr : Word) : List Word :=
  if ph.pFilesz < ph.pMemsz ∧ curr ≠ 0 then [pageAlign (curr + ph.pFilesz)] else []

/-- The pages of the anonymous mapping. -/
def bssPages (curr : Word) : List Word :=
  let mapEnd := pageRound (curr + ph.pFilesz) + 1
  let bssEnd := pageRound (curr + ph.pMemsz) + 1
  if ph.pFilesz < ph.pMemsz ∧ curr ≠ 0 ∧ mapEnd < bssEnd then
    pagesFrom mapEnd (mappedLen (pageRound (bssEnd - mapEnd) + 1) / 4096)
  else []

/-- The pages that `mprotect` gets to: those before the first that is not mapped or cannot
be protected. -/
def protectedPages (m : Space) (addr len : Word) : List Word :=
  ((List.range (mappedLen len / 4096)).filter fun i =>
      (List.range (i + 1)).all fun j => Protectable k m (addr + BitVec.ofNat 64 (4096 * j))).map
    fun i => addr + BitVec.ofNat 64 (4096 * i)

/-- The pages that `map_load` maps, clears or protects, whether it returns 0 or -1.  A call
of `mmap` that is refused changes nothing. -/
def mapLoadPages : List Word :=
  match mapSegment k b ph l with
  | none => []
  | some (curr, l) =>
    let start := if curr ≠ 0 then pageAlign curr else l.base
    pagesFrom start (mappedLen (fileMapLength curr ph.pFilesz) / 4096) ++
      clearedPages ph curr ++
      match mapBss k ph curr l with
      | none => []
      | some l => bssPages ph curr ++ protectedPages k l.space start (pageRound ph.pMemsz)

/-- Where `map_load` puts the segment. -/
def segmentAddress : Word :=
  if l.base = 0 then firstAddress b ph else loadAddress b l.base ph

/-- A call changes only pages that have a byte of the segment. -/
def OwnPages : Prop :=
  ∀ page ∈ mapLoadPages k b ph l,
    ∃ i, i < ph.pMemsz.toNat ∧ page = pageAlign (segmentAddress b ph l + BitVec.ofNat 64 i)

end Changed

theorem mem_protectedPages {k : Kernel} {m : Space} {addr len page : Word} :
    page ∈ protectedPages k m addr len ↔
      ∃ i, i < mappedLen len / 4096 ∧ page = addr + BitVec.ofNat 64 (4096 * i) ∧
        ∀ j, j ≤ i → Protectable k m (addr + BitVec.ofNat 64 (4096 * j)) = true := by
  simp only [protectedPages, List.mem_map, List.mem_filter, List.mem_range, List.all_eq_true,
    Nat.lt_succ_iff]
  constructor
  · rintro ⟨i, ⟨hi, hall⟩, rfl⟩
    exact ⟨i, hi, rfl, hall⟩
  · rintro ⟨i, hi, rfl, hall⟩
    exact ⟨i, ⟨hi, hall⟩, rfl⟩

/-- Pages that do not wrap around are an interval. -/
theorem mem_pagesFrom_iff {addr page : Word} {n : Nat} (haligned : addr.toNat % 4096 = 0)
    (hn : addr.toNat + n * 4096 ≤ 2 ^ 64) :
    page ∈ pagesFrom addr n ↔
      page.toNat % 4096 = 0 ∧ addr.toNat ≤ page.toNat ∧ page.toNat < addr.toNat + n * 4096 := by
  rw [mem_pagesFrom]
  constructor
  · rintro ⟨i, hi, rfl⟩
    rw [add_ofNat_toNat (by omega)]
    omega
  · rintro ⟨hpage, hle, hlt⟩
    refine ⟨(page.toNat - addr.toNat) / 4096, by omega, ?_⟩
    apply BitVec.eq_of_toNat_eq
    rw [add_ofNat_toNat (by omega)]
    omega

/-- A page from the first page of the segment on has a byte of it exactly when it starts
before the segment ends. -/
theorem own_iff {curr page : Word} {n : Nat} (hpos : 0 < n) (hpage : page.toNat % 4096 = 0)
    (hle : (pageAlign curr).toNat ≤ page.toNat) :
    (∃ i, i < n ∧ page = pageAlign (curr + BitVec.ofNat 64 i)) ↔
      page.toNat < curr.toNat + n := by
  have hstart := pageAlign_toNat curr
  constructor
  · rintro ⟨i, hi, rfl⟩
    rw [pageAlign_toNat, BitVec.toNat_add, BitVec.toNat_ofNat] at *
    omega
  · intro hlt
    refine ⟨page.toNat - curr.toNat, by omega, ?_⟩
    apply BitVec.eq_of_toNat_eq
    rw [pageAlign_add_toNat (by have hlt := page.isLt; have hcurr := curr.isLt; omega)]
    omega

section FilePages

variable {curr filesz : Word} {n : Nat}

/-- The pages of a file mapping that was granted. -/
theorem FileMap.mem_pages (h : FileMap curr filesz) {page : Word} :
    page ∈ pagesFrom (pageAlign curr) (mappedLen (fileMapLength curr filesz) / 4096) ↔
      page.toNat % 4096 = 0 ∧ (pageAlign curr).toNat ≤ page.toNat ∧
        page.toNat ≤ (fileEnd curr filesz).toNat := by
  have hstart := pageAlign_toNat curr
  have hend := pageAlign_toNat (curr + filesz)
  rw [show pageAlign (curr + filesz) = fileEnd curr filesz from rfl] at hend
  have hlen := h.len
  have hle := h.le
  have hbelow := h.below
  have htask := TASK_SIZE_lt
  rw [mem_pagesFrom_iff (by omega) (by omega), hlen]
  omega

/-- The pages of the file mapping are pages of the segment when the last of them is. -/
theorem FileMap.own_iff (h : FileMap curr filesz) (hpos : 0 < n) :
    (∀ page ∈ pagesFrom (pageAlign curr) (mappedLen (fileMapLength curr filesz) / 4096),
        ∃ i, i < n ∧ page = pageAlign (curr + BitVec.ofNat 64 i)) ↔
      (fileEnd curr filesz).toNat < curr.toNat + n := by
  have hend := pageAlign_toNat (curr + filesz)
  rw [show pageAlign (curr + filesz) = fileEnd curr filesz from rfl] at hend
  constructor
  · intro hown
    rw [← Dryadalis.own_iff hpos (by omega) h.le]
    exact hown _ (h.mem_pages.mpr ⟨by omega, h.le, le_refl _⟩)
  · intro hlt page hpage
    obtain ⟨haligned, hle, hend⟩ := h.mem_pages.mp hpage
    rw [Dryadalis.own_iff hpos haligned hle]
    omega

end FilePages

section Later

variable {k : Kernel} {b : Binary} {ph : Phdr} {l : Loader} {curr : Word} {m : Space}

/-- The length of the anonymous mapping of a segment. -/
def bssLength (curr : Word) (ph : Phdr) : Word :=
  bssEnd curr ph.pMemsz - (fileEnd curr ph.pFilesz + 0x1000) + 0x1000

theorem bssPages_of_needs (h : NeedsBss curr ph) :
    bssPages ph curr = pagesFrom (fileEnd curr ph.pFilesz + 0x1000)
      (mappedLen (bssLength curr ph) / 4096) := by
  have hmap : pageRound (curr + ph.pFilesz) + 1 = fileEnd curr ph.pFilesz + 0x1000 :=
    pageRound_add_one _
  have hbss : pageRound (curr + ph.pMemsz) + 1 = bssEnd curr ph.pMemsz := pageRound_add_one _
  simp only [bssPages, hmap, hbss, bss_length]
  exact if_pos h

theorem bssPages_of_not_needs (h : ¬ NeedsBss curr ph) : bssPages ph curr = [] := by
  have hmap : pageRound (curr + ph.pFilesz) + 1 = fileEnd curr ph.pFilesz + 0x1000 :=
    pageRound_add_one _
  have hbss : pageRound (curr + ph.pMemsz) + 1 = bssEnd curr ph.pMemsz := pageRound_add_one _
  simp only [bssPages, hmap, hbss, bss_length]
  exact if_neg h

/-- The only way for the part past the file to fail is an anonymous mapping that is
refused. -/
theorem mapBss_eq_none_iff (hcurr : curr ≠ 0) :
    mapBss k ph curr l = none ↔
      NeedsBss curr ph ∧
        ¬ k.Grants (fileEnd curr ph.pFilesz + 0x1000) (bssLength curr ph) := by
  have hmap : pageRound (curr + ph.pFilesz) + 1 = fileEnd curr ph.pFilesz + 0x1000 :=
    pageRound_add_one _
  have hbss : pageRound (curr + ph.pMemsz) + 1 = bssEnd curr ph.pMemsz := pageRound_add_one _
  rw [mapBss]
  simp only [hmap, hbss, bss_break, bss_length]
  by_cases hneeds : NeedsBss curr ph
  · rw [if_pos ⟨hneeds.1, hcurr⟩, if_pos hneeds.2.2]
    constructor
    · intro hnone
      refine ⟨hneeds, fun hgrant => ?_⟩
      rw [bssLength] at hgrant
      rw [mmapFixed_of_grants hgrant] at hnone
      cases hnone
    · rintro ⟨-, hrefused⟩
      rw [bssLength] at hrefused
      rw [mmapFixed_of_not_grants hrefused]
      rfl
  · by_cases hless : ph.pFilesz < ph.pMemsz
    · have hend : ¬ fileEnd curr ph.pFilesz + 0x1000 < bssEnd curr ph.pMemsz :=
        fun hlt => hneeds ⟨hless, hcurr, hlt⟩
      rw [if_pos ⟨hless, hcurr⟩, if_neg hend]
      split <;> simp [hneeds]
    · rw [if_neg fun h => hless h.1]
      split <;> simp [hneeds]

/-- Memory is cleared in the last page of the file mapping. -/
theorem clearedPages_subset {page : Word} (h : page ∈ clearedPages ph curr) :
    page = fileEnd curr ph.pFilesz := by
  rw [clearedPages] at h
  split at h
  · simpa [fileEnd] using h
  · simp at h

/-- The anonymous mapping ends one page after the page of the byte after the segment, so
its last page is not one of the segment. -/
theorem bssEnd_mem (hk : k.UserSpace) (hfile : FileMap curr ph.pFilesz)
    (hneeds : NeedsBss curr ph)
    (hgrant : k.Grants (fileEnd curr ph.pFilesz + 0x1000) (bssLength curr ph)) :
    bssEnd curr ph.pMemsz ∈ bssPages ph curr ∧ (bssEnd curr ph.pMemsz).toNat % 4096 = 0 ∧
      (pageAlign curr).toNat ≤ (bssEnd curr ph.pMemsz).toNat ∧
      curr.toNat + ph.pMemsz.toNat ≤ (bssEnd curr ph.pMemsz).toNat := by
  have hle := hk.mmap_le hgrant.2
  have htask := TASK_SIZE_lt
  have hstart := add_page_toNat hfile.below
  have hfileLe := hfile.le
  have hlt := BitVec.lt_def.mp hneeds.2.2
  have hcurr := pageAlign_toNat curr
  have hfileAlign := pageAlign_toNat (curr + ph.pFilesz)
  rw [show pageAlign (curr + ph.pFilesz) = fileEnd curr ph.pFilesz from rfl] at hfileAlign
  have hbss : (bssEnd curr ph.pMemsz).toNat =
      ((curr.toNat + ph.pMemsz.toNat) % 2 ^ 64 / 4096 * 4096 + 4096) % 2 ^ 64 := by
    rw [bssEnd, BitVec.toNat_add, pageAlign_toNat, BitVec.toNat_add,
      show (0x1000 : Word).toNat = 4096 from rfl]
  have hcurrLt := curr.isLt
  have hmemszLt := ph.pMemsz.isLt
  have hlen : (bssLength curr ph).toNat =
      (bssEnd curr ph.pMemsz).toNat - (fileEnd curr ph.pFilesz).toNat := by
    rw [bssLength, BitVec.toNat_add, BitVec.toNat_sub_of_le (BitVec.le_def.mpr hlt.le), hstart,
      show (0x1000 : Word).toNat = 4096 from rfl]
    omega
  have hmapped : mappedLen (bssLength curr ph) =
      (bssEnd curr ph.pMemsz).toNat - (fileEnd curr ph.pFilesz).toNat := by
    rw [mappedLen_of_aligned (by omega), hlen]
  rw [hmapped] at hle
  refine ⟨?_, by omega, by omega, by omega⟩
  rw [bssPages_of_needs hneeds, hmapped, mem_pagesFrom_iff (by omega) (by omega)]
  omega

/-- Without an anonymous mapping, `mprotect` gets to pages of the segment only, as long as
the file mapping is one of those. -/
theorem protectedPages_own (hk : k.UserSpace) (hfile : FileMap curr ph.pFilesz)
    (hcurr : curr ≠ 0) (hpos : 0 < ph.pMemsz.toNat) (hneeds : ¬ NeedsBss curr ph)
    (hend : (fileEnd curr ph.pFilesz).toNat < curr.toNat + ph.pMemsz.toNat) {page : Word}
    (h : page ∈ protectedPages k m (pageAlign curr) (pageRound ph.pMemsz)) :
    ∃ i, i < ph.pMemsz.toNat ∧ page = pageAlign (curr + BitVec.ofNat 64 i) := by
  obtain ⟨i, hi, rfl, hall⟩ := mem_protectedPages.mp h
  rw [mappedLen_pageRound] at hi
  have htask := TASK_SIZE_lt
  have hrange := hk.mprotect_range (Nat.succ_pos i) fun j hj => by
    have hpage := hall j (Nat.lt_succ_iff.mp hj)
    rw [Protectable, Bool.and_eq_true] at hpage
    exact hpage.2
  have hstart := pageAlign_toNat curr
  have hpage : (pageAlign curr + BitVec.ofNat 64 (4096 * i)).toNat =
      (pageAlign curr).toNat + 4096 * i := add_ofNat_toNat (by omega)
  rw [own_iff hpos (by omega) (by omega), hpage]
  by_contra hge
  -- The only such page follows a segment of whole pages that the file does not fill.
  have hfileEnd : (fileEnd curr ph.pFilesz).toNat =
      (curr.toNat + ph.pFilesz.toNat) % 2 ^ 64 / 4096 * 4096 := by
    rw [fileEnd, pageAlign_toNat, BitVec.toNat_add]
  have hbss : (bssEnd curr ph.pMemsz).toNat =
      ((curr.toNat + ph.pMemsz.toNat) % 2 ^ 64 / 4096 * 4096 + 4096) % 2 ^ 64 := by
    rw [bssEnd, BitVec.toNat_add, pageAlign_toNat, BitVec.toNat_add,
      show (0x1000 : Word).toNat = 4096 from rfl]
  have hfileLe := hfile.le
  have hnext := add_page_toNat hfile.below
  have hfileLt := ph.pFilesz.isLt
  apply hneeds
  refine ⟨BitVec.lt_def.mpr (by omega), hcurr, BitVec.lt_def.mpr (by omega)⟩

/-- The kernel grants the file mapping of a segment. -/
theorem mmapFile_of_grants {file : Nat → Byte} {addr len offset : Word} {p : Prot}
    (haligned : pageOfft addr = 0) (h : k.Grants addr len) :
    ∃ m', k.mmapFile m file addr len offset p = some m' := by
  rw [Kernel.mmapFile, if_pos ⟨haligned, h⟩]
  exact ⟨_, rfl⟩

theorem mmapFile_of_not_grants {file : Nat → Byte} {addr len offset : Word} {p : Prot}
    (h : ¬ (pageOfft addr = 0 ∧ k.Grants addr len)) :
    k.mmapFile m file addr len offset p = none := by
  rw [Kernel.mmapFile]
  exact if_neg h

/-- The pages that a call for a segment after the first changes. -/
theorem mapLoadPages_later (hbase : l.base ≠ 0) (hcurr : loadAddress b l.base ph = curr)
    (hne : curr ≠ 0) (h : k.Grants (pageAlign curr) (fileMapLength curr ph.pFilesz)) :
    ∃ m, mapLoadPages k b ph l =
      pagesFrom (pageAlign curr) (mappedLen (fileMapLength curr ph.pFilesz) / 4096) ++
        clearedPages ph curr ++
        match mapBss k ph curr { l with space := m } with
        | none => []
        | some l =>
          bssPages ph curr ++ protectedPages k l.space (pageAlign curr) (pageRound ph.pMemsz) := by
  obtain ⟨m, hm⟩ : ∃ m, k.mmapFile l.space b.file (pageAlign curr)
      (fileMapLength curr ph.pFilesz) (pageAlign ph.pOffset) ph.mapProt = some m :=
    mmapFile_of_grants (pageOfft_pageAlign curr) h
  have hseg : mapSegment k b ph l = some (curr, { l with space := m }) := by
    rw [loadAddress] at hcurr
    rw [Phdr.mapProt] at hm
    simp only [mapSegment, if_neg hbase, hcurr, hm]
    rfl
  refine ⟨m, ?_⟩
  simp only [mapLoadPages, hseg, if_pos hne]

theorem mapLoadPages_later_refused (hbase : l.base ≠ 0) (hcurr : loadAddress b l.base ph = curr)
    (h : ¬ k.Grants (pageAlign curr) (fileMapLength curr ph.pFilesz)) :
    mapLoadPages k b ph l = [] := by
  have hseg : mapSegment k b ph l = none := by
    rw [loadAddress] at hcurr
    simp only [mapSegment, if_neg hbase, hcurr, mmapFile_of_not_grants fun hall => h hall.2]
    rfl
  simp only [mapLoadPages, hseg]

/-- The pages that are mapped from the file, and the one that is cleared after it. -/
theorem filePages_own_iff (hfile : FileMap curr ph.pFilesz) {n : Nat} (hpos : 0 < n) :
    (∀ page ∈ pagesFrom (pageAlign curr) (mappedLen (fileMapLength curr ph.pFilesz) / 4096) ++
        clearedPages ph curr, ∃ i, i < n ∧ page = pageAlign (curr + BitVec.ofNat 64 i)) ↔
      (fileEnd curr ph.pFilesz).toNat < curr.toNat + n := by
  rw [← hfile.own_iff hpos]
  constructor
  · exact fun hown page hpage => hown page (List.mem_append_left _ hpage)
  · intro hown page hpage
    rcases List.mem_append.mp hpage with hpage | hpage
    · exact hown page hpage
    · have halign := pageAlign_toNat (curr + ph.pFilesz)
      rw [clearedPages_subset hpage]
      apply hown
      rw [hfile.mem_pages]
      exact ⟨by rw [fileEnd]; omega, hfile.le, le_refl _⟩

/-- The file mapping of a segment with an anonymous mapping ends before the segment. -/
theorem fileEnd_lt_of_needs (hfile : FileMap curr ph.pFilesz) (hneeds : NeedsBss curr ph) :
    (fileEnd curr ph.pFilesz).toNat < curr.toNat + ph.pMemsz.toNat := by
  have hnext := add_page_toNat hfile.below
  have hlt := BitVec.lt_def.mp hneeds.2.2
  rw [hnext, bssEnd, BitVec.toNat_add, pageAlign_toNat, BitVec.toNat_add,
    show (0x1000 : Word).toNat = 4096 from rfl] at hlt
  omega

/-- A segment after the first. -/
theorem ownPages_later_iff (hk : k.UserSpace) (hbase : l.base ≠ 0)
    (hcurr : loadAddress b l.base ph = curr) (hpos : 0 < ph.pMemsz.toNat) :
    OwnPages k b ph l ↔
      ¬ k.Grants (pageAlign curr) (fileMapLength curr ph.pFilesz) ∨
      (NeedsBss curr ph ∧
        ¬ k.Grants (fileEnd curr ph.pFilesz + 0x1000) (bssLength curr ph)) ∨
      (¬ NeedsBss curr ph ∧
        (fileEnd curr ph.pFilesz).toNat < curr.toNat + ph.pMemsz.toNat) := by
  have haddr : segmentAddress b ph l = curr := by rw [segmentAddress, if_neg hbase, hcurr]
  rw [OwnPages, haddr]
  by_cases hfileGrant : k.Grants (pageAlign curr) (fileMapLength curr ph.pFilesz)
  · have hfile : FileMap curr ph.pFilesz := fileMap_of_mmap hk hfileGrant.1 hfileGrant.2
    have hne : curr ≠ 0 := by
      rintro rfl
      exact absurd hfile.pos (by decide)
    have hfilePages := filePages_own_iff hfile hpos
    obtain ⟨m, hpages⟩ := mapLoadPages_later hbase hcurr hne hfileGrant
    have hnone : mapBss k ph curr { l with space := m } = none ↔ _ := mapBss_eq_none_iff hne
    rw [hpages]
    simp only [hfileGrant, not_true_eq_false, false_or]
    cases hbss : mapBss k ph curr { l with space := m } with
    | none =>
      obtain ⟨hneeds, hrefused⟩ := hnone.mp hbss
      simp only [List.append_nil, hneeds, hrefused, not_true_eq_false, not_false_eq_true,
        and_self, true_or, iff_true]
      exact hfilePages.mpr (fileEnd_lt_of_needs hfile hneeds)
    | some l' =>
      have hgrants : ¬ (NeedsBss curr ph ∧
          ¬ k.Grants (fileEnd curr ph.pFilesz + 0x1000) (bssLength curr ph)) := by
        rw [← hnone, hbss]
        simp
      simp only [hgrants, false_or]
      constructor
      · intro hown
        refine ⟨fun hneeds => ?_, hfilePages.mp fun page hpage =>
          hown page (List.mem_append_left _ hpage)⟩
        -- The last page of the anonymous mapping is not a page of the segment.
        have hgrant := not_not.mp fun hrefused => hgrants ⟨hneeds, hrefused⟩
        obtain ⟨hmem, haligned, hle, hge⟩ := bssEnd_mem hk hfile hneeds hgrant
        have hlast := hown _ (List.mem_append_right _ (List.mem_append_left _ hmem))
        rw [own_iff hpos haligned hle] at hlast
        omega
      · rintro ⟨hneeds, hend⟩ page hpage
        rw [bssPages_of_not_needs hneeds, List.nil_append] at hpage
        rcases List.mem_append.mp hpage with hpage | hpage
        · exact hfilePages.mpr hend page hpage
        · exact protectedPages_own hk hfile hne hpos hneeds hend hpage
  · rw [mapLoadPages_later_refused hbase hcurr hfileGrant]
    simp [hfileGrant]

end Later

section First

variable {k : Kernel} {b : Binary} {ph : Phdr} {l : Loader} {curr : Word}

/-- The last `mprotect` for the first segment does not get to the page at the distance of
`p_memsz`: some page up to it cannot be protected, or is past the file mapping and not
mapped. -/
def StopsShort (k : Kernel) (m : Space) (curr : Word) (ph : Phdr) : Prop :=
  ∃ i, i ≤ ph.pMemsz.toNat / 4096 ∧
    (k.mprotect (curr + BitVec.ofNat 64 (4096 * i)) = false ∨
      (fileEnd curr ph.pFilesz).toNat < (curr + BitVec.ofNat 64 (4096 * i)).toNat ∧
        m.prot (curr + BitVec.ofNat 64 (4096 * i)) = none)

/-- The pages that the call for the first segment changes. -/
theorem mapLoadPages_first (hbase : l.base = 0) (hcurr : firstAddress b ph = curr)
    (haligned : pageOfft curr = 0) (h : k.Grants curr (fileMapLength 0 ph.pFilesz)) :
    ∃ m, k.mmapFile l.space b.file curr (fileMapLength 0 ph.pFilesz) (pageAlign ph.pOffset)
        ph.mapProt = some m ∧
      mapLoadPages k b ph l =
        pagesFrom curr (mappedLen (fileMapLength 0 ph.pFilesz) / 4096) ++
          protectedPages k m curr (pageRound ph.pMemsz) := by
  obtain ⟨m, hm⟩ : ∃ m, k.mmapFile l.space b.file curr (fileMapLength 0 ph.pFilesz)
      (pageAlign ph.pOffset) ph.mapProt = some m := mmapFile_of_grants haligned h
  have hseg : mapSegment k b ph l = some (0, { l with space := m, base := curr }) := by
    rw [firstAddress] at hcurr
    rw [Phdr.mapProt] at hm
    simp only [mapSegment, if_pos hbase, hcurr, hm]
    rfl
  refine ⟨m, hm, ?_⟩
  have hbss : ∃ v, mapBss k ph 0 { l with space := m, base := curr } =
      some { l with space := m, base := curr, vbrk := v } := by
    rw [mapBss, if_neg (by simp)]
    split
    · exact ⟨_, rfl⟩
    · exact ⟨l.vbrk, rfl⟩
  obtain ⟨v, hbss⟩ := hbss
  have hzero : ¬ ((0 : Word) ≠ 0) := fun h => h rfl
  simp only [mapLoadPages, hseg, hbss, clearedPages, bssPages, hzero, and_false, false_and,
    if_false, List.append_nil, List.nil_append]

theorem mapLoadPages_first_refused (hbase : l.base = 0) (hcurr : firstAddress b ph = curr)
    (h : ¬ (pageOfft curr = 0 ∧ k.Grants curr (fileMapLength 0 ph.pFilesz))) :
    mapLoadPages k b ph l = [] := by
  have hseg : mapSegment k b ph l = none := by
    rw [firstAddress] at hcurr
    simp only [mapSegment, if_pos hbase, hcurr, mmapFile_of_not_grants h]
    rfl
  simp only [mapLoadPages, hseg]

theorem protectable_iff {m m' : Space} (hfile : FileMap curr ph.pFilesz)
    (hm : k.mmapFile m b.file (pageAlign curr) (fileMapLength curr ph.pFilesz)
      (pageAlign ph.pOffset) ph.mapProt = some m') {page : Word}
    (hle : (pageAlign curr).toNat ≤ page.toNat) (haligned : page.toNat % 4096 = 0) :
    Protectable k m' page = true ↔
      k.mprotect page = true ∧
        (page.toNat ≤ (fileEnd curr ph.pFilesz).toNat ∨ m.prot page ≠ none) := by
  have halign := pageAlign_toNat (curr + ph.pFilesz)
  rw [show pageAlign (curr + ph.pFilesz) = fileEnd curr ph.pFilesz from rfl] at halign
  rw [Protectable, (fileMap_mapped hfile hm page).2, Bool.and_eq_true, and_comm]
  apply and_congr_right
  intro _
  by_cases hin : page.toNat ≤ (fileEnd curr ph.pFilesz).toNat
  · rw [if_pos ⟨hle, by omega⟩]
    simp [hin]
  · rw [if_neg (by omega)]
    simp [hin, Option.ne_none_iff_isSome]

/-- The pages up to one that can be protected do not wrap around. -/
theorem page_toNat_of_mprotect (hk : k.UserSpace) {i : Nat}
    (hall : ∀ j, j < i + 1 → k.mprotect (curr + BitVec.ofNat 64 (4096 * j)) = true) :
    ∀ j, j ≤ i → (curr + BitVec.ofNat 64 (4096 * j)).toNat = curr.toNat + 4096 * j := by
  have htask := TASK_SIZE_lt
  have hrange := hk.mprotect_range (Nat.succ_pos i) hall
  intro j hj
  exact add_ofNat_toNat (by omega)

section FirstProtected

variable {m m' : Space} (hk : k.UserSpace) (hfile : FileMap curr ph.pFilesz)
  (haligned : curr.toNat % 4096 = 0)
  (hm : k.mmapFile m b.file (pageAlign curr) (fileMapLength curr ph.pFilesz)
    (pageAlign ph.pOffset) ph.mapProt = some m') (hpos : 0 < ph.pMemsz.toNat)

include hk hfile haligned hm hpos

/-- Past whole pages, `mprotect` gets to one page more unless it stops before. -/
theorem stopsShort_of_own (hwhole : ph.pMemsz.toNat % 4096 = 0)
    (hown : ∀ page ∈ protectedPages k m' curr (pageRound ph.pMemsz),
      ∃ i, i < ph.pMemsz.toNat ∧ page = pageAlign (curr + BitVec.ofNat 64 i)) :
    StopsShort k m curr ph := by
  have hstart := pageAlign_toNat curr
  have hlen := mappedLen_pageRound ph.pMemsz
  by_contra hreach
  simp only [StopsShort, not_exists, not_and, not_or, Bool.not_eq_false] at hreach
  have hmprotect := fun j (hj : j ≤ ph.pMemsz.toNat / 4096) => (hreach j hj).1
  have hnat := page_toNat_of_mprotect hk (i := ph.pMemsz.toNat / 4096) fun j hj =>
    hmprotect j (Nat.lt_succ_iff.mp hj)
  have hmem : curr + BitVec.ofNat 64 (4096 * (ph.pMemsz.toNat / 4096)) ∈
      protectedPages k m' curr (pageRound ph.pMemsz) := by
    refine mem_protectedPages.mpr ⟨ph.pMemsz.toNat / 4096, by omega, rfl, fun j hj => ?_⟩
    have hj' := hnat j hj
    rw [protectable_iff hfile hm (by omega) (by omega)]
    refine ⟨hmprotect j hj, ?_⟩
    by_cases hin : (curr + BitVec.ofNat 64 (4096 * j)).toNat ≤ (fileEnd curr ph.pFilesz).toNat
    · exact Or.inl hin
    · exact Or.inr ((hreach j hj).2 (Nat.lt_of_not_le hin))
  have hlast := hown _ hmem
  have hnat' := hnat _ (le_refl _)
  rw [own_iff hpos (by omega) (by omega)] at hlast
  omega

/-- With a part of a page at the end, or when it stops before, `mprotect` gets to no page
that is not of the segment. -/
theorem own_of_stopsShort (hcond : ph.pMemsz.toNat % 4096 ≠ 0 ∨ StopsShort k m curr ph) :
    ∀ page ∈ protectedPages k m' curr (pageRound ph.pMemsz),
      ∃ i, i < ph.pMemsz.toNat ∧ page = pageAlign (curr + BitVec.ofNat 64 i) := by
  have hstart := pageAlign_toNat curr
  have hlen := mappedLen_pageRound ph.pMemsz
  intro page hmem
  obtain ⟨i, hi, rfl, hall⟩ := mem_protectedPages.mp hmem
  have hmprotect : ∀ j, j < i + 1 →
      k.mprotect (curr + BitVec.ofNat 64 (4096 * j)) = true := by
    intro j hj
    have hprot := hall j (Nat.lt_succ_iff.mp hj)
    rw [Protectable, Bool.and_eq_true] at hprot
    exact hprot.2
  have hnat := page_toNat_of_mprotect hk hmprotect
  have hnat' := hnat i (le_refl _)
  rw [own_iff hpos (by omega) (by omega)]
  by_contra hge
  rcases hcond with hpart | ⟨j, hj, hstop⟩
  · omega
  · have hj' := hnat j (by omega)
    have hprot := hall j (by omega)
    rw [protectable_iff hfile hm (by omega) (by omega)] at hprot
    rcases hstop with hstop | ⟨hpast, hnone⟩
    · rw [hstop] at hprot
      exact absurd hprot.1 (by decide)
    · rcases hprot.2 with hin | hsome
      · omega
      · exact hsome hnone

/-- The pages that `mprotect` gets to for the first segment are pages of it, but for one
when it is made of whole pages. -/
theorem protectedPages_first_iff :
    (∀ page ∈ protectedPages k m' curr (pageRound ph.pMemsz),
        ∃ i, i < ph.pMemsz.toNat ∧ page = pageAlign (curr + BitVec.ofNat 64 i)) ↔
      ph.pMemsz.toNat % 4096 ≠ 0 ∨ StopsShort k m curr ph := by
  constructor
  · intro hown
    exact or_iff_not_imp_left.mpr fun hwhole =>
      stopsShort_of_own hk hfile haligned hm hpos (not_not.mp hwhole) hown
  · exact own_of_stopsShort hk hfile haligned hm hpos

end FirstProtected

/-- The segment that fixes the load base. -/
theorem ownPages_first_iff (hk : k.UserSpace) (hbase : l.base = 0)
    (hcurr : firstAddress b ph = curr) (hpos : 0 < ph.pMemsz.toNat) :
    OwnPages k b ph l ↔
      ¬ (pageOfft curr = 0 ∧ k.Grants curr (fileMapLength 0 ph.pFilesz)) ∨
      ((fileEnd curr ph.pFilesz).toNat < curr.toNat + ph.pMemsz.toNat ∧
        (ph.pMemsz.toNat % 4096 ≠ 0 ∨ StopsShort k l.space curr ph)) := by
  have haddr : segmentAddress b ph l = curr := by rw [segmentAddress, if_pos hbase, hcurr]
  rw [OwnPages, haddr]
  by_cases hgrant : pageOfft curr = 0 ∧ k.Grants curr (fileMapLength 0 ph.pFilesz)
  · obtain ⟨m, hm, hpages⟩ := mapLoadPages_first hbase hcurr hgrant.1 hgrant.2
    have hofft := mod_of_pageOfft hgrant.1
    have haligned := pageAlign_of_aligned hofft
    have hfile : FileMap curr ph.pFilesz := by
      have hlength := fileMapLength_of_aligned hofft ph.pFilesz
      apply fileMap_of_mmap hk
      · rw [hlength]
        exact hgrant.2.1
      · rw [haligned, hlength]
        exact hgrant.2.2
    have hm' : k.mmapFile l.space b.file (pageAlign curr) (fileMapLength curr ph.pFilesz)
        (pageAlign ph.pOffset) ph.mapProt = some m := by
      rw [haligned, fileMapLength_of_aligned hofft]
      exact hm
    have hfilePages := hfile.own_iff hpos
    rw [haligned, fileMapLength_of_aligned hofft] at hfilePages
    rw [hpages]
    simp only [hgrant, and_self, not_true_eq_false, false_or, List.mem_append, or_imp,
      forall_and]
    rw [hfilePages, protectedPages_first_iff hk hfile hofft hm' hpos]
  · rw [mapLoadPages_first_refused hbase hcurr hgrant]
    exact ⟨fun _ => Or.inl hgrant, fun _ page hpage => absurd hpage List.not_mem_nil⟩

end First

/-- When a call keeps to the pages of its segment.  For a segment after the first: the file
mapping is refused; or a needed anonymous mapping is refused; or none is needed, and the
page of the byte after the file part has a byte of the segment.  For the first: the file
mapping is refused; or that page has a byte of the segment, and `p_memsz` is not a number
of whole pages, or `mprotect` does not get to the page after these. -/
def KeepsToOwn (k : Kernel) (b : Binary) (ph : Phdr) (l : Loader) : Prop :=
  let curr := segmentAddress b ph l
  if l.base = 0 then
    ¬ (pageOfft curr = 0 ∧ k.Grants curr (fileMapLength 0 ph.pFilesz)) ∨
    ((fileEnd curr ph.pFilesz).toNat < curr.toNat + ph.pMemsz.toNat ∧
      (ph.pMemsz.toNat % 4096 ≠ 0 ∨ StopsShort k l.space curr ph))
  else
    ¬ k.Grants (pageAlign curr) (fileMapLength curr ph.pFilesz) ∨
    (NeedsBss curr ph ∧ ¬ k.Grants (fileEnd curr ph.pFilesz + 0x1000) (bssLength curr ph)) ∨
    (¬ NeedsBss curr ph ∧ (fileEnd curr ph.pFilesz).toNat < curr.toNat + ph.pMemsz.toNat)

/-- The pages that `map_load` changes are pages of the segment exactly when the call keeps
to them. -/
theorem mapLoad_ownPages_iff {k : Kernel} (hk : k.UserSpace) (b : Binary) (ph : Phdr)
    (l : Loader) (hpos : 0 < ph.pMemsz.toNat) :
    OwnPages k b ph l ↔ KeepsToOwn k b ph l := by
  simp only [KeepsToOwn]
  split
  · rename_i hbase
    exact ownPages_first_iff hk hbase (if_pos hbase).symm hpos
  · rename_i hbase
    exact ownPages_later_iff hk hbase (if_neg hbase).symm hpos

/-- A segment of one whole page. -/
def wholePage : Phdr := ⟨.LOAD, false, false, 0, 0x400000, 0x1000, 0x1000⟩

theorem mapLoad_ownPages_iff_wholePage :
    Kernel.user.UserSpace ∧ 0 < wholePage.pMemsz.toNat ∧
      (OwnPages Kernel.user (fixedBinary []) wholePage baseLoaded ↔
        KeepsToOwn Kernel.user (fixedBinary []) wholePage baseLoaded) :=
  ⟨Kernel.user_userSpace, by decide,
    mapLoad_ownPages_iff Kernel.user_userSpace (fixedBinary []) wholePage baseLoaded (by decide)⟩

/-- A segment of one whole page takes the page after it as well. -/
theorem mapLoad_takes_next_page :
    ¬ OwnPages Kernel.user (fixedBinary []) wholePage baseLoaded := by
  intro hown
  have hmem : (0x401000 : Word) ∈
      mapLoadPages Kernel.user (fixedBinary []) wholePage baseLoaded := by decide
  have hlast := hown _ hmem
  rw [show segmentAddress (fixedBinary []) wholePage baseLoaded = 0x400000 from rfl,
    own_iff (by decide) (by decide) (by decide)] at hlast
  exact absurd hlast (by decide)

/-! ## Nothing else changes -/

/-- An address in a range of whole pages is in one of the pages. -/
theorem mem_pagesFrom_of_inRange {addr x : Word} {n : Nat} (haligned : addr.toNat % 4096 = 0)
    (h : InRange addr (n * 4096) x) : pageAlign x ∈ pagesFrom addr n := by
  obtain ⟨d, hd, rfl⟩ := exists_of_inRange h
  refine mem_pagesFrom.mpr ⟨d / 4096, by omega, ?_⟩
  apply BitVec.eq_of_toNat_eq
  rw [pageAlign_toNat, BitVec.toNat_add, BitVec.toNat_add, BitVec.toNat_ofNat,
    BitVec.toNat_ofNat]
  omega

theorem mappedLen_div_mul (len : Word) : mappedLen len / 4096 * 4096 = mappedLen len := by
  rw [mappedLen, Nat.mul_div_cancel _ (by decide)]

/-- The steps of a successful call. -/
theorem mapLoad_eq_some {k : Kernel} {b : Binary} {ph : Phdr} {l l' : Loader}
    (h : mapLoad k b ph l = some l') :
    ∃ curr l₁ l₂, mapSegment k b ph l = some (curr, l₁) ∧ mapBss k ph curr l₁ = some l₂ ∧
      k.mprotectRange l₂.space (if curr ≠ 0 then pageAlign curr else l₂.base)
        (pageRound ph.pMemsz) ph.prot = some l'.space := by
  simp only [mapLoad, bind, Option.bind_eq_some_iff, pure, Option.some.injEq] at h
  obtain ⟨⟨curr, l₁⟩, hseg, l₂, hbss, m', hprot, rfl⟩ := h
  exact ⟨curr, l₁, l₂, hseg, hbss, hprot⟩

section Frame

variable {k : Kernel} {b : Binary} {ph : Phdr} {l l' : Loader} {curr x : Word}

/-- The two spaces agree at an address. -/
def SameAt (m m' : Space) (x : Word) : Prop := m'.byte x = m.byte x ∧ m'.prot x = m.prot x

theorem SameAt.trans {m m' m'' : Space} (h : SameAt m m' x) (h' : SameAt m' m'' x) :
    SameAt m m'' x :=
  ⟨h'.1.trans h.1, h'.2.trans h.2⟩

theorem not_inRange_of_pages {addr len : Word} (haligned : addr.toNat % 4096 = 0)
    (hx : pageAlign x ∉ pagesFrom addr (mappedLen len / 4096)) :
    ¬ InRange addr (mappedLen len) x := by
  intro h
  rw [← mappedLen_div_mul] at h
  exact hx (mem_pagesFrom_of_inRange haligned h)

/-- The file mapping, outside its pages. -/
theorem mmapFile_sameAt {m m' : Space} {file : Nat → Byte} {addr len offset : Word} {p : Prot}
    (h : k.mmapFile m file addr len offset p = some m')
    (hx : pageAlign x ∉ pagesFrom addr (mappedLen len / 4096)) : SameAt m m' x := by
  obtain ⟨hofft, -, -, rfl⟩ := mmapFile_eq_some h
  have hout := not_inRange_of_pages (mod_of_pageOfft hofft) hx
  constructor
  · simp only [patch_of_not_inRange hout]
  · simp only [patch_of_not_inRange hout]

theorem mapSegment_sameAt (h : mapSegment k b ph l = some (curr, l'))
    (hx : pageAlign x ∉ pagesFrom (if curr ≠ 0 then pageAlign curr else l'.base)
      (mappedLen (fileMapLength curr ph.pFilesz) / 4096)) (hk : k.UserSpace) :
    SameAt l.space l'.space x ∧ (curr = 0 → l'.base.toNat % 4096 = 0) := by
  by_cases hbase : l.base = 0
  · simp only [mapSegment, if_pos hbase, bind, Option.bind_eq_some_iff, pure,
      Option.some.injEq] at h
    obtain ⟨m, hm, heq⟩ := h
    generalize (if b.pie then b.baseAddress else ph.pVaddr) = addr at hm heq
    obtain ⟨rfl, rfl⟩ : 0 = curr ∧ { l with space := m, base := addr } = l' := by
      simpa using heq
    exact ⟨mmapFile_sameAt hm (by simpa using hx), fun _ => mod_of_pageOfft (mmapFile_eq_some hm).1⟩
  · simp only [mapSegment, if_neg hbase, bind, Option.bind_eq_some_iff, pure,
      Option.some.injEq] at h
    obtain ⟨m, hm, heq⟩ := h
    generalize (if b.pie then l.base + ph.pVaddr else ph.pVaddr) = addr at hm heq
    obtain ⟨rfl, rfl⟩ : addr = curr ∧ { l with space := m } = l' := by simpa using heq
    obtain ⟨-, hlen, hgrant, -⟩ := mmapFile_eq_some hm
    have hfile := fileMap_of_mmap hk hlen hgrant
    have hne : addr ≠ 0 := by
      rintro rfl
      exact absurd hfile.pos (by decide)
    rw [if_pos hne] at hx
    exact ⟨mmapFile_sameAt hm hx, fun hzero => absurd hzero hne⟩

/-- Clearing stays in the last page of the file mapping. -/
theorem clearTail_sameAt {m : Space} (hx : pageAlign x ≠ pageAlign (curr + ph.pFilesz)) :
    SameAt m (clearTail curr ph.pFilesz m) x := by
  have hout : ¬ InRange (curr + ph.pFilesz) (tailLen curr ph.pFilesz) x := by
    intro hin
    obtain ⟨d, hd, rfl⟩ := exists_of_inRange hin
    apply hx
    have hlen : tailLen curr ph.pFilesz = 4096 - (curr + ph.pFilesz).toNat % 4096 := by
      rw [tailLen, fileEnd]
      generalize curr + ph.pFilesz = fileTail
      have hlt := fileTail.isLt
      rw [BitVec.toNat_sub, BitVec.toNat_add, pageAlign_toNat,
        show (0x1000 : Word).toNat = 4096 from rfl]
      omega
    have hzero : curr + ph.pFilesz = curr + ph.pFilesz + BitVec.ofNat 64 0 := by simp
    rw [hlen] at hd
    nth_rewrite 2 [hzero]
    exact pageAlign_add_of_lt _ (Nat.zero_le d) (by omega) (by omega)
  constructor
  · simp only [clearTail, patch_of_not_inRange hout]
  · simp only [clearTail]

/-- The part past the file, outside the pages that are cleared and mapped for it. -/
theorem mapBss_sameAt (hcurr : curr ≠ 0) (h : mapBss k ph curr l = some l')
    (hcleared : pageAlign x ∉ clearedPages ph curr) (hbss : pageAlign x ∉ bssPages ph curr) :
    SameAt l.space l'.space x := by
  have hclear : ph.pFilesz < ph.pMemsz → SameAt l.space (clearTail curr ph.pFilesz l.space) x := by
    intro hless
    apply clearTail_sameAt
    rw [clearedPages, if_pos ⟨hless, hcurr⟩] at hcleared
    simpa using hcleared
  have hspace := (mapBss_cases hcurr h).1
  generalize l'.space = m' at hspace ⊢
  cases hspace with
  | mapped hneeds hmap =>
    apply (hclear hneeds.1).trans
    obtain ⟨-, -, heq⟩ := mmapFixed_eq_some hmap
    rw [bssPages_of_needs hneeds] at hbss
    have haligned : (fileEnd curr ph.pFilesz + 0x1000).toNat % 4096 = 0 := by
      have halign := pageAlign_toNat (curr + ph.pFilesz)
      rw [fileEnd, BitVec.toNat_add, halign, show (0x1000 : Word).toNat = 4096 from rfl]
      omega
    have hout := not_inRange_of_pages haligned hbss
    rw [bssLength] at hout
    rw [heq]
    constructor
    · simp only [patch_of_not_inRange hout]
    · simp only [patch_of_not_inRange hout]
  | cleared hneeds hless => exact hclear hless
  | none hless => exact ⟨rfl, rfl⟩

end Frame

/-- A call that returns 0 changes nothing outside the pages that `mapLoadPages` lists. -/
theorem mapLoad_frame {k : Kernel} (hk : k.UserSpace) {b : Binary} {ph : Phdr} {l l' : Loader}
    (h : mapLoad k b ph l = some l') {x : Word} (hx : pageAlign x ∉ mapLoadPages k b ph l) :
    SameAt l.space l'.space x := by
  obtain ⟨curr, l₁, l₂, hseg, hbss, hprot⟩ := mapLoad_eq_some h
  simp only [mapLoadPages, hseg, hbss, List.mem_append, not_or] at hx
  obtain ⟨⟨hfile, hcleared⟩, hbssPages, hprotected⟩ := hx
  obtain ⟨hsame, hbase⟩ := mapSegment_sameAt hseg hfile hk
  have hmiddle : SameAt l₁.space l₂.space x ∧ l₂.base = l₁.base := by
    by_cases hcurr : curr = 0
    · rw [mapBss, if_neg (by simp [hcurr])] at hbss
      split at hbss
      · obtain rfl := Option.some.inj hbss
        exact ⟨⟨rfl, rfl⟩, rfl⟩
      · obtain rfl := Option.some.inj hbss
        exact ⟨⟨rfl, rfl⟩, rfl⟩
    · exact ⟨mapBss_sameAt hcurr hbss hcleared hbssPages, (mapBss_cases hcurr hbss).2.1⟩
  apply (hsame.trans hmiddle.1).trans
  rw [hmiddle.2] at hprot
  have haligned : (if curr ≠ 0 then pageAlign curr else l₁.base).toNat % 4096 = 0 := by
    split
    · have halign := pageAlign_toNat curr
      omega
    · rename_i hzero
      exact hbase (not_not.mp hzero)
  obtain ⟨hall, heq⟩ := mprotectRange_eq_some hprot
  have hout : pageAlign x ∉ pagesFrom (if curr ≠ 0 then pageAlign curr else l₁.base)
      (mappedLen (pageRound ph.pMemsz) / 4096) := by
    intro hmem
    obtain ⟨i, hi, hpage⟩ := mem_pagesFrom.mp hmem
    exact hprotected (mem_protectedPages.mpr
      ⟨i, hi, hpage, fun j hj => hall j (Nat.lt_of_le_of_lt hj hi)⟩)
  rw [heq]
  exact ⟨rfl, by simp only [patch_of_not_inRange (not_inRange_of_pages haligned hout)]⟩

end Dryadalis
