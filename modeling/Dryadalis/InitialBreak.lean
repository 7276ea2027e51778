import Dryadalis.SegmentImage

/-!
# The initial break

`map_load` has three formulas for the break, and a segment may also leave it alone, so the
break is what the last segment that moves it makes of it.  A segment with a part past the
file puts it at a page boundary past its own end.  A segment without one, and the first
segment always, adds one byte too many, and takes the length of the file mapping from the
variable `sz`, which does not know the offset of the segment in its first page.
-/

namespace Dryadalis

/-- The part of a segment past the file has a page of its own. -/
def Crosses (b : Binary) (ph : Phdr) : Prop :=
  ph.pFilesz < ph.pMemsz ∧ ((b.address ph).toNat + ph.pFilesz.toNat) / 4096 <
    ((b.address ph).toNat + ph.pMemsz.toNat) / 4096

instance (b : Binary) (ph : Phdr) : Decidable (Crosses b ph) :=
  inferInstanceAs (Decidable (_ ∧ _))

/-- A segment that is not the first moves the break. -/
def MovesBreak (b : Binary) (ph : Phdr) : Prop := ph.pfW = true ∨ Crosses b ph

/-- Where a segment with a part past the file puts the break. -/
def breakOf (b : Binary) (ph : Phdr) : Nat :=
  ((b.address ph).toNat + ph.pMemsz.toNat) / 4096 * 4096 +
    if Crosses b ph then 0x2000 else 0x1000

/-- The segment `s` is the last that moves the break. -/
structure LastMove (b : Binary) (phs pre : List Phdr) (s : Phdr) (post : List Phdr) : Prop where
  split : phs = pre ++ s :: post
  moves : MovesBreak b s
  rest : ∀ q ∈ post, ¬ MovesBreak b q

/-- The break is at a page boundary past the end of every segment, and a heap that grows
from there has no byte of a segment in it. -/
structure BreakOk (b : Binary) (vbrk : Word) : Prop where
  aligned : pageOfft vbrk = 0
  above : ∀ ph ∈ b.loads, (b.address ph).toNat + ph.pMemsz.toNat ≤ vbrk.toNat
  heap : ∀ ph ∈ b.loads, ∀ i, i < ph.pMemsz.toNat →
    (b.address ph + BitVec.ofNat 64 i).toNat < (pageAlign vbrk).toNat

/-- The last segment that moves the break is not the first and has a part past the file,
and the segments after it, or placed above it, end before the break that it sets. -/
def MovedRight (b : Binary) : Prop :=
  ∃ pre s post, LastMove b b.loads pre s post ∧ pre ≠ [] ∧ s.pFilesz < s.pMemsz ∧
    ∀ q ∈ b.loads, q ∈ post ∨ (b.address s).toNat < (b.address q).toNat →
      (b.address q).toNat + q.pMemsz.toNat ≤ breakOf b s

section Break

variable {k : Kernel} {b : Binary} {ph s s' q : Phdr} {done phs pre post pre' post' : List Phdr}
  {l l' : Loader} {m m' : Space} {vbrk : Word}

/-! ## One segment -/

theorem fileMapLength_mod (curr filesz : Word) : (fileMapLength curr filesz).toNat % 4096 = 0 := by
  have hstart := pageAlign_toNat curr
  have hend := pageAlign_toNat (curr + filesz)
  have hsub := sub_aligned (x := pageAlign (curr + filesz)) (y := pageAlign curr) (by omega)
    (by omega)
  rw [fileMapLength_eq, BitVec.toNat_add, show (0x1000 : Word).toNat = 4096 from rfl]
  omega

/-- The break of a segment without a part past the file is one byte past a page boundary. -/
theorem break_odd {curr filesz : Word} (h : curr.toNat % 4096 = 0) :
    (curr + fileMapLength 0 filesz + 1).toNat % 4096 = 1 := by
  have hlen := fileMapLength_mod 0 filesz
  rw [BitVec.toNat_add, BitVec.toNat_add, show (1 : Word).toNat = 1 from rfl]
  omega

theorem Loaded.needsBss_iff (h : Loaded b (b.address ph) ph m m') :
    NeedsBss (b.address ph) ph ↔ Crosses b ph :=
  Dryadalis.needsBss_iff h.file h.memsz_le

theorem Loaded.breakAfter_eq (h : Loaded b (b.address ph) ph m m') (hmoves : MovesBreak b ph)
    (hless : ph.pFilesz < ph.pMemsz) :
    (breakAfter (b.address ph) ph vbrk).toNat = breakOf b ph := by
  have hbss := bssEnd_toNat h.memsz_le
  have hend := fileEnd_toNat (add_lt_of_memsz_le (BitVec.lt_def.mp hless).le h.memsz_le)
  have hle := BitVec.lt_def.mp hless
  have htask := TASK_SIZE_lt
  have hmemsz := h.memsz_le
  have hstart := pageAlign_toNat (b.address ph)
  rw [breakAfter, breakOf]
  by_cases hcross : Crosses b ph
  · rw [if_pos (h.needsBss_iff.mpr hcross), if_pos hcross, BitVec.toNat_add, hbss,
      show (0x1000 : Word).toNat = 4096 from rfl]
    omega
  · have hw : ph.pfW = true := hmoves.resolve_right hcross
    have hpage : ¬ ((b.address ph).toNat + ph.pFilesz.toNat) / 4096 <
        ((b.address ph).toNat + ph.pMemsz.toNat) / 4096 := fun hlt => hcross ⟨hless, hlt⟩
    rw [if_neg (mt h.needsBss_iff.mp hcross), if_pos hw, if_pos hless, if_neg hcross,
      add_page_toNat h.file.below, hend]
    omega

theorem Loaded.breakAfter_odd (h : Loaded b (b.address ph) ph m m') (hmoves : MovesBreak b ph)
    (hless : ¬ ph.pFilesz < ph.pMemsz) :
    (breakAfter (b.address ph) ph vbrk).toNat % 4096 = 1 := by
  have hcross : ¬ Crosses b ph := fun hc => hless hc.1
  have hstart := pageAlign_toNat (b.address ph)
  rw [breakAfter, if_neg (mt h.needsBss_iff.mp hcross), if_pos (hmoves.resolve_right hcross),
    if_neg hless]
  exact break_odd (by omega)

theorem Loaded.breakAfter_keep (h : Loaded b (b.address ph) ph m m')
    (hmoves : ¬ MovesBreak b ph) : breakAfter (b.address ph) ph vbrk = vbrk := by
  rw [MovesBreak, not_or] at hmoves
  rw [breakAfter, if_neg (mt h.needsBss_iff.mp hmoves.2), if_neg hmoves.1]

/-! ## The last segment that moves the break -/

theorem LastMove.snoc (h : LastMove b phs pre s post) (hkeep : ¬ MovesBreak b ph) :
    LastMove b (phs ++ [ph]) pre s (post ++ [ph]) where
  split := by rw [h.split, List.append_assoc, List.cons_append]
  moves := h.moves
  rest q hq := by
    rcases List.mem_append.mp hq with hq | hq
    · exact h.rest q hq
    · obtain rfl := List.mem_singleton.mp hq
      exact hkeep

theorem lastMove_last (phs : List Phdr) (h : MovesBreak b ph) :
    LastMove b (phs ++ [ph]) phs ph [] :=
  ⟨rfl, h, by simp⟩

/-- Only one segment is the last. -/
theorem LastMove.unique (h : LastMove b phs pre s post) (h' : LastMove b phs pre' s' post') :
    pre = pre' ∧ s = s' ∧ post = post' := by
  have heq := h.split.symm.trans h'.split
  rcases List.append_eq_append_iff.mp heq with ⟨mid, rfl, hmid⟩ | ⟨mid, rfl, hmid⟩
  · cases mid with
    | nil => simpa using hmid
    | cons x mid =>
      rw [List.cons_append, List.cons.injEq] at hmid
      exact absurd h'.moves (h.rest s' (by simp [hmid.2]))
  · cases mid with
    | nil => simpa [eq_comm] using hmid
    | cons x mid =>
      rw [List.cons_append, List.cons.injEq] at hmid
      exact absurd h.moves (h'.rest s (by simp [hmid.2]))

/-! ## The loop -/

/-- The break when the headers in `done` are behind the loop.  Once one of them is writable
there is a last segment that has moved the break. -/
structure BreakInv (b : Binary) (done : List Phdr) (l : Loader) : Prop extends
    BaseSet b done l where
  vbrk : (∃ ph ∈ loadsOf done, ph.pfW = true) →
    ∃ pre s post, LastMove b (loadsOf done) pre s post ∧
      if pre ≠ [] ∧ s.pFilesz < s.pMemsz then l.vbrk.toNat = breakOf b s
      else l.vbrk.toNat % 4096 = 1

theorem BreakInv.skip (h : BreakInv b done l) (hskip : ph.pType ≠ .LOAD)
    (hbase : l'.base = l.base) (hvbrk : l'.vbrk = l.vbrk) : BreakInv b (done ++ [ph]) l' where
  toBaseSet := h.toBaseSet.skip hskip hbase
  vbrk := by
    rw [loadsOf_append_skip hskip, hvbrk]
    exact h.vbrk

theorem BreakInv.first (hk : k.UserSpace) (h : BreakInv b done l) (hload : ph.pType = .LOAD)
    (hnone : loadsOf done = []) (hmap : mapLoad k b ph l = some l') :
    BreakInv b (done ++ [ph]) l' where
  toBaseSet := h.toBaseSet.load hk hload hmap
  vbrk := by
    have hzero := h.unset hnone
    have halign := pageAlign_toNat (firstAddress b ph)
    rw [(mapLoad_loadedFirst hk hzero hmap).aligned] at halign
    have hvbrk := mapLoad_first_vbrk hzero hmap
    rw [loadsOf_append_load hload, hnone]
    rintro ⟨s, hs, hw⟩
    obtain rfl := List.mem_singleton.mp hs
    refine ⟨[], s, [], lastMove_last [] (.inl hw), ?_⟩
    rw [if_neg fun hlater => hlater.1 rfl, hvbrk, if_pos hw]
    exact break_odd (by omega)

theorem BreakInv.later (hk : k.UserSpace) (h : BreakInv b done l) (hload : ph.pType = .LOAD)
    (hsome : loadsOf done ≠ []) (hmap : mapLoad k b ph l = some l') :
    BreakInv b (done ++ [ph]) l' where
  toBaseSet := h.toBaseSet.load hk hload hmap
  vbrk := by
    have hne := (h.set hsome).1
    have hloaded := mapLoad_loaded hk hne hmap
    have hvbrk := mapLoad_later_vbrk hk hne hmap
    rw [h.toBaseSet.loadAddress hsome] at hloaded hvbrk
    rw [loadsOf_append_load hload, hvbrk]
    intro hw
    by_cases hmoves : MovesBreak b ph
    · refine ⟨loadsOf done, ph, [], lastMove_last _ hmoves, ?_⟩
      split
      · rename_i hright
        exact hloaded.breakAfter_eq hmoves hright.2
      · rename_i hwrong
        exact hloaded.breakAfter_odd hmoves fun hless => hwrong ⟨hsome, hless⟩
    · obtain ⟨s, hs, hw⟩ := hw
      have hmem : s ∈ loadsOf done := by
        rcases List.mem_append.mp hs with hs | hs
        · exact hs
        · obtain rfl := List.mem_singleton.mp hs
          exact absurd (Or.inl hw) hmoves
      obtain ⟨pre, t, post, hlast, hvalue⟩ := h.vbrk ⟨s, hmem, hw⟩
      rw [hloaded.breakAfter_keep hmoves]
      exact ⟨pre, t, post ++ [ph], hlast.snoc hmoves, hvalue⟩

theorem BreakInv.step (hk : k.UserSpace) (h : BreakInv b done l)
    (hmap : mapPhdr k b l ph = some l') : BreakInv b (done ++ [ph]) l' := by
  rcases mapPhdr_cases hmap with ⟨hload, hmap⟩ | ⟨hskip, hbase, hvbrk, -⟩
  · by_cases hnone : loadsOf done = []
    · exact h.first hk hload hnone hmap
    · exact h.later hk hload hnone hmap
  · exact h.skip hskip hbase hvbrk

/-! ## After the loop -/

/-- A segment that comes first and is not placed above another one ends before it. -/
theorem Layout.end_le_address (h : Layout b fun ph => ph.pMemsz.toNat)
    (hsplit : b.loads = pre ++ s :: post) (hq : q ∈ pre) (hpos : 0 < s.pMemsz.toNat)
    (hle : (b.address q).toNat ≤ (b.address s).toNat) :
    (b.address q).toNat + q.pMemsz.toNat ≤ (b.address s).toNat := by
  have hasc := h.ascending
  have hdisj := h.disjoint
  rw [hsplit, List.pairwise_append] at hasc hdisj
  have hascend := hasc.2.2 q hq s List.mem_cons_self
  have hdiff := hdisj.2.2 q hq s List.mem_cons_self
  by_contra hnot
  -- The first byte of `s` is a byte of `q`, at the distance of the two addresses.
  have hbyte : s.pVaddr.toNat =
      q.pVaddr.toNat + ((b.address s).toNat - (b.address q).toNat) := by
    have hqlt := q.pVaddr.isLt
    have hslt := s.pVaddr.isLt
    simp only [Binary.address, loadAddress] at hle hnot ⊢
    split at hle
    · rename_i hpie
      simp only [if_pos hpie, BitVec.toNat_add] at hle hnot ⊢
      omega
    · rename_i hpie
      simp only [if_neg hpie] at hle hnot ⊢
      omega
  refine hdiff (s.pVaddr.toNat / 4096) ?_ ⟨_, le_refl _, by omega, rfl⟩
  exact ⟨s.pVaddr.toNat, hascend, by omega, rfl⟩

theorem le_breakOf : (b.address s).toNat + s.pMemsz.toNat ≤ breakOf b s := by
  rw [breakOf]
  split <;> omega

end Break

/-- The break is right exactly when the last segment that moves it is not the first and has
a part past the file, and no segment after it, or above it, ends past the break it sets. -/
theorem initialBreak_iff {k : Kernel} {b : Binary} {m : Space} {l : Loader} (hk : k.UserSpace)
    (hlayout : Layout b fun ph => ph.pMemsz.toNat) (hw : ∃ ph ∈ b.loads, ph.pfW = true)
    (h : mapBinary k b m = some l) : BreakOk b l.vbrk ↔ MovedRight b := by
  have hdone : BreakInv b b.sPh l :=
    Exec.foldlM_induct (fun _ hdone hmap => hdone.step hk hmap)
      ⟨⟨fun _ => rfl, fun hsome => absurd rfl hsome⟩, by simp [loadsOf]⟩ h
  obtain ⟨pre, s, post, hlast, hvalue⟩ := hdone.vbrk hw
  constructor
  · intro hok
    have haligned := mod_of_pageOfft hok.aligned
    split at hvalue
    · rename_i hright
      refine ⟨pre, s, post, hlast, hright.1, hright.2, fun q hq _ => ?_⟩
      rw [← hvalue]
      exact hok.above q hq
    · omega
  · rintro ⟨pre', s', post', hlast', hne, hless, hafter⟩
    obtain ⟨rfl, rfl, rfl⟩ := hlast.unique hlast'
    rw [if_pos ⟨hne, hless⟩] at hvalue
    have hown : (b.address s).toNat + s.pMemsz.toNat ≤ breakOf b s := le_breakOf
    have habove : ∀ q ∈ b.loads, (b.address q).toNat + q.pMemsz.toNat ≤ l.vbrk.toNat := by
      intro q hq
      rw [hvalue]
      have hmem := hq
      rw [hlast'.split, List.mem_append, List.mem_cons] at hmem
      by_cases hlater : q ∈ post ∨ (b.address s).toNat < (b.address q).toNat
      · exact hafter q hq hlater
      · rw [not_or, Nat.not_lt] at hlater
        rcases hmem with hpre | rfl | hpost
        · have hend := hlayout.end_le_address hlast'.split hpre
            (Nat.zero_lt_of_lt (BitVec.lt_def.mp hless)) hlater.2
          omega
        · exact hown
        · exact absurd hpost hlater.1
    have halign : l.vbrk.toNat % 4096 = 0 := by
      rw [hvalue, breakOf]
      split <;> omega
    have hpage := pageAlign_toNat l.vbrk
    refine ⟨BitVec.eq_of_toNat_eq (by rw [pageOfft_toNat, halign]; rfl), habove, ?_⟩
    intro q hq i hi
    have hend := habove q hq
    have hlt := l.vbrk.isLt
    rw [add_ofNat_toNat (by omega)]
    omega

/-! ## A break inside a segment -/

/-- The data start in the middle of a page and end in the next one. -/
def offsetData : Binary :=
  ⟨false, pageFile, [textSegment, ⟨.LOAD, true, false, 0x1800, 0x401800, 0x900, 0x900⟩], 0, some⟩

theorem offsetData_layout : Layout offsetData fun ph => ph.pMemsz.toNat :=
  Conforms.toLayout (conforms_of_pages (by decide) (by decide) (by decide))

theorem offsetData_writable : ∃ ph ∈ offsetData.loads, ph.pfW = true :=
  ⟨_, .tail _ (.head _), rfl⟩

theorem mapBinary_offsetData : (mapBinary Kernel.user offsetData unmapped).isSome = true := by
  decide

theorem initialBreak_iff_offsetData :
    Kernel.user.UserSpace ∧ (Layout offsetData fun ph => ph.pMemsz.toNat) ∧
      (∃ ph ∈ offsetData.loads, ph.pfW = true) ∧
      ∃ l, mapBinary Kernel.user offsetData unmapped = some l ∧
        (BreakOk offsetData l.vbrk ↔ MovedRight offsetData) := by
  obtain ⟨l, hl⟩ := Option.isSome_iff_exists.mp mapBinary_offsetData
  exact ⟨Kernel.user_userSpace, offsetData_layout, offsetData_writable, l, hl,
    initialBreak_iff Kernel.user_userSpace offsetData_layout offsetData_writable hl⟩

/-- The break is 0x402001, and the data end at 0x402100. -/
theorem initialBreak_in_data :
    (Layout offsetData fun ph => ph.pMemsz.toNat) ∧ (∃ ph ∈ offsetData.loads, ph.pfW = true) ∧
      ∃ l, mapBinary Kernel.user offsetData unmapped = some l ∧ ¬ BreakOk offsetData l.vbrk := by
  obtain ⟨l, hl⟩ := Option.isSome_iff_exists.mp mapBinary_offsetData
  refine ⟨offsetData_layout, offsetData_writable, l, hl, fun hok => ?_⟩
  have hvbrk : (mapBinary Kernel.user offsetData unmapped).map Loader.vbrk = some 0x402001 := by
    decide
  rw [hl, Option.map_some, Option.some.injEq] at hvbrk
  have habove := hok.above _ (.tail _ (.head _))
  rw [hvbrk] at habove
  exact absurd habove (by decide)

end Dryadalis
