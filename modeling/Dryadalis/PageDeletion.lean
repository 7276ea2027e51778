import Dryadalis.PageRing

/-!
# Deleting pages from the ring

`list_del_map` looks for one page after the other and takes each descriptor it finds out of
the ring.  Three things are missing: `memory_map` is never moved, so deleting the first
descriptor leaves it pointing to freed memory; a page that is not found stops the loop
after the pages before it were deleted; and what is returned then is `false`, which is the
0 of success.

`DeletesRange` is what deleting a range is for, and `listDelMap_iff` says when
`list_del_map` does it: when every page of the range belongs to a descriptor other than
the first, and none to the first.
-/

namespace Dryadalis

open Exec Ring

/-- `memory_map` points to the first descriptor of the ring, or to nothing if there is
none.  In that case `get_mem_desc` walks the ring of the interpreter, if that has one. -/
structure MapOwner.Owns (s : MapOwner) (d : Descs) (xs : List Word) : Prop where
  ring : d.HasRing xs
  head : s.memoryMap = xs.headD 0
  interp : xs = [] → ∀ i ∈ s.interp, i ≠ 0 → ∃ ys, d.HasRing (i :: ys)

/-- `get_mem_desc` uses a descriptor that was freed. -/
def ReachesFreed (s : MapOwner) (d : Descs) (addr : Word) : Prop :=
  ∃ d', getMemDesc s addr d = .error .freed d'

/-- Of the ring `xs`, one descriptor for each page is gone, and the others are a ring that
`memory_map` points into. -/
def Deleted (s : MapOwner) (pages xs : List Word) (d d' : Descs) : Prop :=
  ∃ found rest, found.map d.addr = pages ∧ (found ++ rest).Perm xs ∧ d'.HasRing rest ∧
    (s.memoryMap ∈ rest ∨ rest = [] ∧ s.memoryMap = 0)

/-- `list_del_map` deletes the range, or reports with a value other than 0 that it has
changed nothing.  No lookup reaches a freed descriptor afterwards. -/
def DeletesRange (s : MapOwner) (addr : Word) (size : BitVec 32) (xs : List Word)
    (d : Descs) : Prop :=
  ∃ ret d', listDelMap s addr size d = .ok ret d' ∧ (∀ a, ¬ ReachesFreed s d' a) ∧
    (ret = 0 ∧ Deleted s (pageAddrs addr (size.toNat / 4096)) xs d d' ∨ ret ≠ 0 ∧ d' = d)

/-- Every page belongs to a descriptor other than the first, and none to the first. -/
def PagesPastHead (pages xs : List Word) (d : Descs) : Prop :=
  ∀ page ∈ pages, (∀ x ∈ xs.head?, d.addr x ≠ page) ∧ ∃ x ∈ xs.tail, d.addr x = page

/-! ## One deletion -/

section Delete

variable {s : MapOwner} {d : Descs} {h x page : Word} {xs u v pages : List Word}

/-- The memory after a descriptor was unlinked and freed. -/
def Descs.without (d : Descs) (x : Word) : Descs :=
  { d with list := d.list.remove x, freed := Function.update d.freed x true }

theorem deleteDesc_ring (hr : d.HasRing xs) (hx : x ∈ xs) :
    deleteDesc x d = .ok () (d.without x) := by
  have hlive : d.Live x := hr.live x hx
  have hnext : d.Live (d.list.next x) := hr.live _ (hr.ring.next_mem hx).1
  have hprev : d.Live (d.list.prev x) := hr.live _ (hr.ring.prev_mem hx).1
  -- The second line of the source reads `prev` of `x` again; the first has not changed it.
  have hkept : Function.update d.list.prev (d.list.next x) (d.list.prev x) x = d.list.prev x := by
    by_cases heq : x = d.list.next x
    · rw [← heq, Function.update_self]
    · rw [Function.update_of_ne heq]
  let d₁ : Descs := { d with list := { d.list with
    prev := Function.update d.list.prev (d.list.next x) (d.list.prev x) } }
  have hread : getPrev x d₁ = .ok (d.list.prev x) d₁ :=
    (getPrev_live (d := d₁) hlive).trans (congrArg (EStateM.Result.ok · d₁) hkept)
  rw [deleteDesc, bind_of_ok (getNext_live hlive), bind_of_ok (getPrev_live hlive),
    bind_of_ok (setPrev_live hnext), bind_of_ok hread, bind_of_ok (getNext_live (d := d₁) hlive),
    bind_of_ok (setNext_live (d := d₁) hprev)]
  exact freeDesc_live hlive

/-- The ring without a descriptor other than the first. -/
theorem Descs.HasRing.without (hr : d.HasRing (h :: u ++ x :: v)) :
    (d.without x).HasRing (h :: u ++ v) := by
  refine ⟨hr.ring.remove, ?_⟩
  intro y hy
  have hmem : y ∈ h :: u ++ x :: v :=
    ((List.Sublist.refl (h :: u)).append (List.sublist_cons_self x v)).subset hy
  have hne : y ≠ x := by
    rintro rfl
    have hn := hr.ring.nodup
    rw [List.nodup_append'] at hn
    rcases List.mem_append.1 hy with hu | hv
    · exact hn.2.2 hu List.mem_cons_self
    · exact (List.nodup_cons.1 hn.2.1).1 hv
  refine ⟨(hr.live y hmem).1, ?_⟩
  show Function.update d.freed x true y = false
  rw [Function.update_of_ne hne]
  exact (hr.live y hmem).2

/-- The first match of a page that is not the page of the first descriptor. -/
theorem getMemDesc_past (hr : d.HasRing (h :: xs)) (hs : s.memoryMap = h)
    (halign : pageAlign page = page) (hh : d.addr h ≠ page) (hex : ∃ x ∈ xs, d.addr x = page) :
    ∃ u x v, xs = u ++ x :: v ∧ d.addr x = page ∧ getMemDesc s page d = .ok (some x) d := by
  have hsome : (xs.find? fun x => d.addr x = page).isSome = true := by
    rw [List.find?_isSome]
    simpa using hex
  obtain ⟨x, hx⟩ := Option.isSome_iff_exists.1 hsome
  obtain ⟨hpage, u, v, hxs, -⟩ := List.find?_eq_some_iff_append.1 hx
  refine ⟨u, x, v, hxs, of_decide_eq_true hpage, ?_⟩
  rw [getMemDesc_ring hr hs, halign, List.find?_cons, decide_eq_false hh, hx]

theorem deletePages_cons {d' : Descs} {x : Word} (hfind : getMemDesc s page d = .ok (some x) d)
    (hdel : deleteDesc x d = .ok () d') :
    deletePages s (page :: pages) d = deletePages s pages d' := by
  rw [deletePages, bind_of_ok hfind]
  exact bind_of_ok hdel

/-- Taking the descriptor of one page out leaves those of the other pages. -/
theorem exists_without {page' : Word} (hx : d.addr x = page) (hpage : page ∉ pages)
    (hpage' : page' ∈ pages) (hex : ∃ y ∈ u ++ x :: v, d.addr y = page') :
    ∃ y ∈ u ++ v, d.addr y = page' := by
  obtain ⟨y, hy, haddr⟩ := hex
  have hne : y ≠ x := by
    rintro rfl
    exact hpage (hx ▸ haddr ▸ hpage')
  exact ⟨y, by simpa [hne] using hy, haddr⟩

/-- The loop, when every page is found past the first descriptor. -/
theorem deletePages_done (hs : s.memoryMap = h) (halign : ∀ page ∈ pages, pageAlign page = page)
    (hn : pages.Nodup) (hr : d.HasRing (h :: xs)) (hpast : PagesPastHead pages (h :: xs) d) :
    ∃ d' found rest, deletePages s pages d = .ok 0 d' ∧ d'.HasRing (h :: rest) ∧
      found.map d.addr = pages ∧ (found ++ rest).Perm xs := by
  induction pages generalizing d xs with
  | nil => exact ⟨d, [], xs, rfl, hr, rfl, .refl xs⟩
  | cons page pages ih =>
    obtain ⟨hpage, hn⟩ := List.nodup_cons.1 hn
    obtain ⟨hh, hex⟩ := hpast page List.mem_cons_self
    obtain ⟨u, x, v, rfl, hx, hfind⟩ :=
      getMemDesc_past hr hs (halign page List.mem_cons_self) (hh h rfl) hex
    have hdel : deleteDesc x d = .ok () (d.without x) := deleteDesc_ring hr (by simp)
    -- The other pages have other descriptors.
    have hpast' : PagesPastHead pages (h :: (u ++ v)) (d.without x) := by
      intro page' hpage'
      obtain ⟨hh', hex'⟩ := hpast page' (List.mem_cons_of_mem page hpage')
      exact ⟨hh', exists_without hx hpage hpage' hex'⟩
    obtain ⟨d', found, rest, hrun, hring, hfound, hperm⟩ :=
      ih (fun p hp => halign p (List.mem_cons_of_mem page hp)) hn hr.without hpast'
    refine ⟨d', x :: found, rest, (deletePages_cons hfind hdel).trans hrun, hring, ?_, ?_⟩
    · rw [List.map_cons, hx, ← hfound]
      rfl
    · exact (hperm.cons x).trans List.perm_middle.symm

/-- Once the first descriptor is freed, the next lookup uses it. -/
theorem getMemDesc_freed (hs : s.memoryMap = h) (hne : h ≠ 0) (hfreed : d.freed h = true) :
    getMemDesc s page d = .error .freed d := by
  rw [getMemDesc, bind_of_ok (ringHead_eq hs hne), if_neg hne]
  exact bind_of_error (getAddr_freed hne hfreed)

/-- The loop, when every page is found and one of them is the page of the first
descriptor. -/
theorem deletePages_head (hs : s.memoryMap = h) (halign : ∀ page ∈ pages, pageAlign page = page)
    (hn : pages.Nodup) (hr : d.HasRing (h :: xs)) (hh : d.addr h ∈ pages)
    (hex : ∀ page ∈ pages, ∃ x ∈ h :: xs, d.addr x = page) {ret : Int} {d' : Descs}
    (hrun : deletePages s pages d = .ok ret d') : d'.freed h = true := by
  induction pages generalizing d xs with
  | nil => exact absurd hh List.not_mem_nil
  | cons page pages ih =>
    have hne : h ≠ 0 := (hr.live h List.mem_cons_self).1
    by_cases hpage : d.addr h = page
    · have hfind : getMemDesc s page d = .ok (some h) d := by
        rw [getMemDesc_ring hr hs, halign page List.mem_cons_self, List.find?_cons,
          decide_eq_true hpage]
      rw [deletePages_cons hfind (deleteDesc_ring hr List.mem_cons_self)] at hrun
      have hfreed : (d.without h).freed h = true := by
        show Function.update d.freed h true h = true
        rw [Function.update_self]
      cases pages with
      | nil =>
        cases hrun
        exact hfreed
      | cons page' pages =>
        rw [deletePages, bind_of_error (getMemDesc_freed hs hne hfreed)] at hrun
        cases hrun
    · obtain ⟨hpages, hn⟩ := List.nodup_cons.1 hn
      have htail : ∃ x ∈ xs, d.addr x = page := by
        obtain ⟨x, hx, haddr⟩ := hex page List.mem_cons_self
        exact ⟨x, (List.mem_cons.1 hx).resolve_left fun heq => hpage (heq ▸ haddr), haddr⟩
      obtain ⟨u, x, v, rfl, hx, hfind⟩ :=
        getMemDesc_past hr hs (halign page List.mem_cons_self) hpage htail
      rw [deletePages_cons hfind (deleteDesc_ring hr (by simp))] at hrun
      refine ih (fun p hp => halign p (List.mem_cons_of_mem page hp)) hn hr.without
        ((List.mem_cons.1 hh).resolve_left hpage) ?_ hrun
      intro page' hpage'
      exact exists_without (u := h :: u) hx hpages hpage'
        (hex page' (List.mem_cons_of_mem page hpage'))

/-- What is returned is 0, whether the pages were found or not. -/
theorem deletePages_ret {ret : Int} {d' : Descs} (hrun : deletePages s pages d = .ok ret d') :
    ret = 0 := by
  induction pages generalizing d with
  | nil =>
    cases hrun
    rfl
  | cons page pages ih =>
    rw [deletePages] at hrun
    obtain ⟨r, d₁, -, hrun⟩ := exists_of_bind_ok hrun
    cases r with
    | none =>
      cases hrun
      rfl
    | some x =>
      obtain ⟨-, d₂, -, hrun⟩ := exists_of_bind_ok hrun
      exact ih hrun

end Delete

/-! ## The pages of a range -/

theorem pageAddrs_nodup (addr : Word) {n : Nat} (hn : n < 2 ^ 20) : (pageAddrs addr n).Nodup := by
  refine List.Nodup.map_on ?_ List.nodup_range
  intro i hi j hj heq
  rw [List.mem_range] at hi hj
  have hnat := congrArg BitVec.toNat (add_left_cancel heq)
  rw [BitVec.toNat_ofNat, BitVec.toNat_ofNat, Nat.mod_eq_of_lt (by omega),
    Nat.mod_eq_of_lt (by omega)] at hnat
  omega

theorem pageAddrs_aligned {addr : Word} (h : addr.toNat % 4096 = 0) {n : Nat} :
    ∀ page ∈ pageAddrs addr n, pageAlign page = page := by
  intro page hpage
  obtain ⟨i, -, rfl⟩ := List.mem_map.1 hpage
  apply pageAlign_of_aligned
  rw [BitVec.toNat_add, BitVec.toNat_ofNat]
  omega

theorem listDelMap_aligned {s : MapOwner} {addr : Word} {size : BitVec 32}
    (hsize : size.toNat % 4096 = 0) (haddr : addr.toNat % 4096 = 0) :
    listDelMap s addr size = deletePages s (pageAddrs addr (size.toNat / 4096)) := by
  rw [listDelMap, if_neg (by omega)]

/-! ## Deleting a range -/

section Range

variable {s : MapOwner} {d : Descs} {xs pages : List Word}

/-- No lookup in a ring reaches a freed descriptor. -/
theorem MapOwner.Owns.not_reachesFreed (hown : s.Owns d xs) (a : Word) :
    ¬ ReachesFreed s d a := by
  rintro ⟨d', hget⟩
  cases xs with
  | cons h xs =>
    rw [getMemDesc_ring hown.ring hown.head] at hget
    cases hget
  | nil =>
    have hzero : s.memoryMap = 0 := hown.head
    cases hi : s.interp with
    | none =>
      rw [getMemDesc, bind_of_error (ringHead_none hzero hi)] at hget
      cases hget
    | some i =>
      by_cases hne : i = 0
      · rw [getMemDesc, bind_of_ok (ringHead_interp hzero hi), if_pos hne] at hget
        cases hget
      · obtain ⟨ys, hring⟩ := hown.interp rfl i hi hne
        rw [getMemDesc_of_head hring (ringHead_interp hzero hi)] at hget
        cases hget

/-- Every page is found past the first descriptor: the loop deletes the range. -/
theorem deletePages_deletes (hown : s.Owns d xs)
    (halign : ∀ page ∈ pages, pageAlign page = page) (hn : pages.Nodup)
    (hpast : PagesPastHead pages xs d) :
    ∃ d', deletePages s pages d = .ok 0 d' ∧ (∀ a, ¬ ReachesFreed s d' a) ∧
      Deleted s pages xs d d' := by
  cases xs with
  | nil =>
    have hnil : pages = [] := by
      rw [List.eq_nil_iff_forall_not_mem]
      intro page hpage
      obtain ⟨-, x, hx, -⟩ := hpast page hpage
      exact List.not_mem_nil hx
    subst hnil
    exact ⟨d, rfl, hown.not_reachesFreed, [], [], rfl, .refl [], hown.ring,
      .inr ⟨rfl, hown.head⟩⟩
  | cons h xs =>
    have hs : s.memoryMap = h := hown.head
    obtain ⟨d', found, rest, hrun, hring, hfound, hperm⟩ :=
      deletePages_done hs halign hn hown.ring hpast
    have hown' : s.Owns d' (h :: rest) := ⟨hring, hs, fun hnil => nomatch hnil⟩
    refine ⟨d', hrun, hown'.not_reachesFreed, found, h :: rest, hfound, ?_, hring, .inl ?_⟩
    · exact List.perm_middle.trans (hperm.cons h)
    · rw [hs]
      exact List.mem_cons_self

/-- The loop has deleted the range: every page is past the first descriptor. -/
theorem pagesPastHead_of_deleted (hown : s.Owns d xs)
    (halign : ∀ page ∈ pages, pageAlign page = page) (hn : pages.Nodup) {ret : Int} {d' : Descs}
    (hrun : deletePages s pages d = .ok ret d') (hdel : Deleted s pages xs d d') :
    PagesPastHead pages xs d := by
  obtain ⟨found, rest, hfound, hperm, hring, hmap⟩ := hdel
  have hex : ∀ page ∈ pages, ∃ x ∈ xs, d.addr x = page := by
    intro page hpage
    rw [← hfound] at hpage
    obtain ⟨x, hx, haddr⟩ := List.mem_map.1 hpage
    exact ⟨x, hperm.subset (List.mem_append_left rest hx), haddr⟩
  cases xs with
  | nil =>
    intro page hpage
    obtain ⟨x, hx, -⟩ := hex page hpage
    exact absurd hx List.not_mem_nil
  | cons h xs =>
    have hs : s.memoryMap = h := hown.head
    have hne : h ≠ 0 := (hown.ring.live h List.mem_cons_self).1
    have hkept : d'.freed h = false := by
      rcases hmap with hmap | ⟨-, hzero⟩
      · exact (hring.live h (hs ▸ hmap)).2
      · exact absurd (hs.symm.trans hzero) hne
    have hh : d.addr h ∉ pages := by
      intro hh
      rw [deletePages_head hs halign hn hown.ring hh hex hrun] at hkept
      cases hkept
    intro page hpage
    obtain ⟨x, hx, haddr⟩ := hex page hpage
    refine ⟨?_, x, ?_, haddr⟩
    · intro y hy heq
      obtain rfl : h = y := by simpa using hy
      exact hh (heq ▸ hpage)
    · rcases List.mem_cons.1 hx with rfl | hx
      · exact absurd (haddr ▸ hpage) hh
      · exact hx

/-- `list_del_map` deletes a range exactly when every page of it belongs to a descriptor
other than the first and none to the first. -/
theorem listDelMap_iff {addr : Word} {size : BitVec 32} (hown : s.Owns d xs)
    (hsize : size.toNat % 4096 = 0) (haddr : addr.toNat % 4096 = 0) :
    DeletesRange s addr size xs d ↔
      PagesPastHead (pageAddrs addr (size.toNat / 4096)) xs d := by
  have hsmall := size.isLt
  have halign := pageAddrs_aligned haddr (n := size.toNat / 4096)
  have hn := pageAddrs_nodup addr (show size.toNat / 4096 < 2 ^ 20 by omega)
  rw [DeletesRange, listDelMap_aligned hsize haddr]
  constructor
  · rintro ⟨ret, d', hrun, -, ⟨-, hdel⟩ | ⟨hret, -⟩⟩
    · exact pagesPastHead_of_deleted hown halign hn hrun hdel
    · exact absurd (deletePages_ret hrun) hret
  · intro hpast
    obtain ⟨d', hrun, hfreed, hdel⟩ := deletePages_deletes hown halign hn hpast
    exact ⟨0, d', hrun, hfreed, .inl ⟨rfl, hdel⟩⟩

end Range

/-- Two descriptors in one ring. -/
def Descs.pair : Descs :=
  { Descs.single with list := Descs.single.list.splice 0x1000 0x2000 }

theorem Descs.pair_hasRing : Descs.pair.HasRing [0x1000, 0x2000] :=
  Descs.HasRing.splice (Descs.single_hasRing (by decide)) (Descs.single_hasRing (by decide))
    (by simp)

/-- The second of two pages is deleted. -/
theorem listDelMap_iff_pair :
    DeletesRange ⟨0x1000, none⟩ 0x2000 0x1000 [0x1000, 0x2000] .pair := by
  refine (listDelMap_iff ⟨Descs.pair_hasRing, rfl, nofun⟩ (by decide) (by decide)).2 ?_
  intro page hpage
  obtain rfl : page = 0x2000 := List.mem_singleton.1 hpage
  refine ⟨?_, 0x2000, List.mem_cons_self, rfl⟩
  intro x hx
  obtain rfl : 0x1000 = x := by simpa using hx
  decide

/-- The only page of a ring is deleted, and `memory_map` still points to its descriptor. -/
theorem listDelMap_keeps_memoryMap :
    ¬ DeletesRange ⟨0x1000, none⟩ 0x1000 0x1000 [0x1000] .single := by
  rintro ⟨ret, d', hrun, -, ⟨-, found, rest, hfound, hperm, -, hmap⟩ | ⟨hret, -⟩⟩
  · have hone : found.length = 1 := by
      rw [← List.length_map, hfound]
      rfl
    have hrest : rest = [] := by
      have hlen := hperm.length_eq
      rw [List.length_append, hone] at hlen
      exact List.length_eq_zero_iff.1 (Nat.add_left_cancel hlen)
    subst hrest
    rcases hmap with hmem | ⟨-, hzero⟩
    · exact List.not_mem_nil hmem
    · exact absurd hzero (by decide)
  · rw [listDelMap_aligned (by decide) (by decide)] at hrun
    exact hret (deletePages_ret hrun)

end Dryadalis
