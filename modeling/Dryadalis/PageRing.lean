import Dryadalis.Lib.Exec
import Dryadalis.Lib.Ring
import Dryadalis.Kernel

/-!
# The ring of page descriptors

A binary and its interpreter each have a circular list of `mem_map_t`, one for each page.
`merge_address_space` makes one ring of the two, `get_mem_desc` looks for a page in the
ring, and `list_del_map` takes pages out of it.

All of them work on pointers in place, so the model does too: a `Desc` program runs on the
memory of the descriptors, and stops where the source would follow a null pointer or use a
descriptor that was freed.  `Descs.HasRing` is where the ring comes in, and the lemmas
that follow it lift the pointer programs to the operations of `Ring`.
-/

namespace Dryadalis

open Exec Ring

/-! ## The memory of the descriptors -/

/-- The memory of the descriptors, by pointer: the two fields of `list`, `addr`, and
whether it was given to `free`. -/
structure Descs where
  list : Links Word
  addr : Word → Word
  freed : Word → Bool

/-- Why a function on the descriptors does not return. -/
inductive DescStop where
  | null | freed | assertion | exit | diverge
  deriving DecidableEq, Repr

/-- A function on the descriptors. -/
abbrev Desc := EStateM DescStop Descs

/-- Every access to a descriptor. -/
def deref (x : Word) : Desc Unit := do
  if x = 0 then
    throw .null
  let d ← get
  if d.freed x then
    throw .freed

/-- `x->list.next` -/
def getNext (x : Word) : Desc Word := do
  deref x
  return (← get).list.next x

/-- `x->list.prev` -/
def getPrev (x : Word) : Desc Word := do
  deref x
  return (← get).list.prev x

/-- `x->addr` -/
def getAddr (x : Word) : Desc Word := do
  deref x
  return (← get).addr x

/-- `x->next = y` -/
def setNext (x y : Word) : Desc Unit := do
  deref x
  modify fun d => { d with list := { d.list with next := Function.update d.list.next x y } }

/-- `x->prev = y` -/
def setPrev (x y : Word) : Desc Unit := do
  deref x
  modify fun d => { d with list := { d.list with prev := Function.update d.list.prev x y } }

/-- `free` -/
def freeDesc (x : Word) : Desc Unit := do
  deref x
  modify fun d => { d with freed := Function.update d.freed x true }

/-! ## The functions of the source -/

/-- The fields of `mdata_binary_t` that the functions read: `memory_map`, and the one of
`interp` if there is an interpreter. -/
structure MapOwner where
  memoryMap : Word
  interp : Option Word

/-- `s_binary->memory_map ? s_binary->memory_map : s_binary->interp->memory_map` -/
def ringHead (s : MapOwner) : Desc Word :=
  if s.memoryMap ≠ 0 then
    return s.memoryMap
  else
    match s.interp with
    | some memoryMap => return memoryMap
    | none => throw .null

/-- As many steps as there are pointers: a loop that takes more does not end. -/
def POINTERS : Nat := 2 ^ 64

/-- The loop of `get_mem_desc`. -/
def searchRing (head page : Word) : Nat → Word → Desc (Option Word)
  | 0, _ => throw .diverge
  | n + 1, curr => do
    if (← getAddr curr) = page then
      return some curr
    let curr ← getNext curr
    if curr = head then
      return none
    searchRing head page n curr

/-- `get_mem_desc`.  `none` is the return value -1. -/
def getMemDesc (s : MapOwner) (addr : Word) : Desc (Option Word) := do
  let curr ← ringHead s
  if curr = 0 then
    throw .assertion
  searchRing curr (pageAlign addr) POINTERS curr

/-- `merge_address_space` -/
def mergeAddressSpace (s : MapOwner) : Desc Word := do
  match s.interp with
  | some interp =>
    let prevBinary ← getPrev s.memoryMap
    let prevInterp ← getPrev interp
    setPrev s.memoryMap prevInterp
    setNext prevInterp s.memoryMap
    setPrev interp prevBinary
    setNext prevBinary interp
    return s.memoryMap
  | none => return s.memoryMap

/-- The three lines of `list_del_map` that delete a descriptor. -/
def deleteDesc (x : Word) : Desc Unit := do
  setPrev (← getNext x) (← getPrev x)
  setNext (← getPrev x) (← getNext x)
  freeDesc x

/-- The loop of `list_del_map`, over the pages it asks for. -/
def deletePages (s : MapOwner) : List Word → Desc Int
  | [] => return 0
  | page :: pages => do
    match ← getMemDesc s page with
    | none => return 0
    | some x =>
      deleteDesc x
      deletePages s pages

/-- The addresses of the pages from `addr` on. -/
def pageAddrs (addr : Word) (n : Nat) : List Word :=
  (List.range n).map fun i => addr + BitVec.ofNat 64 (4096 * i)

/-- `list_del_map` -/
def listDelMap (s : MapOwner) (addr : Word) (size : BitVec 32) : Desc Int := do
  if size.toNat % 4096 ≠ 0 ∨ addr.toNat % 4096 ≠ 0 then
    throw .exit
  deletePages s (pageAddrs addr (size.toNat / 4096))

/-! ## Accesses to live descriptors -/

/-- The descriptor can be used. -/
def Descs.Live (d : Descs) (x : Word) : Prop := x ≠ 0 ∧ d.freed x = false

section Access

variable {d : Descs} {x y : Word}

theorem deref_live (h : d.Live x) : deref x d = .ok () d := by
  rw [deref, if_neg h.1]
  show (if d.freed x = true then throw DescStop.freed else pure PUnit.unit : Desc Unit) d = _
  rw [h.2]
  rfl

theorem getNext_live (h : d.Live x) : getNext x d = .ok (d.list.next x) d := by
  rw [getNext, bind_of_ok (deref_live h)]
  rfl

theorem getPrev_live (h : d.Live x) : getPrev x d = .ok (d.list.prev x) d := by
  rw [getPrev, bind_of_ok (deref_live h)]
  rfl

theorem getAddr_live (h : d.Live x) : getAddr x d = .ok (d.addr x) d := by
  rw [getAddr, bind_of_ok (deref_live h)]
  rfl

theorem setNext_live (h : d.Live x) : setNext x y d =
    .ok () { d with list := { d.list with next := Function.update d.list.next x y } } := by
  rw [setNext, bind_of_ok (deref_live h)]
  rfl

theorem setPrev_live (h : d.Live x) : setPrev x y d =
    .ok () { d with list := { d.list with prev := Function.update d.list.prev x y } } := by
  rw [setPrev, bind_of_ok (deref_live h)]
  rfl

theorem freeDesc_live (h : d.Live x) :
    freeDesc x d = .ok () { d with freed := Function.update d.freed x true } := by
  rw [freeDesc, bind_of_ok (deref_live h)]
  rfl

/-- The two stores that put `y` after `x`. -/
theorem join_bind {β : Type} (hx : d.Live x) (hy : d.Live y) (f : Unit → Desc β) :
    (setPrev y x >>= fun _ => setNext x y >>= f) d =
      f () { d with list := d.list.join x y } := by
  rw [bind_of_ok (setPrev_live hy)]
  exact bind_of_ok (setNext_live hx)

/-- A descriptor that was freed cannot be used. -/
theorem getAddr_freed (hx : x ≠ 0) (h : d.freed x = true) : getAddr x d = .error .freed d := by
  have hderef : deref x d = .error .freed d := by
    rw [deref, if_neg hx]
    show (if d.freed x = true then throw DescStop.freed else pure PUnit.unit : Desc Unit) d = _
    rw [h]
    rfl
  rw [getAddr, bind_of_error hderef]

end Access

/-! ## Rings of live descriptors -/

/-- The descriptors `xs` form a ring, and none of them was freed. -/
structure Descs.HasRing (d : Descs) (xs : List Word) : Prop where
  ring : IsRing d.list xs
  live : ∀ x ∈ xs, d.Live x

theorem length_le_POINTERS {xs : List Word} (h : xs.Nodup) : xs.length ≤ POINTERS := by
  have hnat : (xs.map BitVec.toFin).Nodup := h.map fun x y => BitVec.eq_of_toFin_eq
  have hcard := hnat.length_le_card
  rwa [List.length_map, Fintype.card_fin] at hcard

section Search

variable {s : MapOwner} {d : Descs} {h page : Word} {xs : List Word}

/-- One turn of the loop. -/
theorem searchRing_succ {c : Word} (hc : d.Live c) (n : Nat) :
    searchRing h page (n + 1) c d =
      if d.addr c = page then .ok (some c) d
      else if d.list.next c = h then .ok none d
      else searchRing h page n (d.list.next c) d := by
  rw [searchRing, bind_of_ok (getAddr_live hc)]
  split
  · rfl
  · rw [bind_of_ok (getNext_live hc)]
    split
    · rfl
    · rfl

/-- From a descriptor on, the loop looks through the rest of the ring. -/
theorem searchRing_suffix (hr : d.HasRing (h :: xs)) (ys : List Word) :
    ∀ {done : List Word} {c : Word} {n : Nat}, done ++ c :: ys = h :: xs → ys.length < n →
      searchRing h page n c d = .ok ((c :: ys).find? fun x => d.addr x = page) d := by
  induction ys with
  | nil =>
    intro done c n heq hn
    have hc : d.Live c := hr.live c (by rw [← heq]; simp)
    have hnext : d.list.next c = h := hr.ring.next_last (by rw [← heq]; simp)
    cases n with
    | zero => exact absurd hn (Nat.not_lt_zero _)
    | succ n =>
      rw [searchRing_succ hc, if_pos hnext, List.find?_cons]
      by_cases hp : d.addr c = page
      · rw [if_pos hp, decide_eq_true hp]
      · rw [if_neg hp, decide_eq_false hp, List.find?_nil]
  | cons y ys ih =>
    intro done c n heq hn
    have hc : d.Live c := hr.live c (by rw [← heq]; simp)
    have hring : IsRing d.list (done ++ c :: y :: ys) := heq ▸ hr.ring
    -- `y` is not the first descriptor of the ring.
    have hy : y ≠ h := by
      have hn := hr.ring.nodup
      cases done with
      | nil =>
        obtain ⟨rfl, rfl⟩ := List.cons.inj heq
        exact fun hyc => (List.nodup_cons.1 hn).1 (hyc ▸ List.mem_cons_self)
      | cons z done =>
        obtain ⟨rfl, rfl⟩ := List.cons.inj heq
        exact fun hyz => (List.nodup_cons.1 hn).1 (hyz ▸ by simp)
    cases n with
    | zero => exact absurd hn (Nat.not_lt_zero _)
    | succ n =>
      rw [searchRing_succ hc, hring.next_inner, if_neg hy, List.find?_cons]
      by_cases hp : d.addr c = page
      · rw [if_pos hp, decide_eq_true hp]
      · have hdone : (done ++ [c]) ++ y :: ys = h :: xs := by simpa using heq
        rw [if_neg hp, decide_eq_false hp]
        exact ih hdone (Nat.lt_of_succ_lt_succ hn)

theorem getMemDesc_of_head (hr : d.HasRing (h :: xs)) (hhead : ringHead s d = .ok h d)
    (addr : Word) :
    getMemDesc s addr d = .ok ((h :: xs).find? fun x => d.addr x = pageAlign addr) d := by
  rw [getMemDesc, bind_of_ok hhead, if_neg (hr.live h List.mem_cons_self).1]
  exact searchRing_suffix hr xs (List.nil_append _) (length_le_POINTERS hr.ring.nodup)

theorem ringHead_eq (hs : s.memoryMap = h) (hne : h ≠ 0) : ringHead s d = .ok h d := by
  rw [ringHead, hs, if_pos hne]
  rfl

/-- Without descriptors of the binary, the ring is the one of the interpreter. -/
theorem ringHead_interp {i : Word} (hs : s.memoryMap = 0) (hi : s.interp = some i) :
    ringHead s d = .ok i d := by
  rw [ringHead, if_neg (not_not_intro hs), hi]
  rfl

theorem ringHead_none (hs : s.memoryMap = 0) (hi : s.interp = none) :
    ringHead s d = .error .null d := by
  rw [ringHead, if_neg (not_not_intro hs), hi]
  rfl

/-- `get_mem_desc` returns, and finds the first descriptor of the page. -/
theorem getMemDesc_ring (hr : d.HasRing (h :: xs)) (hs : s.memoryMap = h) (addr : Word) :
    getMemDesc s addr d = .ok ((h :: xs).find? fun x => d.addr x = pageAlign addr) d :=
  getMemDesc_of_head hr (ringHead_eq hs (hr.live h List.mem_cons_self).1) addr

/-- It finds one exactly when there is one. -/
theorem getMemDesc_found (hr : d.HasRing (h :: xs)) (hs : s.memoryMap = h) (addr : Word) :
    (∃ x, getMemDesc s addr d = .ok (some x) d) ↔ ∃ x ∈ h :: xs, d.addr x = pageAlign addr := by
  rw [getMemDesc_ring hr hs]
  have hfind : ((h :: xs).find? fun x => d.addr x = pageAlign addr).isSome ↔
      ∃ x, x ∈ h :: xs ∧ decide (d.addr x = pageAlign addr) = true := List.find?_isSome
  simp only [decide_eq_true_eq] at hfind
  rw [← hfind, Option.isSome_iff_exists]
  simp only [EStateM.Result.ok.injEq, and_true]

end Search

/-! ## Merging -/

section Merge

variable {d : Descs} {b i : Word} {xs ys : List Word}

/-- The four stores of `merge_address_space` splice the two rings. -/
theorem mergeAddressSpace_eq (hx : d.HasRing (b :: xs)) (hy : d.HasRing (i :: ys)) :
    mergeAddressSpace ⟨b, some i⟩ d = .ok b { d with list := d.list.splice b i } := by
  have hb : d.Live b := hx.live b List.mem_cons_self
  have hi : d.Live i := hy.live i List.mem_cons_self
  have hp : d.Live (d.list.prev b) := hx.live _ (hx.ring.prev_mem List.mem_cons_self).1
  have hq : d.Live (d.list.prev i) := hy.live _ (hy.ring.prev_mem List.mem_cons_self).1
  unfold mergeAddressSpace
  simp only
  rw [bind_of_ok (getPrev_live hb), bind_of_ok (getPrev_live hi), join_bind hq hb]
  exact join_bind (d := { d with list := d.list.join (d.list.prev i) b }) hp hi _

theorem Descs.HasRing.splice (hx : d.HasRing (b :: xs)) (hy : d.HasRing (i :: ys))
    (hd : (b :: xs).Disjoint (i :: ys)) :
    Descs.HasRing { d with list := d.list.splice b i } (b :: xs ++ i :: ys) := by
  refine ⟨hx.ring.splice hy.ring hd, ?_⟩
  intro x h
  rcases List.mem_append.1 h with h | h
  · exact hx.live x h
  · exact hy.live x h

/-- What merging the ring of `b` with that of `i` is for. -/
structure Merged (b i : Word) (xs ys : List Word) (d d' : Descs) : Prop where
  addr : d'.addr = d.addr
  ring : d'.HasRing (b :: xs ++ i :: ys)
  forward : List.iterate d'.list.next b (b :: xs ++ i :: ys).length = b :: xs ++ i :: ys
  inverse : ∀ x ∈ b :: xs ++ i :: ys,
    d'.list.prev (d'.list.next x) = x ∧ d'.list.next (d'.list.prev x) = x
  lookup : ∀ addr, getMemDesc ⟨b, some i⟩ addr d' =
    .ok (((b :: xs).find? fun x => d.addr x = pageAlign addr).or
      ((i :: ys).find? fun x => d.addr x = pageAlign addr)) d'
  found : ∀ addr, (∃ x, getMemDesc ⟨b, some i⟩ addr d' = .ok (some x) d') ↔
    ∃ x ∈ b :: xs ++ i :: ys, d.addr x = pageAlign addr

/-- `merge_address_space` makes one ring of the two, the descriptors of the binary first,
and `get_mem_desc` ends and finds in it what was in either. -/
theorem mergeAddressSpace_merged (hx : d.HasRing (b :: xs)) (hy : d.HasRing (i :: ys))
    (hd : (b :: xs).Disjoint (i :: ys)) :
    ∃ d', mergeAddressSpace ⟨b, some i⟩ d = .ok b d' ∧ Merged b i xs ys d d' := by
  have hring := hx.splice hy hd
  have hlookup : ∀ addr, getMemDesc ⟨b, some i⟩ addr { d with list := d.list.splice b i } =
      .ok ((b :: xs ++ i :: ys).find? fun x => d.addr x = pageAlign addr) _ :=
    fun addr => getMemDesc_ring hring rfl addr
  refine ⟨_, mergeAddressSpace_eq hx hy, rfl, hring, hring.ring.iterate_next,
    fun x h => hring.ring.next_prev h, ?_, fun addr => getMemDesc_found hring rfl addr⟩
  intro addr
  rw [hlookup, List.find?_append]

end Merge

/-- Descriptors that are rings of one, each for the page at its own address. -/
def Descs.single : Descs :=
  { list := ⟨id, id⟩, addr := id, freed := fun _ => false }

theorem Descs.single_hasRing {x : Word} (hx : x ≠ 0) : Descs.single.HasRing [x] := by
  refine ⟨⟨List.nodup_singleton x, .singleton x, ?_⟩, ?_⟩
  · intro y hy z hz
    obtain rfl : x = y := by simpa using hy
    obtain rfl : x = z := by simpa using hz
    exact ⟨rfl, rfl⟩
  · intro y hy
    obtain rfl := List.mem_singleton.1 hy
    exact ⟨hx, rfl⟩

/-- Descriptors in rings of two, each for a page of its own. -/
def Descs.paired : Descs :=
  { list := ⟨fun x => x ^^^ 1, fun x => x ^^^ 1⟩, addr := fun x => x <<< 12
    freed := fun _ => false }

theorem Descs.paired_hasRing {x : Word} (hx : x ≠ 0) (hx' : x ^^^ 1 ≠ 0) (hne : x ≠ x ^^^ 1) :
    Descs.paired.HasRing [x, x ^^^ 1] := by
  have hback : x ^^^ 1 ^^^ 1 = x := by rw [BitVec.xor_assoc]; simp
  refine ⟨⟨by simpa using hne, by simp [Descs.paired, Ring.Links.Joined], ?_⟩, ?_⟩
  · intro y hy z hz
    obtain rfl : x ^^^ 1 = y := by simpa using hy
    obtain rfl : x = z := by simpa using hz
    exact ⟨hback, rfl⟩
  · intro y hy
    rcases List.mem_pair.1 hy with rfl | rfl
    · exact ⟨hx, rfl⟩
    · exact ⟨hx', rfl⟩

/-- Two rings of two descriptors. -/
theorem mergeAddressSpace_merged_paired :
    ∃ d', mergeAddressSpace ⟨0x1000, some 0x2000⟩ .paired = .ok 0x1000 d' ∧
      Merged 0x1000 0x2000 [0x1001] [0x2001] .paired d' :=
  mergeAddressSpace_merged (Descs.paired_hasRing (by decide) (by decide) (by decide))
    (Descs.paired_hasRing (by decide) (by decide) (by decide)) (by simp)

end Dryadalis
