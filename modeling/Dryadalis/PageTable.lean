import Dryadalis.PageDeletion

/-!
# The page table

A `mem_map_t` carries more than its links and its address: the size of the page, its
protections, and the flag `sync`.  `update_vprot` writes the last two, and `prot`, `is_w`
and their kin read the protections.

To their callers the descriptors are a map from pages to protections.  `PageMap` is that
map, with the operations of the source on it, and `PageTable.Holds` says that a ring of
descriptors holds it.  `TableOp.run_holds` is the step lemma, and `runAll_holds` the result
for every sequence of operations: each one returns what it returns on the map.

The map has to say what happens to a range that is not all there.  Both loops stop at the
first page that is missing, after they have done the pages before it, and only
`update_vprot` tells its caller.
-/

namespace Dryadalis

open Exec Ring

/-! ## Descriptors with their protections -/

/-- The memory of the descriptors, with the fields that describe the page. -/
structure PageTable extends Descs where
  size : Word → Word
  prot : Word → BitVec 32
  sync : Word → Bool

/-- A function on the descriptors and their fields. -/
abbrev Table := EStateM DescStop PageTable

/-- A function that uses the links and the addresses only. -/
def onDescs {α : Type} (x : Desc α) : Table α := fun t =>
  match x t.toDescs with
  | .ok a d => .ok a { t with toDescs := d }
  | .error e d => .error e { t with toDescs := d }

/-- `x->prot` -/
def getProtField (x : Word) : Table (BitVec 32) := do
  onDescs (deref x)
  return (← get).prot x

/-- `x->prot = p` -/
def setProtField (x : Word) (p : BitVec 32) : Table Unit := do
  onDescs (deref x)
  modify fun t => { t with prot := Function.update t.prot x p }

/-- `x->sync = true` -/
def setSync (x : Word) : Table Unit := do
  onDescs (deref x)
  modify fun t => { t with sync := Function.update t.sync x true }

/-! ## The functions of the source -/

/-- The loop of `update_vprot`, over the pages it asks for. -/
def updatePages (s : MapOwner) (newProt : BitVec 32) : List Word → Table Int
  | [] => return 0
  | page :: pages => do
    match ← onDescs (getMemDesc s page) with
    | none => return -1
    | some x =>
      setProtField x newProt
      setSync x
      updatePages s newProt pages

/-- `update_vprot` -/
def updateVprot (s : MapOwner) (addr size : Word) (newProt : BitVec 32) : Table Int := do
  if size.toNat % 4096 ≠ 0 ∨ addr.toNat % 4096 ≠ 0 then
    return -1
  updatePages s newProt (pageAddrs addr (size.toNat / 4096))

/-- The body of the functions that look at the protections of an address: a value for a
page that has no descriptor, and what the protections of a descriptor give. -/
def lookProt {α : Type} (s : MapOwner) (addr : Word) (missing : α) (f : BitVec 32 → α) :
    Table α := do
  match ← onDescs (getMemDesc s addr) with
  | none => return missing
  | some x => return f (← getProtField x)

def PROT_READ : BitVec 32 := 1
def PROT_WRITE : BitVec 32 := 2
def PROT_EXEC : BitVec 32 := 4

/-- `prot` -/
def protOf (s : MapOwner) (addr : Word) : Table Int :=
  lookProt s (pageAlign addr) (-1) fun p => p.toInt

/-- `is_w` -/
def isW (s : MapOwner) (addr : Word) : Table Int :=
  lookProt s addr 0 fun p => (p &&& PROT_WRITE).toInt

/-- `is_r` -/
def isR (s : MapOwner) (addr : Word) : Table Int :=
  lookProt s addr 0 fun p => (p &&& PROT_READ).toInt

/-- `is_x` -/
def isX (s : MapOwner) (addr : Word) : Table Int :=
  lookProt s addr 0 fun p => (p &&& PROT_EXEC).toInt

/-- `is_ro` -/
def isRo (s : MapOwner) (addr : Word) : Table Bool :=
  lookProt s addr false fun p => p == PROT_READ

/-- `is_rwx`.  The mask has `PROT_READ` twice and no `PROT_WRITE`. -/
def isRwx (s : MapOwner) (addr : Word) : Table Bool :=
  lookProt s addr false fun p => p &&& (PROT_READ ||| PROT_EXEC ||| PROT_READ) != 0

/-- `is_rx` -/
def isRx (s : MapOwner) (addr : Word) : Table Bool :=
  lookProt s addr false fun p => p &&& (PROT_EXEC ||| PROT_READ) != 0

/-! ## The map -/

/-- What is known of a page. -/
structure PageInfo where
  prot : BitVec 32
  sync : Bool

/-- The pages that are known, by their addresses. -/
abbrev PageMap := Word → Option PageInfo

/-- The pages of a range in front of the first one that is missing. -/
def PageMap.known (m : PageMap) (pages : List Word) : List Word :=
  pages.takeWhile fun page => (m page).isSome

/-- Give the pages new protections, up to the first one that is missing. -/
def PageMap.protect (m : PageMap) (p : BitVec 32) (pages : List Word) : Int × PageMap :=
  (if m.known pages = pages then 0 else -1,
    fun page => if page ∈ m.known pages then some ⟨p, true⟩ else m page)

/-- Forget the pages, up to the first one that is missing. -/
def PageMap.delete (m : PageMap) (pages : List Word) : PageMap :=
  fun page => if page ∈ m.known pages then none else m page

/-- The protections of the page of an address. -/
def PageMap.look {α : Type} (m : PageMap) (addr : Word) (missing : α) (f : BitVec 32 → α) : α :=
  ((m (pageAlign addr)).map fun i => f i.prot).getD missing

section Known

variable {m : PageMap} {page : Word} {pages : List Word}

@[simp] theorem PageMap.known_nil (m : PageMap) : m.known [] = [] := rfl

theorem PageMap.known_cons (h : (m page).isSome = true) :
    m.known (page :: pages) = page :: m.known pages :=
  List.takeWhile_cons_of_pos h

theorem PageMap.known_cons_missing (h : (m page).isSome = false) :
    m.known (page :: pages) = [] := by
  rw [PageMap.known, List.takeWhile_cons_of_neg]
  rw [h]
  exact Bool.false_ne_true

theorem PageMap.known_congr {m' : PageMap}
    (h : ∀ page ∈ pages, (m page).isSome = (m' page).isSome) : m.known pages = m'.known pages := by
  induction pages with
  | nil => rfl
  | cons page pages ih =>
    have hrest := ih fun page hpage => h page (List.mem_cons_of_mem _ hpage)
    have hpage := h page List.mem_cons_self
    cases hm : (m page).isSome with
    | true => rw [known_cons hm, known_cons (hpage.symm.trans hm), hrest]
    | false => rw [known_cons_missing hm, known_cons_missing (hpage.symm.trans hm)]

theorem PageMap.protect_missing (h : (m page).isSome = false) (p : BitVec 32) :
    m.protect p (page :: pages) = (-1, m) := by
  simp [PageMap.protect, known_cons_missing h]

theorem PageMap.delete_missing (h : (m page).isSome = false) : m.delete (page :: pages) = m := by
  funext page'
  simp [PageMap.delete, known_cons_missing h]

/-- A page that has new protections is as known as before. -/
theorem PageMap.protect_cons (h : (m page).isSome = true) (p : BitVec 32) :
    m.protect p (page :: pages) =
      PageMap.protect (Function.update m page (some ⟨p, true⟩)) p pages := by
  have hknown : PageMap.known (Function.update m page (some ⟨p, true⟩)) pages = m.known pages := by
    refine known_congr fun page' _ => ?_
    by_cases heq : page' = page
    · rw [heq, Function.update_self, h, Option.isSome_some]
    · rw [Function.update_of_ne heq]
  simp only [PageMap.protect, hknown, PageMap.known_cons h, List.cons.injEq, true_and,
    List.mem_cons]
  refine congrArg (Prod.mk _) (funext fun page' => ?_)
  by_cases heq : page' = page
  · simp [heq]
  · simp [heq]

/-- A page that is forgotten is not asked for again. -/
theorem PageMap.delete_cons (h : (m page).isSome = true) (hpage : page ∉ pages) :
    m.delete (page :: pages) = PageMap.delete (Function.update m page none) pages := by
  have hknown : PageMap.known (Function.update m page none) pages = m.known pages := by
    refine known_congr fun page' hpage' => ?_
    have hne : page' ≠ page := fun heq => hpage (heq ▸ hpage')
    rw [Function.update_of_ne hne]
  funext page'
  simp only [PageMap.delete, hknown, PageMap.known_cons h, List.mem_cons]
  by_cases heq : page' = page
  · simp [heq]
  · simp [heq]

end Known

/-! ## A ring that holds a map -/

/-- What a descriptor says of its page. -/
def PageTable.info (t : PageTable) (x : Word) : PageInfo := ⟨t.prot x, t.sync x⟩

/-- The descriptors `h :: xs` are a ring that `memory_map` points to, one for each page, and
they say of the pages what the map does. -/
structure PageTable.HoldsAt (t : PageTable) (s : MapOwner) (m : PageMap) (h : Word)
    (xs : List Word) : Prop where
  ring : t.HasRing (h :: xs)
  owner : s.memoryMap = h
  pages : ((h :: xs).map t.addr).Nodup
  info : ∀ page, m page = ((h :: xs).find? fun x => t.addr x = page).map t.info

/-- An element that does not match makes no difference to a search. -/
theorem find?_skip {α : Type} {p : α → Bool} {x : α} (h : p x = false) (u v : List α) :
    (u ++ x :: v).find? p = (u ++ v).find? p := by
  rw [List.find?_append, List.find?_append, List.find?_cons, h]

section Access

variable {t : PageTable} {x : Word}

theorem onDescs_ok {α : Type} {f : Desc α} {a : α} {d : Descs} (h : f t.toDescs = .ok a d) :
    onDescs f t = .ok a { t with toDescs := d } := by
  rw [onDescs, h]

theorem getProtField_live (h : t.Live x) : getProtField x t = .ok (t.prot x) t := by
  rw [getProtField, bind_of_ok (onDescs_ok (deref_live h))]
  rfl

theorem setProtField_live (h : t.Live x) (p : BitVec 32) :
    setProtField x p t = .ok () { t with prot := Function.update t.prot x p } := by
  rw [setProtField, bind_of_ok (onDescs_ok (deref_live h))]
  rfl

theorem setSync_live (h : t.Live x) :
    setSync x t = .ok () { t with sync := Function.update t.sync x true } := by
  rw [setSync, bind_of_ok (onDescs_ok (deref_live h))]
  rfl

end Access

namespace PageTable.HoldsAt

variable {t : PageTable} {s : MapOwner} {m : PageMap} {h x page addr : Word} {xs u v : List Word}

/-- Two descriptors of the ring with the same page are the same. -/
theorem eq_of_addr (ht : t.HoldsAt s m h xs) {y : Word} (hx : x ∈ h :: xs) (hy : y ∈ h :: xs)
    (heq : t.addr x = t.addr y) : x = y :=
  List.inj_on_of_nodup_map ht.pages hx hy heq

/-- A page that is known has a descriptor, which is found. -/
theorem find (ht : t.HoldsAt s m h xs) (hpage : (m page).isSome) :
    ∃ x ∈ h :: xs, t.addr x = page ∧ ((h :: xs).find? fun x => t.addr x = page) = some x := by
  rw [ht.info page, Option.isSome_map] at hpage
  obtain ⟨x, hx⟩ := Option.isSome_iff_exists.1 hpage
  exact ⟨x, List.mem_of_find?_eq_some hx, by simpa using List.find?_some hx, hx⟩

theorem find_none (ht : t.HoldsAt s m h xs) (hpage : (m page).isSome = false) :
    ((h :: xs).find? fun x => t.addr x = page) = none := by
  rw [ht.info page, Option.isSome_map] at hpage
  exact Option.isNone_iff_eq_none.1 (by simpa using hpage)

theorem getMemDesc (ht : t.HoldsAt s m h xs) (addr : Word) :
    onDescs (getMemDesc s addr) t =
      .ok ((h :: xs).find? fun x => t.addr x = pageAlign addr) t :=
  onDescs_ok (getMemDesc_ring ht.ring ht.owner addr)

/-- What is read of an address is what the map says of its page. -/
theorem lookProt {α : Type} (ht : t.HoldsAt s m h xs) (addr : Word) (missing : α)
    (f : BitVec 32 → α) : lookProt s addr missing f t = .ok (m.look addr missing f) t := by
  rw [Dryadalis.lookProt, bind_of_ok (ht.getMemDesc addr), PageMap.look, ht.info]
  cases hx : (h :: xs).find? fun x => t.addr x = pageAlign addr with
  | none => rfl
  | some x =>
    have hlive : t.Live x := ht.ring.live x (List.mem_of_find?_eq_some hx)
    simp only
    rw [bind_of_ok (getProtField_live hlive)]
    rfl

/-! ### One page -/

/-- A page gets new protections. -/
theorem update (ht : t.HoldsAt s m h xs) (hx : x ∈ h :: xs) (p : BitVec 32) :
    ({ t with prot := Function.update t.prot x p
              sync := Function.update t.sync x true } : PageTable).HoldsAt s
      (Function.update m (t.addr x) (some ⟨p, true⟩)) h xs := by
  refine ⟨ht.ring, ht.owner, ht.pages, fun page => ?_⟩
  have hsome : ((h :: xs).find? fun y => t.addr y = page) = some x ↔ t.addr x = page := by
    constructor
    · intro hfind
      simpa using List.find?_some hfind
    · rintro rfl
      obtain ⟨y, hy⟩ := Option.isSome_iff_exists.1
        (List.find?_isSome (p := fun y => t.addr y = t.addr x).2 ⟨x, hx, by simp⟩)
      have haddr : t.addr y = t.addr x := by simpa using List.find?_some hy
      rw [hy, ht.eq_of_addr (List.mem_of_find?_eq_some hy) hx haddr]
  by_cases hpage : t.addr x = page
  · subst hpage
    rw [Function.update_self]
    show some _ = (((h :: xs).find? fun y => t.addr y = t.addr x).map _)
    simp only [hsome.2 rfl, Option.map_some, PageTable.info, Function.update_self]
  · rw [Function.update_of_ne (Ne.symm hpage), ht.info page]
    show _ = (((h :: xs).find? fun y => t.addr y = page).map _)
    cases hy : (h :: xs).find? fun y => t.addr y = page with
    | none => rfl
    | some y =>
      have hne : y ≠ x := by
        rintro rfl
        exact hpage (hsome.1 hy)
      simp only [Option.map_some, PageTable.info, Function.update_of_ne hne]

/-- A page other than the first is forgotten. -/
theorem without (ht : t.HoldsAt s m h (u ++ x :: v)) :
    ({ t with toDescs := t.toDescs.without x } : PageTable).HoldsAt s
      (Function.update m (t.addr x) none) h (u ++ v) := by
  have hperm : ((h :: u ++ x :: v).map t.addr).Perm (t.addr x :: (h :: u ++ v).map t.addr) := by
    simpa using (@List.perm_middle _ x (h :: u) v).map t.addr
  obtain ⟨hx, hnodup⟩ := List.nodup_cons.1 (hperm.nodup_iff.1 ht.pages)
  refine ⟨Descs.HasRing.without ht.ring, ht.owner, hnodup, fun page => ?_⟩
  by_cases hpage : page = t.addr x
  · subst hpage
    rw [Function.update_self]
    symm
    rw [Option.map_eq_none_iff, List.find?_eq_none]
    intro y hy heq
    exact hx (List.mem_map.2 ⟨y, hy, of_decide_eq_true heq⟩)
  · have hskip : ((h :: u ++ x :: v).find? fun y => t.addr y = page) =
        (h :: u ++ v).find? fun y => t.addr y = page :=
      find?_skip (p := fun y => t.addr y = page) (decide_eq_false (Ne.symm hpage)) (h :: u) v
    rw [Function.update_of_ne hpage, ht.info page]
    exact congrArg _ hskip

end PageTable.HoldsAt

/-- A ring of descriptors, the first of them for the page `first`, holds the map. -/
def PageTable.Holds (t : PageTable) (s : MapOwner) (m : PageMap) (first : Word) : Prop :=
  ∃ h xs, t.HoldsAt s m h xs ∧ t.addr h = first

/-! ## The loops -/

section Loops

variable {t : PageTable} {s : MapOwner} {m : PageMap} {first addr : Word} {pages : List Word}

theorem PageTable.Holds.lookProt {α : Type} (ht : t.Holds s m first) (addr : Word) (missing : α)
    (f : BitVec 32 → α) : lookProt s addr missing f t = .ok (m.look addr missing f) t := by
  obtain ⟨h, xs, ht, -⟩ := ht
  exact ht.lookProt addr missing f

/-- The loop of `update_vprot` does to the ring what it does to the map. -/
theorem updatePages_holds (ht : t.Holds s m first) (p : BitVec 32)
    (halign : ∀ page ∈ pages, pageAlign page = page) :
    ∃ t', updatePages s p pages t = .ok (m.protect p pages).1 t' ∧
      t'.Holds s (m.protect p pages).2 first := by
  induction pages generalizing t m with
  | nil => exact ⟨t, rfl, ht⟩
  | cons page pages ih =>
    obtain ⟨h, xs, ht, hfirst⟩ := ht
    have hfind := ht.getMemDesc page
    rw [halign page List.mem_cons_self] at hfind
    rw [updatePages]
    cases hpage : (m page).isSome with
    | false =>
      rw [ht.find_none hpage] at hfind
      rw [PageMap.protect_missing hpage]
      exact ⟨t, bind_of_ok hfind, h, xs, ht, hfirst⟩
    | true =>
      rw [PageMap.protect_cons hpage]
      obtain ⟨x, hx, rfl, hget⟩ := ht.find hpage
      have hlive : t.Live x := ht.ring.live x hx
      rw [hget] at hfind
      obtain ⟨t', hrun, ht'⟩ := ih ⟨h, xs, ht.update hx p, hfirst⟩
        fun page hpage => halign page (List.mem_cons_of_mem _ hpage)
      refine ⟨t', ?_, ht'⟩
      rw [bind_of_ok hfind]
      simp only
      rw [bind_of_ok (setProtField_live hlive p)]
      have hsync := setSync_live (t := { t with prot := Function.update t.prot x p }) hlive
      exact (bind_of_ok hsync).trans hrun

/-- The loop of `list_del_map` does to the ring what it does to the map, when it is not
asked for the page of the first descriptor. -/
theorem deletePages_holds (ht : t.Holds s m first)
    (halign : ∀ page ∈ pages, pageAlign page = page) (hn : pages.Nodup) (hfirst : first ∉ pages) :
    ∃ t', onDescs (deletePages s pages) t = .ok 0 t' ∧ t'.Holds s (m.delete pages) first := by
  induction pages generalizing t m with
  | nil => exact ⟨t, rfl, ht⟩
  | cons page pages ih =>
    obtain ⟨hne, hrest⟩ := not_or.1 (mt List.mem_cons.2 hfirst)
    obtain ⟨h, xs, ht, rfl⟩ := ht
    have hget := getMemDesc_ring ht.ring ht.owner page
    rw [halign page List.mem_cons_self] at hget
    obtain ⟨hpages, hnodup⟩ := List.nodup_cons.1 hn
    cases hpage : (m page).isSome with
    | false =>
      rw [ht.find_none hpage] at hget
      rw [PageMap.delete_missing hpage]
      refine ⟨t, onDescs_ok ?_, h, xs, ht, rfl⟩
      rw [deletePages, bind_of_ok hget]
      rfl
    | true =>
      rw [PageMap.delete_cons hpage hpages]
      obtain ⟨x, hx, rfl, hfind⟩ := ht.find hpage
      have hxs : x ∈ xs := (List.mem_cons.1 hx).resolve_left fun heq => hne (heq ▸ rfl)
      obtain ⟨u, v, rfl⟩ := List.append_of_mem hxs
      rw [hfind] at hget
      have hdel := deleteDesc_ring ht.ring hx
      obtain ⟨t', hrun, ht'⟩ := ih ⟨h, u ++ v, ht.without, rfl⟩
        (fun page hpage => halign page (List.mem_cons_of_mem _ hpage)) hnodup hrest
      refine ⟨t', ?_, ht'⟩
      have hstep : deletePages s (t.addr x :: pages) t.toDescs =
          deletePages s pages (t.toDescs.without x) := deletePages_cons hget hdel
      rw [onDescs, hstep]
      exact hrun

end Loops

/-! ## Operations -/

/-- What the callers do with the table. -/
inductive TableOp where
  | update (addr size : Word) (newProt : BitVec 32)
  | delete (addr : Word) (size : BitVec 32)
  | prot (addr : Word)
  | isW (addr : Word)
  | isR (addr : Word)
  | isX (addr : Word)
  | isRo (addr : Word)
  | isRwx (addr : Word)
  | isRx (addr : Word)

/-- A `_Bool` as an `int`. -/
def boolInt (b : Bool) : Int := if b then 1 else 0

/-- The call of the source. -/
def TableOp.run (s : MapOwner) : TableOp → Table Int
  | .update addr size newProt => updateVprot s addr size newProt
  | .delete addr size => onDescs (listDelMap s addr size)
  | .prot addr => protOf s addr
  | .isW addr => Dryadalis.isW s addr
  | .isR addr => Dryadalis.isR s addr
  | .isX addr => Dryadalis.isX s addr
  | .isRo addr => boolInt <$> Dryadalis.isRo s addr
  | .isRwx addr => boolInt <$> Dryadalis.isRwx s addr
  | .isRx addr => boolInt <$> Dryadalis.isRx s addr

/-- What it returns and does on the map. -/
def TableOp.apply (m : PageMap) : TableOp → Int × PageMap
  | .update addr size newProt =>
    if size.toNat % 4096 ≠ 0 ∨ addr.toNat % 4096 ≠ 0 then (-1, m)
    else m.protect newProt (pageAddrs addr (size.toNat / 4096))
  | .delete addr size => (0, m.delete (pageAddrs addr (size.toNat / 4096)))
  | .prot addr => (m.look addr (-1) fun p => p.toInt, m)
  | .isW addr => (m.look addr 0 fun p => (p &&& PROT_WRITE).toInt, m)
  | .isR addr => (m.look addr 0 fun p => (p &&& PROT_READ).toInt, m)
  | .isX addr => (m.look addr 0 fun p => (p &&& PROT_EXEC).toInt, m)
  | .isRo addr => (boolInt (m.look addr false fun p => p == PROT_READ), m)
  | .isRwx addr | .isRx addr =>
    (boolInt (m.look addr false fun p => p &&& (PROT_READ ||| PROT_EXEC) != 0), m)

/-- A deletion is of whole pages, and not of the page of the first descriptor. -/
def TableOp.Allowed (first : Word) : TableOp → Prop
  | .delete addr size => size.toNat % 4096 = 0 ∧ addr.toNat % 4096 = 0 ∧
      first ∉ pageAddrs addr (size.toNat / 4096)
  | _ => True

/-- One call after the other, with their results. -/
def runAll (s : MapOwner) : List TableOp → Table (List Int)
  | [] => return []
  | op :: ops => do
    let r ← op.run s
    let rs ← runAll s ops
    return r :: rs

/-- The same on the map. -/
def PageMap.applyAll (m : PageMap) : List TableOp → List Int × PageMap
  | [] => ([], m)
  | op :: ops =>
    let rest := PageMap.applyAll (op.apply m).2 ops
    ((op.apply m).1 :: rest.1, rest.2)

section Ops

variable {t : PageTable} {s : MapOwner} {m : PageMap} {first : Word}

/-- Every operation returns what it returns on the map, and leaves a ring that holds what it
makes of the map. -/
theorem TableOp.run_holds (ht : t.Holds s m first) {op : TableOp} (allowed : op.Allowed first) :
    ∃ t', op.run s t = .ok (op.apply m).1 t' ∧ t'.Holds s (op.apply m).2 first := by
  have hbool : ∀ (f : Table Bool) (b : Bool), f t = .ok b t →
      (boolInt <$> f) t = .ok (boolInt b) t := by
    intro f b hf
    rw [map_eq_pure_bind, bind_of_ok hf]
    rfl
  cases op with
  | update addr size newProt =>
    rw [TableOp.run, TableOp.apply, updateVprot]
    split
    · exact ⟨t, rfl, ht⟩
    · rename_i haligned
      exact updatePages_holds ht newProt (pageAddrs_aligned (by omega))
  | delete addr size =>
    obtain ⟨hsize, haddr, hfirst⟩ := allowed
    rw [TableOp.run, TableOp.apply, listDelMap_aligned hsize haddr]
    have hsmall := size.isLt
    exact deletePages_holds ht (pageAddrs_aligned haddr) (pageAddrs_nodup addr (by omega)) hfirst
  | prot addr =>
    have haligned : (pageAlign addr).toNat % 4096 = 0 := by
      rw [pageAlign_toNat]
      omega
    have hlook := ht.lookProt (pageAlign addr) (-1) fun p => p.toInt
    rw [PageMap.look, pageAlign_of_aligned haligned] at hlook
    exact ⟨t, hlook, ht⟩
  | isW addr => exact ⟨t, ht.lookProt addr _ _, ht⟩
  | isR addr => exact ⟨t, ht.lookProt addr _ _, ht⟩
  | isX addr => exact ⟨t, ht.lookProt addr _ _, ht⟩
  | isRo addr => exact ⟨t, hbool _ _ (ht.lookProt addr _ _), ht⟩
  | isRwx addr => exact ⟨t, hbool _ _ (ht.lookProt addr _ _), ht⟩
  | isRx addr => exact ⟨t, hbool _ _ (ht.lookProt addr _ _), ht⟩

/-- Whatever the callers do with the table, every call returns what it returns on the map. -/
theorem runAll_holds {ops : List TableOp} (ht : t.Holds s m first)
    (allowed : ∀ op ∈ ops, op.Allowed first) :
    ∃ t', runAll s ops t = .ok (m.applyAll ops).1 t' ∧ t'.Holds s (m.applyAll ops).2 first := by
  induction ops generalizing t m with
  | nil => exact ⟨t, rfl, ht⟩
  | cons op ops ih =>
    obtain ⟨t₁, hrun, ht₁⟩ := TableOp.run_holds ht (allowed op List.mem_cons_self)
    obtain ⟨t₂, hrest, ht₂⟩ := ih ht₁ fun op hop => allowed op (List.mem_cons_of_mem _ hop)
    refine ⟨t₂, ?_, ht₂⟩
    rw [runAll, bind_of_ok hrun, bind_of_ok hrest]
    rfl

/-- Two rings with no page in common are merged into a ring that holds both maps. -/
theorem PageTable.HoldsAt.merge {m' : PageMap} {b i : Word} {xs ys : List Word}
    (hx : t.HoldsAt ⟨b, some i⟩ m b xs) (hy : t.HoldsAt ⟨i, none⟩ m' i ys)
    (hapart : ∀ page, (m page).isSome → (m' page).isSome = false) :
    ∃ t', onDescs (mergeAddressSpace ⟨b, some i⟩) t = .ok b t' ∧
      t'.HoldsAt ⟨b, some i⟩ (fun page => (m page).or (m' page)) b (xs ++ i :: ys) := by
  have hknown : ∀ {x}, x ∈ b :: xs → (m (t.addr x)).isSome := by
    intro x hmem
    rw [hx.info, Option.isSome_map, List.find?_isSome]
    exact ⟨x, hmem, by simp⟩
  have hknown' : ∀ {x}, x ∈ i :: ys → (m' (t.addr x)).isSome := by
    intro x hmem
    rw [hy.info, Option.isSome_map, List.find?_isSome]
    exact ⟨x, hmem, by simp⟩
  have hpages : ∀ {x y}, x ∈ b :: xs → y ∈ i :: ys → t.addr x ≠ t.addr y := by
    intro x y hmem hmem' heq
    have hmissing := hapart _ (hknown hmem)
    rw [heq, hknown' hmem'] at hmissing
    cases hmissing
  have hdisjoint : (b :: xs).Disjoint (i :: ys) := fun x hmem hmem' => hpages hmem hmem' rfl
  have hrun := onDescs_ok (mergeAddressSpace_eq hx.ring hy.ring)
  refine ⟨_, hrun, hx.ring.splice hy.ring hdisjoint, rfl, ?_, fun page => ?_⟩
  · show ((b :: xs ++ i :: ys).map t.addr).Nodup
    rw [List.map_append, List.nodup_append]
    refine ⟨hx.pages, hy.pages, ?_⟩
    intro p hp q hq
    obtain ⟨x, hmem, rfl⟩ := List.mem_map.1 hp
    obtain ⟨y, hmem', rfl⟩ := List.mem_map.1 hq
    exact hpages hmem hmem'
  · have hfind : ((b :: xs ++ i :: ys).find? fun x => t.addr x = page) =
        ((b :: xs).find? fun x => t.addr x = page).or
          ((i :: ys).find? fun x => t.addr x = page) := List.find?_append
    have hmap := congrArg (Option.map t.info) hfind
    rw [Option.map_or, ← hx.info, ← hy.info] at hmap
    exact hmap.symm

/-- The page table of a binary and its interpreter, after `merge_address_space`: whatever
the callers do with it, every call returns what it returns on the union of the two maps,
and the ring holds what the calls make of it. -/
theorem mergedTable_refines {m' : PageMap} {b i : Word} {xs ys : List Word} {ops : List TableOp}
    (hx : t.HoldsAt ⟨b, some i⟩ m b xs) (hy : t.HoldsAt ⟨i, none⟩ m' i ys)
    (hapart : ∀ page, (m page).isSome → (m' page).isSome = false)
    (allowed : ∀ op ∈ ops, op.Allowed (t.addr b)) :
    ∃ t₁ t', onDescs (mergeAddressSpace ⟨b, some i⟩) t = .ok b t₁ ∧
      runAll ⟨b, some i⟩ ops t₁ =
        .ok (PageMap.applyAll (fun page => (m page).or (m' page)) ops).1 t' ∧
      t'.Holds ⟨b, some i⟩ (PageMap.applyAll (fun page => (m page).or (m' page)) ops).2
        (t.addr b) := by
  obtain ⟨t₁, hmerge, hheld⟩ := hx.merge hy hapart
  have haddr : t₁.addr = t.addr := by
    have hrun := onDescs_ok (mergeAddressSpace_eq hx.ring hy.ring)
    cases hrun.symm.trans hmerge
    rfl
  obtain ⟨t', hrun, ht'⟩ := runAll_holds ⟨b, _, hheld, congrFun haddr b⟩ allowed
  exact ⟨t₁, t', hmerge, hrun, ht'⟩

end Ops

/-- Pages that can be read, each with a ring of its own. -/
def PageTable.single : PageTable :=
  { Descs.single with size := fun _ => PAGE_SZ, prot := fun _ => PROT_READ, sync := fun _ => false }

/-- The map of one of them. -/
def PageMap.single (x : Word) : PageMap :=
  fun page => if page = x then some ⟨PROT_READ, false⟩ else none

theorem PageTable.single_holdsAt {x : Word} (hx : x ≠ 0) {interp : Option Word} :
    PageTable.single.HoldsAt ⟨x, interp⟩ (.single x) x [] := by
  refine ⟨Descs.single_hasRing hx, rfl, List.nodup_singleton _, fun page => ?_⟩
  by_cases heq : page = x
  · subst heq
    simp [PageMap.single, PageTable.single, Descs.single, PageTable.info]
  · have hne : ¬ x = page := Ne.symm heq
    simp [PageMap.single, PageTable.single, Descs.single, heq, hne]

/-- The second of two pages can be written, and is forgotten then. -/
theorem mergedTable_refines_pair :
    ∃ t₁ t', onDescs (mergeAddressSpace ⟨0x1000, some 0x2000⟩) .single = .ok 0x1000 t₁ ∧
      runAll ⟨0x1000, some 0x2000⟩
          [.update 0x2000 0x1000 3, .isW 0x2abc, .delete 0x2000 0x1000, .isW 0x2abc, .isRwx 0x1000]
          t₁ = .ok [0, 2, 0, 0, 1] t' ∧
      t'.Holds ⟨0x1000, some 0x2000⟩
        (PageMap.applyAll (fun page => (PageMap.single 0x1000 page).or (PageMap.single 0x2000 page))
          [.update 0x2000 0x1000 3, .isW 0x2abc, .delete 0x2000 0x1000, .isW 0x2abc,
            .isRwx 0x1000]).2 0x1000 := by
  have hapart : ∀ page, (PageMap.single 0x1000 page).isSome →
      (PageMap.single 0x2000 page).isSome = false := by
    intro page hpage
    obtain rfl : page = 0x1000 := by simpa [PageMap.single] using hpage
    decide
  have hresults : (PageMap.applyAll
      (fun page => (PageMap.single 0x1000 page).or (PageMap.single 0x2000 page))
      [.update 0x2000 0x1000 3, .isW 0x2abc, .delete 0x2000 0x1000, .isW 0x2abc,
        .isRwx 0x1000]).1 = [0, 2, 0, 0, 1] := by decide
  rw [← hresults]
  refine mergedTable_refines (PageTable.single_holdsAt (by decide))
    (PageTable.single_holdsAt (by decide)) hapart ?_
  intro op hop
  fin_cases hop
  · trivial
  · trivial
  · exact ⟨by decide, by decide, by decide⟩
  · trivial
  · trivial

end Dryadalis
