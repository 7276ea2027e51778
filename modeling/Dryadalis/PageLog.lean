import Dryadalis.PageTable

/-!
# Printing the ring and giving it back

`log_map` prints one line for each run of pages that follow each other and have the same
protections, and `free_memory_map` gives every descriptor to `free`.  Both go once around
the ring.

`log_map` prints a line when a run ends, and looks for the end of a run between a
descriptor and the next one.  After the last descriptor the next one is the first, so a
last run that the first page would continue is not printed.  `logMap_lines` says what is
printed: the runs of `splitBy`, without the last one in that case.
-/

namespace Dryadalis

open Exec Ring

/-! ## The functions of the source -/

/-- The variables `g_addr`, `g_prot` and `g_size` of `log_map`. -/
structure LogGroup where
  addr : Word
  prot : BitVec 32
  size : Word

/-- A line of `log_map`. -/
structure LogLine where
  addr : Word
  last : Word
  size : Word
  prot : BitVec 32
  deriving DecidableEq

/-- The line for a group. -/
def LogGroup.line (g : LogGroup) : LogLine := ⟨g.addr, g.addr + g.size - 1, g.size, g.prot⟩

/-- The fields of a descriptor that `log_map` reads. -/
def getFields (x : Word) : Table LogGroup := do
  onDescs (deref x)
  let t ← get
  return ⟨t.addr x, t.prot x, t.size x⟩

/-- The loop of `log_map`. -/
def logLoop (head : Word) : Nat → Word → LogGroup → Table (List LogLine)
  | 0, _, _ => throw .diverge
  | n + 1, curr, g => do
    let c ← getFields curr
    let g := if g.size = PAGE_SZ then c else g
    let next ← onDescs (getNext curr)
    let d ← getFields next
    let joined := decide (c.addr + c.size = d.addr ∧ c.prot = d.prot)
    let lines := if joined then [] else [g.line]
    let size := if joined then g.size + PAGE_SZ else c.size
    if next = head then
      return lines
    return lines ++ (← logLoop head n next { g with size })

/-- `log_map` -/
def logMap (memoryMap : Word) : Table (List LogLine) := do
  let g ← getFields memoryMap
  logLoop memoryMap POINTERS memoryMap g

/-- The loop of `free_memory_map`. -/
def freeRing (head : Word) : Nat → Word → Desc Unit
  | 0, _ => throw .diverge
  | n + 1, curr => do
    let next ← getNext curr
    freeDesc curr
    if next = head then
      return
    freeRing head n next

/-- `free_memory_map` -/
def freeMemoryMap (memoryMap : Word) : Desc Int := do
  if memoryMap = 0 then
    throw .assertion
  freeRing memoryMap POINTERS memoryMap
  return 0

/-! ## Going around the ring -/

section Around

variable {d : Descs} {h c y : Word} {xs ys done : List Word}

/-- A descriptor that comes after another one in the order of the ring is not the first. -/
theorem ne_head (hr : d.HasRing (h :: xs)) (heq : done ++ c :: y :: ys = h :: xs) : y ≠ h := by
  have hn := hr.ring.nodup
  cases done with
  | nil =>
    obtain ⟨rfl, rfl⟩ := List.cons.inj heq
    exact fun hyc => (List.nodup_cons.1 hn).1 (hyc ▸ List.mem_cons_self)
  | cons z done =>
    obtain ⟨rfl, rfl⟩ := List.cons.inj heq
    exact fun hyz => (List.nodup_cons.1 hn).1 (hyz ▸ by simp)

end Around

/-! ## The lines -/

/-- The second page follows the first one and has the same protections. -/
def PageTable.joins (t : PageTable) (x y : Word) : Bool :=
  decide (t.addr x + PAGE_SZ = t.addr y ∧ t.prot x = t.prot y)

/-- The line for a run of pages. -/
def PageTable.runLine (t : PageTable) : List Word → LogLine
  | [] => ⟨0, 0, 0, 0⟩
  | x :: xs => LogGroup.line ⟨t.addr x, t.prot x, BitVec.ofNat 64 (4096 * (xs.length + 1))⟩

/-- The runs of `l`, and without the last one if the page `h` would continue it. -/
def PageTable.closedRuns (t : PageTable) (h : Word) (l : List Word) : List (List Word) :=
  if l.getLast?.any fun x => t.joins x h then (l.splitBy t.joins).dropLast
  else l.splitBy t.joins

section Lines

variable {t : PageTable} {h c y : Word} {xs ys done p : List Word} {g : LogGroup}

theorem getFields_live {x : Word} (hx : t.Live x) :
    getFields x t = .ok ⟨t.addr x, t.prot x, t.size x⟩ t := by
  rw [getFields, bind_of_ok (onDescs_ok (deref_live hx))]
  rfl

/-- The group that is open at the descriptor `c`, after the pages `p` of the same run. -/
structure Open (t : PageTable) (p : List Word) (g : LogGroup) : Prop where
  size : g.size = BitVec.ofNat 64 (4096 * (p.length + 1))
  first : ∀ x ∈ p.head?, g.addr = t.addr x ∧ g.prot = t.prot x

/-- The group after the first test of the loop. -/
def PageTable.opened (t : PageTable) (c : Word) (g : LogGroup) : LogGroup :=
  if g.size = PAGE_SZ then ⟨t.addr c, t.prot c, t.size c⟩ else g

/-- It is the group of the run with `c`. -/
theorem Open.opened (hg : Open t p g) (hlen : p.length + 1 ≤ 2 ^ 52) (hsize : t.size c = PAGE_SZ) :
    (t.opened c g).size = BitVec.ofNat 64 (4096 * (p.length + 1)) ∧
      ∀ x ∈ (p ++ [c]).head?, (t.opened c g).addr = t.addr x ∧ (t.opened c g).prot = t.prot x := by
  rw [PageTable.opened]
  cases p with
  | nil =>
    have hopen : g.size = PAGE_SZ := hg.size
    rw [if_pos hopen]
    refine ⟨hsize, fun x hx => ?_⟩
    obtain rfl : c = x := by simpa using hx
    exact ⟨rfl, rfl⟩
  | cons x p =>
    have hlong : g.size ≠ PAGE_SZ := by
      intro heq
      have hnat := congrArg BitVec.toNat (hg.size.symm.trans heq)
      rw [List.length_cons] at hlen hnat
      rw [BitVec.toNat_ofNat] at hnat
      have hpage : PAGE_SZ.toNat = 4096 := rfl
      omega
    rw [if_neg hlong]
    exact ⟨hg.size, hg.first⟩

theorem Open.line (hg : Open t p g) (hlen : p.length + 1 ≤ 2 ^ 52) (hsize : t.size c = PAGE_SZ) :
    (t.opened c g).line = t.runLine (p ++ [c]) := by
  obtain ⟨hopened, hfirst⟩ := hg.opened hlen hsize
  obtain ⟨x, l, hxl⟩ : ∃ x l, p ++ [c] = x :: l :=
    List.exists_cons_of_ne_nil (List.concat_ne_nil c p)
  have hlength : p.length + 1 = l.length + 1 := by
    simpa using congrArg List.length hxl
  obtain ⟨haddr, hprot⟩ := hfirst x (by rw [hxl]; rfl)
  rw [hxl, PageTable.runLine, ← haddr, ← hprot, ← hlength, ← hopened]

/-- The group stays open. -/
theorem Open.next (hg : Open t p g) (hlen : p.length + 1 ≤ 2 ^ 52) (hsize : t.size c = PAGE_SZ) :
    Open t (p ++ [c]) { t.opened c g with size := (t.opened c g).size + PAGE_SZ } := by
  obtain ⟨hopened, hfirst⟩ := hg.opened hlen hsize
  refine ⟨?_, hfirst⟩
  have hpage : PAGE_SZ = BitVec.ofNat 64 4096 := rfl
  show (t.opened c g).size + PAGE_SZ = _
  rw [hopened, hpage, ← BitVec.ofNat_add, List.length_append, List.length_singleton]
  rfl

/-- One turn of the loop. -/
theorem logLoop_succ (hc : t.Live c) (hnext : t.Live (t.list.next c))
    (hsize : t.size c = PAGE_SZ) (n : Nat) :
    logLoop h (n + 1) c g t =
      let joined := t.joins c (t.list.next c)
      let lines := if joined then [] else [(t.opened c g).line]
      let size := if joined then (t.opened c g).size + PAGE_SZ else PAGE_SZ
      if t.list.next c = h then .ok lines t
      else (do
        let rest ← logLoop h n (t.list.next c) { t.opened c g with size }
        return lines ++ rest : Table (List LogLine)) t := by
  rw [logLoop, bind_of_ok (getFields_live hc), bind_of_ok (onDescs_ok (getNext_live hc)),
    bind_of_ok (getFields_live hnext)]
  simp only [hsize, PageTable.joins, PageTable.opened]
  split
  · rfl
  · rfl

/-- The run that is open at the last page. -/
theorem PageTable.closedRuns_last (hchain : (p ++ [c]).IsChain fun x y => t.joins x y) :
    t.closedRuns h (p ++ [c]) = if t.joins c h then [] else [p ++ [c]] := by
  rw [PageTable.closedRuns, List.splitBy_of_isChain (List.concat_ne_nil c p) hchain]
  simp

/-- A run that ends in front of another page. -/
theorem PageTable.closedRuns_end (hchain : (p ++ [c]).IsChain fun x y => t.joins x y)
    (hend : t.joins c y = false) :
    t.closedRuns h (p ++ c :: y :: ys) = (p ++ [c]) :: t.closedRuns h (y :: ys) := by
  have hsplit : (p ++ c :: y :: ys).splitBy t.joins = (p ++ [c]) :: (y :: ys).splitBy t.joins := by
    have hlast : ∀ x ∈ (p ++ [c]).getLast?, t.joins x y = false := by
      intro x hx
      obtain rfl : c = x := by simpa using hx
      exact hend
    rw [List.append_cons, List.splitBy_append_cons ys hlast,
      List.splitBy_of_isChain (List.concat_ne_nil c p) hchain]
    rfl
  have hlast : (p ++ c :: y :: ys).getLast? = (y :: ys).getLast? := by
    rw [List.append_cons, List.getLast?_append_of_ne_nil _ (List.cons_ne_nil y ys)]
  rw [PageTable.closedRuns, PageTable.closedRuns, hsplit, hlast]
  split
  · rw [List.dropLast_cons_of_ne_nil (List.splitBy_ne_nil.2 (List.cons_ne_nil y ys))]
  · rfl

/-- From a descriptor on, the loop prints the rest of the runs. -/
theorem logLoop_runs (hr : t.HasRing (h :: xs)) (hsizes : ∀ x ∈ h :: xs, t.size x = PAGE_SZ)
    (hlen : (h :: xs).length ≤ 2 ^ 52) (ys : List Word) :
    ∀ {done p : List Word} {c : Word} {g : LogGroup} {n : Nat},
      done ++ (p ++ c :: ys) = h :: xs → (p ++ [c]).IsChain (fun x y => t.joins x y) →
      Open t p g → ys.length < n →
      logLoop h n c g t = .ok ((t.closedRuns h (p ++ c :: ys)).map t.runLine) t := by
  induction ys with
  | nil =>
    intro done p c g n heq hchain hg hn
    have hc : c ∈ h :: xs := by simp [← heq]
    have hp : p.length + 1 ≤ 2 ^ 52 := by
      rw [← heq, List.length_append, List.length_append, List.length_cons] at hlen
      omega
    have hnext : t.list.next c = h := hr.ring.next_last (by rw [← heq]; simp)
    cases n with
    | zero => exact absurd hn (Nat.not_lt_zero _)
    | succ n =>
      rw [logLoop_succ (hr.live c hc) (hnext ▸ hr.live h List.mem_cons_self) (hsizes c hc), hnext,
        if_pos rfl, PageTable.closedRuns_last hchain, hg.line hp (hsizes c hc)]
      split
      · rfl
      · rfl
  | cons y ys ih =>
    intro done p c g n heq hchain hg hn
    have hc : c ∈ h :: xs := by simp [← heq]
    have hy : y ∈ h :: xs := by simp [← heq]
    have hp : p.length + 1 ≤ 2 ^ 52 := by
      rw [← heq, List.length_append, List.length_append, List.length_cons] at hlen
      omega
    have hsplit : (done ++ p) ++ c :: y :: ys = h :: xs := by
      rw [List.append_assoc, heq]
    have hnext : t.list.next c = y :=
      (show IsRing t.list ((done ++ p) ++ c :: y :: ys) from hsplit ▸ hr.ring).next_inner
    cases n with
    | zero => exact absurd hn (Nat.not_lt_zero _)
    | succ n =>
      have hn : ys.length < n := Nat.lt_of_succ_lt_succ hn
      rw [logLoop_succ (hr.live c hc) (hnext ▸ hr.live y hy) (hsizes c hc), hnext,
        if_neg (ne_head hr hsplit)]
      cases hj : t.joins c y with
      | true =>
        -- The page continues the run.
        have hchain' : (p ++ [c] ++ [y]).IsChain fun x y => t.joins x y := by
          rw [List.append_assoc]
          exact List.isChain_append_cons_cons.2 ⟨hchain, hj, .singleton y⟩
        have hrest := ih (by simpa using heq) hchain' (hg.next hp (hsizes c hc)) hn
        simp only [if_true]
        rw [bind_of_ok hrest, List.append_cons p c (y :: ys)]
        rfl
      | false =>
        -- The run ends, and the page starts a new one.
        have hopen : Open t [] { t.opened c g with size := PAGE_SZ } := ⟨rfl, nofun⟩
        have hdone : (done ++ p ++ [c]) ++ ([] ++ y :: ys) = h :: xs := by
          rw [List.nil_append, ← List.append_cons, hsplit]
        have hrest := ih hdone (.singleton y) hopen hn
        simp only [Bool.false_eq_true, if_false]
        rw [bind_of_ok hrest, PageTable.closedRuns_end hchain hj, List.map_cons,
          ← hg.line hp (hsizes c hc)]
        rfl

/-- `log_map` prints one line for each run of pages that follow each other and have the same
protections, in the order of the ring.  Only a last run that the first page would continue
is missing. -/
theorem logMap_lines (hr : t.HasRing (h :: xs)) (hsizes : ∀ x ∈ h :: xs, t.size x = PAGE_SZ)
    (hlen : (h :: xs).length ≤ 2 ^ 52) :
    logMap h t = .ok ((t.closedRuns h (h :: xs)).map t.runLine) t := by
  have hh : t.Live h := hr.live h List.mem_cons_self
  have hopen : Open t [] ⟨t.addr h, t.prot h, t.size h⟩ :=
    ⟨hsizes h List.mem_cons_self, nofun⟩
  have hn : xs.length < POINTERS := length_le_POINTERS hr.ring.nodup
  have hloop := logLoop_runs hr hsizes hlen xs (p := []) (List.nil_append (h :: xs))
    (.singleton h) hopen hn
  exact (bind_of_ok (getFields_live hh)).trans hloop

end Lines

/-- The page at 0x2000 with the one in front of it after it, as in a ring that was merged. -/
def PageTable.merged : PageTable :=
  { PageTable.single with list := Descs.single.list.splice 0x2000 0x1000 }

theorem PageTable.merged_hasRing : PageTable.merged.HasRing [0x2000, 0x1000] :=
  Descs.HasRing.splice (Descs.single_hasRing (by decide)) (Descs.single_hasRing (by decide))
    (by simp)

/-- The second page is not printed: the first one would continue its run. -/
theorem logMap_lines_merged :
    logMap 0x2000 .merged = .ok [⟨0x2000, 0x2fff, 0x1000, PROT_READ⟩] .merged := by
  have hlines : (PageTable.merged.closedRuns 0x2000 [0x2000, 0x1000]).map
      PageTable.merged.runLine = [⟨0x2000, 0x2fff, 0x1000, PROT_READ⟩] := by decide
  rw [← hlines]
  exact logMap_lines PageTable.merged_hasRing (fun _ _ => rfl) (by decide)

/-! ## Giving the ring back -/

section Free

variable {d : Descs} {h c : Word} {xs ys : List Word}

/-- The memory after the descriptors `xs` were freed. -/
def Descs.release (d : Descs) (xs : List Word) : Descs :=
  { d with freed := fun x => d.freed x || xs.contains x }

/-- A descriptor of the ring that the loop has not reached. -/
theorem Descs.HasRing.live_release {done : List Word} (hr : d.HasRing (h :: xs))
    (heq : done ++ c :: ys = h :: xs) : (d.release done).Live c := by
  have hlive : d.Live c := hr.live c (by rw [← heq]; simp)
  have hn := hr.ring.nodup
  rw [← heq, List.nodup_append'] at hn
  have hc : c ∉ done := fun hc => hn.2.2 hc List.mem_cons_self
  exact ⟨hlive.1, by simp [Descs.release, hlive.2, hc]⟩

theorem Descs.release_snoc (d : Descs) (xs : List Word) (c : Word) :
    { d.release xs with freed := Function.update (d.release xs).freed c true } =
      d.release (xs ++ [c]) := by
  refine congrArg (Descs.mk d.list d.addr) (funext fun x => ?_)
  by_cases hx : x = c
  · simp [hx, Descs.release]
  · simp [hx, Descs.release]

/-- One turn of the loop. -/
theorem freeRing_succ (hc : d.Live c) (n : Nat) :
    freeRing h (n + 1) c d =
      if d.list.next c = h then .ok () { d with freed := Function.update d.freed c true }
      else freeRing h n (d.list.next c) { d with freed := Function.update d.freed c true } := by
  rw [freeRing, bind_of_ok (getNext_live hc), bind_of_ok (freeDesc_live hc)]
  split
  · rfl
  · rfl

/-- From a descriptor on, the loop frees the rest of the ring. -/
theorem freeRing_suffix (hr : d.HasRing (h :: xs)) (ys : List Word) :
    ∀ {done : List Word} {c : Word} {n : Nat}, done ++ c :: ys = h :: xs → ys.length < n →
      freeRing h n c (d.release done) = .ok () (d.release (h :: xs)) := by
  induction ys with
  | nil =>
    intro done c n heq hn
    have hnext : d.list.next c = h := hr.ring.next_last (by rw [← heq]; simp)
    cases n with
    | zero => exact absurd hn (Nat.not_lt_zero _)
    | succ n =>
      rw [freeRing_succ (hr.live_release heq), d.release_snoc, heq]
      exact if_pos hnext
  | cons y ys ih =>
    intro done c n heq hn
    have hnext : d.list.next c = y :=
      (show IsRing d.list (done ++ c :: y :: ys) from heq ▸ hr.ring).next_inner
    cases n with
    | zero => exact absurd hn (Nat.not_lt_zero _)
    | succ n =>
      have hdone : (done ++ [c]) ++ y :: ys = h :: xs := by
        rw [← List.append_cons, heq]
      rw [freeRing_succ (hr.live_release heq), d.release_snoc]
      refine (if_neg (hnext ▸ ne_head hr heq)).trans ?_
      rw [← ih hdone (Nat.lt_of_succ_lt_succ hn)]
      exact congrArg (freeRing h n · _) hnext

/-- `free_memory_map` frees the descriptors of the ring, each once, and changes nothing else.
It leaves `memory_map` as it is, so whatever is looked up afterwards, the search begins in
freed memory. -/
theorem freeMemoryMap_releases (hr : d.HasRing (h :: xs)) :
    freeMemoryMap h d = .ok 0 (d.release (h :: xs)) ∧
      ∀ s : MapOwner, s.memoryMap = h → ∀ addr, ReachesFreed s (d.release (h :: xs)) addr := by
  have hne : h ≠ 0 := (hr.live h List.mem_cons_self).1
  have hloop : freeRing h POINTERS h d = .ok () (d.release (h :: xs)) := by
    have hnone : d.release [] = d := by simp [Descs.release]
    have hrun := freeRing_suffix hr xs (List.nil_append _) (length_le_POINTERS hr.ring.nodup)
    rwa [hnone] at hrun
  constructor
  · rw [freeMemoryMap, if_neg hne]
    exact bind_of_ok hloop
  · intro s hs addr
    exact ⟨_, getMemDesc_freed hs hne (by simp [Descs.release])⟩

end Free

/-- The two descriptors of a ring are freed. -/
theorem freeMemoryMap_releases_pair :
    freeMemoryMap 0x1000 .pair = .ok 0 (Descs.pair.release [0x1000, 0x2000]) ∧
      ∀ s : MapOwner, s.memoryMap = 0x1000 →
        ∀ addr, ReachesFreed s (Descs.pair.release [0x1000, 0x2000]) addr :=
  freeMemoryMap_releases Descs.pair_hasRing

end Dryadalis
