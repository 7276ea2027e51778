import Mathlib

/-!
# Circular doubly linked lists

The nodes of a circular doubly linked list carry two pointers, and everything that is done
to such a list is a change of pointers.  `IsRing l xs` says that the pointers `l` run
through the nodes `xs` and back to the first of them, in both directions.

Every change here is made of one operation: `join l p q` makes `q` the node after `p`.
`isChain_join` says which stretches of pointers it keeps.

* `IsRing.splice` makes one ring of two;
* `IsRing.remove` takes a node out of a ring;
* `IsRing.next_prev`, `IsRing.iterate_next` and the lemmas on `next` are what a traversal
  needs.
-/

namespace Ring

variable {α : Type}

/-- The two pointers of every node. -/
structure Links (α : Type) where
  next : α → α
  prev : α → α

/-- `y` comes after `x`, and `x` before `y`. -/
def Links.Joined (l : Links α) (x y : α) : Prop := l.next x = y ∧ l.prev y = x

/-- The nodes `xs` in this order, and nothing else, form a ring. -/
structure IsRing (l : Links α) (xs : List α) : Prop where
  nodup : xs.Nodup
  path : xs.IsChain l.Joined
  closed : ∀ x ∈ xs.getLast?, ∀ y ∈ xs.head?, l.Joined x y

section Traverse

variable {l : Links α} {x y h : α} {xs ys : List α}

/-- The node after an inner one. -/
theorem IsRing.next_inner (hr : IsRing l (xs ++ x :: y :: ys)) : l.next x = y :=
  (List.isChain_append_cons_cons.1 hr.path).2.1.1

/-- The node after the last one. -/
theorem IsRing.next_last (hr : IsRing l (h :: xs)) (hx : (h :: xs).getLast? = some x) :
    l.next x = h :=
  (hr.closed x hx h rfl).1

/-- The node before the first one. -/
theorem IsRing.prev_head (hr : IsRing l (h :: xs)) (hx : (h :: xs).getLast? = some x) :
    l.prev h = x :=
  (hr.closed x hx h rfl).2

/-- The node after a node is in the ring, and leads back to it. -/
theorem IsRing.next_mem (hr : IsRing l xs) (hx : x ∈ xs) :
    l.next x ∈ xs ∧ l.prev (l.next x) = x := by
  obtain ⟨u, v, rfl⟩ := List.append_of_mem hx
  cases v with
  | cons y v =>
    have hj := (List.isChain_append_cons_cons.1 hr.path).2.1
    rw [hj.1]
    exact ⟨by simp, hj.2⟩
  | nil =>
    have hlast : x ∈ (u ++ [x]).getLast? := by simp
    cases hu : u ++ [x] with
    | nil => simp at hu
    | cons y w =>
      have hj := hr.closed x hlast y (by rw [hu]; rfl)
      rw [hj.1]
      exact ⟨by simp, hj.2⟩

/-- The node before a node is in the ring, and leads to it. -/
theorem IsRing.prev_mem (hr : IsRing l xs) (hx : x ∈ xs) :
    l.prev x ∈ xs ∧ l.next (l.prev x) = x := by
  obtain ⟨u, v, rfl⟩ := List.append_of_mem hx
  rcases List.eq_nil_or_concat' u with rfl | ⟨u, y, rfl⟩
  · cases hlast : (x :: v).getLast? with
    | none => simp at hlast
    | some y =>
      have hj := hr.closed y hlast x rfl
      rw [List.nil_append, hj.2]
      exact ⟨List.mem_of_getLast? hlast, hj.1⟩
  · rw [List.append_assoc, List.singleton_append] at hr ⊢
    have hj := (List.isChain_append_cons_cons.1 hr.path).2.1
    rw [hj.2]
    exact ⟨by simp, hj.1⟩

/-- `prev` and `next` undo each other on the ring. -/
theorem IsRing.next_prev (hr : IsRing l xs) (hx : x ∈ xs) :
    l.prev (l.next x) = x ∧ l.next (l.prev x) = x :=
  ⟨(hr.next_mem hx).2, (hr.prev_mem hx).2⟩

/-- The nodes from a node on, in the order of `next`. -/
theorem IsRing.iterate_suffix : ∀ {xs : List α} {x : α}, IsRing l (xs ++ x :: ys) →
    List.iterate l.next x (ys.length + 1) = x :: ys := by
  induction ys with
  | nil =>
    intro xs x _
    rfl
  | cons y ys ih =>
    intro xs x hr
    have hy : IsRing l (xs ++ [x] ++ y :: ys) := by simpa using hr
    rw [List.length_cons, List.iterate, hr.next_inner, ih hy]

/-- Following `next` from the first node visits the ring in order. -/
theorem IsRing.iterate_next (hr : IsRing l (h :: xs)) :
    List.iterate l.next h (xs.length + 1) = h :: xs :=
  IsRing.iterate_suffix (show IsRing l ([] ++ h :: xs) from hr)

end Traverse

/-! ## Changing pointers -/

section Join

variable [DecidableEq α]

/-- Make `q` the node after `p`. -/
def Links.join (l : Links α) (p q : α) : Links α where
  next := Function.update l.next p q
  prev := Function.update l.prev q p

variable {l : Links α} {p q x y : α} {xs : List α}

theorem Links.joined_join (l : Links α) (p q : α) : (l.join p q).Joined p q :=
  ⟨by simp [Links.join], by simp [Links.join]⟩

theorem Links.Joined.join (h : l.Joined x y) (hx : x ≠ p) (hy : y ≠ q) :
    (l.join p q).Joined x y :=
  ⟨by simp [Links.join, hx, h.1], by simp [Links.join, hy, h.2]⟩

/-- A path keeps its pointers if `p` can only be its last node and `q` its first. -/
theorem isChain_join (hpath : xs.IsChain l.Joined) (hp : p ∉ xs.dropLast) (hq : q ∉ xs.tail) :
    xs.IsChain (l.join p q).Joined := by
  induction xs with
  | nil => exact .nil
  | cons x xs ih =>
    cases xs with
    | nil => exact .singleton x
    | cons y xs =>
      rw [List.dropLast_cons_cons, List.mem_cons, not_or] at hp
      rw [List.tail_cons, List.mem_cons, not_or] at hq
      rw [List.isChain_cons_cons] at hpath ⊢
      exact ⟨hpath.1.join (Ne.symm hp.1) (Ne.symm hq.1), ih hpath.2 hp.2 hq.2⟩

/-- The same for a path that ends with `p`. -/
theorem isChain_join_last (hpath : (xs ++ [p]).IsChain l.Joined) (hn : (xs ++ [p]).Nodup)
    (hq : q ∉ (xs ++ [p]).tail) : (xs ++ [p]).IsChain (l.join p q).Joined := by
  refine isChain_join hpath ?_ hq
  rw [List.dropLast_concat]
  intro hp
  exact (List.nodup_append.1 hn).2.2 p hp p (by simp) rfl

end Join

/-! ## Joining two rings, taking a node out -/

section Splice

variable [DecidableEq α] {l : Links α} {a b x : α} {s t xs ys : List α}

/-- Two rings as one: the last node of each is put before the first node of the other. -/
def Links.splice (l : Links α) (a b : α) : Links α :=
  (l.join (l.prev b) a).join (l.prev a) b

/-- The nodes around `x` are joined. -/
def Links.remove (l : Links α) (x : α) : Links α := l.join (l.prev x) (l.next x)

theorem IsRing.splice (ha : IsRing l (a :: s)) (hb : IsRing l (b :: t))
    (hd : (a :: s).Disjoint (b :: t)) : IsRing (l.splice a b) (a :: s ++ b :: t) := by
  obtain ⟨xs, p, hxs⟩ : ∃ xs p, a :: s = xs ++ [p] :=
    (List.eq_nil_or_concat' (a :: s)).resolve_left (List.cons_ne_nil a s)
  obtain ⟨ys, q, hys⟩ : ∃ ys q, b :: t = ys ++ [q] :=
    (List.eq_nil_or_concat' (b :: t)).resolve_left (List.cons_ne_nil b t)
  have hpa : l.prev a = p := ha.prev_head (by rw [hxs]; simp)
  have hqb : l.prev b = q := hb.prev_head (by rw [hys]; simp)
  have hp : p ∈ a :: s := by rw [hxs]; simp
  have hq : q ∈ b :: t := by rw [hys]; simp
  have has : a ∉ s := (List.nodup_cons.1 ha.nodup).1
  have hbt : b ∉ t := (List.nodup_cons.1 hb.nodup).1
  rw [Links.splice, hpa, hqb]
  -- The first change keeps both paths, and so does the second.
  have hs₁ : (a :: s).IsChain (l.join q a).Joined :=
    isChain_join ha.path (fun h => hd (List.dropLast_subset _ h) hq) has
  have ht₁ : (b :: t).IsChain (l.join q a).Joined := by
    rw [hys]
    refine isChain_join_last (hys ▸ hb.path) (hys ▸ hb.nodup) ?_
    rw [← hys]
    exact fun h => hd List.mem_cons_self (List.mem_cons_of_mem b h)
  have hs₂ : (a :: s).IsChain ((l.join q a).join p b).Joined := by
    rw [hxs]
    refine isChain_join_last (hxs ▸ hs₁) (hxs ▸ ha.nodup) ?_
    rw [← hxs]
    exact fun h => hd (List.mem_cons_of_mem a h) List.mem_cons_self
  have ht₂ : (b :: t).IsChain ((l.join q a).join p b).Joined :=
    isChain_join ht₁ (fun h => hd hp (List.dropLast_subset _ h)) hbt
  have hqa : ((l.join q a).join p b).Joined q a :=
    (Links.joined_join l q a).join (fun h => hd (h ▸ hp) hq)
      (fun h => hd List.mem_cons_self (h ▸ List.mem_cons_self))
  refine ⟨List.nodup_append.2 ⟨ha.nodup, hb.nodup, fun x hx y hy h => hd hx (h ▸ hy)⟩,
    List.isChain_append.2 ⟨hs₂, ht₂, ?_⟩, ?_⟩
  · intro x hx y hy
    obtain rfl : p = x := by rw [hxs] at hx; simpa using hx
    obtain rfl : b = y := by simpa using hy
    exact Links.joined_join _ p b
  · intro x hx y hy
    rw [List.getLast?_append_of_ne_nil _ (List.cons_ne_nil b t), hys] at hx
    obtain rfl : q = x := by simpa using hx
    obtain rfl : a = y := by simpa using hy
    exact hqa

/-- A node other than the first is taken out. -/
theorem IsRing.remove (hr : IsRing l (a :: s ++ x :: t)) : IsRing (l.remove x) (a :: s ++ t) := by
  obtain ⟨hn₁, hn₂, hn₃⟩ := List.nodup_append'.1 hr.nodup
  have hxt : x ∉ t := (List.nodup_cons.1 hn₂).1
  have has : a ∉ s := (List.nodup_cons.1 hn₁).1
  obtain ⟨us, p, hus⟩ : ∃ us p, a :: s = us ++ [p] :=
    (List.eq_nil_or_concat' (a :: s)).resolve_left (List.cons_ne_nil a s)
  have hp : p ∈ a :: s := by rw [hus]; simp
  obtain ⟨hs, ht, hjoin⟩ := List.isChain_append.1 hr.path
  have hpx : l.prev x = p := (hjoin p (by rw [hus]; simp) x rfl).2
  have hs' : ∀ q, q ∉ s → (a :: s).IsChain (l.join p q).Joined := by
    intro q hq
    rw [hus]
    refine isChain_join_last (hus ▸ hs) (hus ▸ hn₁) ?_
    rw [← hus]
    exact hq
  have hn : (a :: s ++ t).Nodup :=
    hr.nodup.sublist ((List.Sublist.refl (a :: s)).append (List.sublist_cons_self x t))
  cases t with
  | nil =>
    have hq : l.next x = a := (show IsRing l (a :: (s ++ [x])) from hr).next_last
      (List.getLast?_append_of_ne_nil (a :: s) (List.cons_ne_nil x []))
    rw [Links.remove, hpx, hq]
    refine ⟨hn, by rw [List.append_nil]; exact hs' a has, ?_⟩
    intro y hy z hz
    obtain rfl : p = y := by rw [List.append_nil, hus] at hy; simpa using hy
    obtain rfl : a = z := by simpa using hz
    exact Links.joined_join l p a
  | cons q t =>
    have hq : l.next x = q := hr.next_inner
    have hqs : q ∉ a :: s := fun h => hn₃ h (by simp)
    have hqt : q ∉ t := (List.nodup_cons.1 (List.nodup_cons.1 hn₂).2).1
    have hpt : p ∉ q :: t := fun h => hn₃ hp (List.mem_cons_of_mem x h)
    rw [Links.remove, hpx, hq]
    refine ⟨hn, List.isChain_append.2
      ⟨hs' q fun h => hqs (List.mem_cons_of_mem a h), ?_, ?_⟩, ?_⟩
    · exact isChain_join ht.tail (fun h => hpt (List.dropLast_subset _ h)) hqt
    · intro y hy z hz
      obtain rfl : p = y := by rw [hus] at hy; simpa using hy
      obtain rfl : q = z := by simpa using hz
      exact Links.joined_join l p q
    · -- The last node is one of `q :: t`, and it still leads to `a`.
      intro y hy z hz
      obtain rfl : a = z := by simpa using hz
      rw [List.getLast?_append_of_ne_nil _ (List.cons_ne_nil q t)] at hy
      have hlast : (a :: s ++ x :: q :: t).getLast? = some y := by
        rw [List.getLast?_append_of_ne_nil _ (List.cons_ne_nil x _), List.getLast?_cons_cons]
        exact hy
      refine (hr.closed y hlast a rfl).join ?_ ?_
      · exact fun h => hpt (h ▸ List.mem_of_getLast? hy)
      · exact fun h => hqs (h ▸ List.mem_cons_self)

end Splice

end Ring
