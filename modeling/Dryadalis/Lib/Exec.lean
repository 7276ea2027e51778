import Mathlib

/-!
# Programs over a state that may stop

`EStateM ε σ` programs run on a state and end with a value or with a reason to
stop, and keep the state in both cases.  This file has the rules that proofs
about such programs use in place of unfolding `bind`:

* `bind_of_ok` and `bind_of_error` run the first half of a program;
* `Follows R x` says that `x` moves the state along the preorder `R`, whether it
  ends with a value or stops, with one rule for each way to build a program.
  `Kept f` is the preorder of the states that agree on what `f` reads;
* `Reaches step s is s'` is a run of a sequence of steps that all end with a
  value;
* `foldlM_induct` is the invariant rule of a loop over a list that may stop.
-/

namespace Exec

variable {ε σ τ ι α β : Type}

/-! ## Running a program -/

/-- The state at the end of a run, with a value or not. -/
def final : EStateM.Result ε σ α → σ
  | .ok _ s => s
  | .error _ s => s

@[simp] theorem final_ok (a : α) (s : σ) : final (.ok a s : EStateM.Result ε σ α) = s := rfl

@[simp] theorem final_error (e : ε) (s : σ) :
    final (.error e s : EStateM.Result ε σ α) = s := rfl

/-- The same end of a run, seen from another state. -/
def viewed (f : σ → τ) : EStateM.Result ε σ α → EStateM.Result ε τ α
  | .ok a s => .ok a (f s)
  | .error e s => .error e (f s)

@[simp] theorem viewed_ok (f : σ → τ) (a : α) (s : σ) :
    viewed f (.ok a s : EStateM.Result ε σ α) = .ok a (f s) := rfl

@[simp] theorem viewed_error (f : σ → τ) (e : ε) (s : σ) :
    viewed f (.error e s : EStateM.Result ε σ α) = .error e (f s) := rfl

@[simp] theorem pure_apply (a : α) (s : σ) : (pure a : EStateM ε σ α) s = .ok a s := rfl

@[simp] theorem get_apply (s : σ) : (get : EStateM ε σ σ) s = .ok s s := rfl

@[simp] theorem modify_apply (g : σ → σ) (s : σ) :
    (modify g : EStateM ε σ PUnit) s = .ok () (g s) := rfl

theorem bind_apply (x : EStateM ε σ α) (f : α → EStateM ε σ β) (s : σ) :
    (x >>= f) s = match x s with
      | .ok a s' => f a s'
      | .error e s' => .error e s' := by
  show EStateM.bind x f s = _
  unfold EStateM.bind
  cases x s <;> rfl

theorem bind_of_ok {x : EStateM ε σ α} {f : α → EStateM ε σ β} {s s' : σ} {a : α}
    (h : x s = .ok a s') : (x >>= f) s = f a s' := by
  rw [bind_apply, h]

theorem bind_of_error {x : EStateM ε σ α} {f : α → EStateM ε σ β} {s s' : σ} {e : ε}
    (h : x s = .error e s') : (x >>= f) s = .error e s' := by
  rw [bind_apply, h]

/-- A program that ends with a value ran its first half to a value. -/
theorem exists_of_bind_ok {x : EStateM ε σ α} {f : α → EStateM ε σ β} {s s' : σ} {b : β}
    (h : (x >>= f) s = .ok b s') : ∃ a t, x s = .ok a t ∧ f a t = .ok b s' := by
  rw [bind_apply] at h
  cases hx : x s with
  | ok a t =>
    rw [hx] at h
    exact ⟨a, t, rfl, h⟩
  | error e t =>
    rw [hx] at h
    cases h

/-! ## Where a program can take the state -/

/-- The program moves the state along `R`. -/
def Follows (R : σ → σ → Prop) (x : EStateM ε σ α) : Prop := ∀ s, R s (final (x s))

namespace Follows

variable {R : σ → σ → Prop} [IsPreorder σ R]

protected theorem pure (a : α) : Follows R (pure a : EStateM ε σ α) := fun s => refl_of R s

protected theorem get : Follows R (get : EStateM ε σ σ) := fun s => refl_of R s

protected theorem throw (e : ε) : Follows R (throw e : EStateM ε σ α) := fun s => refl_of R s

protected theorem bind {x : EStateM ε σ α} {g : α → EStateM ε σ β} (hx : Follows R x)
    (hg : ∀ a, Follows R (g a)) : Follows R (x >>= g) := by
  intro s
  have hs := hx s
  rw [bind_apply]
  cases h : x s with
  | ok a t =>
    rw [h] at hs
    exact trans_of R hs (hg a t)
  | error e t =>
    rw [h] at hs
    exact hs

omit [IsPreorder σ R] in
protected theorem modify {g : σ → σ} (h : ∀ s, R s (g s)) :
    Follows R (modify g : EStateM ε σ PUnit) := h

omit [IsPreorder σ R] in
protected theorem ite {p : Prop} [Decidable p] {x y : EStateM ε σ α} (hx : Follows R x)
    (hy : Follows R y) : Follows R (if p then x else y) := by
  split
  · exact hx
  · exact hy

/-- A step that is taken only if a condition holds, and the rest of the program. -/
protected theorem when {p : Prop} [Decidable p] {x : EStateM ε σ Unit}
    {f : Unit → EStateM ε σ α} (hx : Follows R x) (hf : ∀ a, Follows R (f a)) :
    Follows R (if p then x >>= f else f ()) :=
  .ite (.bind hx hf) (hf ())

omit [IsPreorder σ R] in
protected theorem mono {R' : σ → σ → Prop} {x : EStateM ε σ α} (h : ∀ {s s'}, R s s' → R' s s')
    (hx : Follows R x) : Follows R' x := fun s => h (hx s)

omit [IsPreorder σ R] in
theorem of_ok {x : EStateM ε σ α} {s s' : σ} {a : α} (hx : Follows R x) (h : x s = .ok a s') :
    R s s' := by
  have hs := hx s
  rw [h] at hs
  exact hs

end Follows

/-- The two states agree on what `f` reads. -/
def Kept (f : σ → τ) (s s' : σ) : Prop := f s' = f s

instance (f : σ → τ) : IsPreorder σ (Kept f) where
  refl _ := rfl
  trans _ _ _ h h' := h'.trans h

/-! ## Runs of steps -/

/-- The steps `is` all end with a value, and lead from `s` to `s'`. -/
inductive Reaches (step : ι → EStateM ε σ α) : σ → List ι → σ → Prop where
  | nil (s) : Reaches step s [] s
  | cons {s s₁ s' i is a} (head : step i s = .ok a s₁) (tail : Reaches step s₁ is s') :
      Reaches step s (i :: is) s'

/-! ## Loops over a list -/

/-- What holds before a loop, and is preserved by each turn that does not stop it, holds after
the loop.  The invariant may speak of the elements that have been done. -/
theorem foldlM_induct {f : σ → ι → Option σ} {xs : List ι} {motive : List ι → σ → Prop}
    (step : ∀ {done x rest s s'}, done ++ x :: rest = xs → motive done s → f s x = some s' →
      motive (done ++ [x]) s')
    {s s' : σ} (start : motive [] s) (h : xs.foldlM f s = some s') : motive xs s' := by
  suffices hrest : ∀ rest done s, done ++ rest = xs → motive done s →
      rest.foldlM f s = some s' → motive xs s' from hrest xs [] s rfl start h
  intro rest
  induction rest with
  | nil =>
    intro done s heq hdone h
    rw [List.append_nil] at heq
    obtain rfl : s = s' := Option.some.inj h
    exact heq ▸ hdone
  | cons x rest ih =>
    intro done s heq hdone h
    rw [List.foldlM_cons, Option.bind_eq_bind, Option.bind_eq_some_iff] at h
    obtain ⟨t, hx, h⟩ := h
    exact ih (done ++ [x]) t (by simpa using heq) (step heq hdone hx) h

end Exec
