import Dryadalis.Lib.Exec

/-!
# Programs that do not look at a part of the state

A change `g` of the state can be made before a program or after it.  `Commutes g x` says
that this makes no difference to `x`: the program neither reads nor writes what `g`
changes.  A state with an extra part can then be run without it, and the part put back at
the end.

There is one rule for each way to build a program.  `get` is the only one that can tell
the two states apart, so it comes with the rest of the program, which must not use the
difference.
-/

namespace Exec

variable {ε σ α β : Type}

/-- The result with the change made to the state it ends in. -/
def mapState (g : σ → σ) : EStateM.Result ε σ α → EStateM.Result ε σ α
  | .ok a s => .ok a (g s)
  | .error e s => .error e (g s)

@[simp] theorem mapState_ok (g : σ → σ) (a : α) (s : σ) :
    mapState g (.ok a s : EStateM.Result ε σ α) = .ok a (g s) := rfl

@[simp] theorem mapState_error (g : σ → σ) (e : ε) (s : σ) :
    mapState g (.error e s : EStateM.Result ε σ α) = .error e (g s) := rfl

/-- The change can be made before the program or after it. -/
def Commutes (g : σ → σ) (x : EStateM ε σ α) : Prop := ∀ s, x (g s) = mapState g (x s)

namespace Commutes

variable {g : σ → σ} {x y : EStateM ε σ α}

/-- The changed state ends with a value exactly if the other one does. -/
theorem ok_iff (h : Commutes g x) {s s' : σ} {a : α} :
    x (g s) = .ok a s' ↔ ∃ t, x s = .ok a t ∧ s' = g t := by
  rw [h s]
  cases x s with
  | ok b t =>
    simp only [mapState_ok, EStateM.Result.ok.injEq]
    constructor
    · rintro ⟨rfl, rfl⟩
      exact ⟨t, ⟨rfl, rfl⟩, rfl⟩
    · rintro ⟨t, ⟨rfl, rfl⟩, rfl⟩
      exact ⟨rfl, rfl⟩
  | error e t => simp

protected theorem pure (a : α) : Commutes g (pure a : EStateM ε σ α) := fun _ => rfl

protected theorem throw (e : ε) : Commutes g (throw e : EStateM ε σ α) := fun _ => rfl

protected theorem modify {f : σ → σ} (h : ∀ s, f (g s) = g (f s)) :
    Commutes g (modify f : EStateM ε σ PUnit) := fun s =>
  congrArg (EStateM.Result.ok PUnit.unit) (h s)

protected theorem bind {f : α → EStateM ε σ β} (hx : Commutes g x)
    (hf : ∀ a, Commutes g (f a)) : Commutes g (x >>= f) := by
  intro s
  rw [bind_apply, bind_apply, hx s]
  cases x s with
  | ok a t => exact hf a t
  | error e t => rfl

/-- The rest of the program does not use what `g` changes. -/
protected theorem get_bind {f : σ → EStateM ε σ α} (hsame : ∀ s, f (g s) = f s)
    (hf : ∀ s, Commutes g (f s)) : Commutes g (get >>= f) := by
  intro s
  show f (g s) (g s) = mapState g (f s s)
  rw [hsame s]
  exact hf s s

protected theorem ite {p : Prop} [Decidable p] (hx : Commutes g x) (hy : Commutes g y) :
    Commutes g (if p then x else y) := by
  split
  · exact hx
  · exact hy

/-- A step that is taken only if a condition holds, and the rest of the program. -/
protected theorem when {p : Prop} [Decidable p] {x : EStateM ε σ Unit}
    {f : Unit → EStateM ε σ α} (hx : Commutes g x) (hf : ∀ a, Commutes g (f a)) :
    Commutes g (if p then x >>= f else f ()) :=
  .ite (.bind hx hf) (hf ())

end Commutes

end Exec
