import Dryadalis.Lib.Exec

/-!
# Contracts of programs that may stop

`Meets P x Q S` is the contract of a program over a state that may stop: from a
state with `P`, it ends with a value and a state with `Q`, or it stops and the
reason and the state at the stop satisfy `S`.  There is one rule for each way to
build a program.

`Follows R x` relates the two ends of one run and is the better tool when nothing
but a frame is at stake.  A contract can ask something of the state before, and can
promise more of a value than of a stop.
-/

namespace Exec

variable {ε σ τ α β : Type}

/-- The run ended with a value and `Q`, or it stopped with `S`. -/
inductive Ended (Q : α → σ → Prop) (S : ε → σ → Prop) : EStateM.Result ε σ α → Prop
  | ok {a s} (h : Q a s) : Ended Q S (.ok a s)
  | error {e s} (h : S e s) : Ended Q S (.error e s)

/-- From a state with `P` the program ends with `Q` or stops with `S`. -/
structure Meets (P : σ → Prop) (x : EStateM ε σ α) (Q : α → σ → Prop) (S : ε → σ → Prop) :
    Prop where
  ended : ∀ s, P s → Ended Q S (x s)

namespace Meets

variable {P P' : σ → Prop} {Q Q' : α → σ → Prop} {S : ε → σ → Prop} {x y : EStateM ε σ α}

/-! ## Using a contract -/

theorem of_ok (h : Meets P x Q S) {s s' : σ} {a : α} (hs : P s) (hx : x s = .ok a s') :
    Q a s' := by
  have hrun := h.ended s hs
  rw [hx] at hrun
  cases hrun with
  | ok hQ => exact hQ

theorem of_error (h : Meets P x Q S) {s s' : σ} {e : ε} (hs : P s) (hx : x s = .error e s') :
    S e s' := by
  have hrun := h.ended s hs
  rw [hx] at hrun
  cases hrun with
  | error hS => exact hS

/-- A program that is known to end with a value from a state. -/
theorem of_run (h : ∀ s, P s → ∃ a s', x s = .ok a s' ∧ Q a s') : Meets P x Q S := by
  refine ⟨fun s hs => ?_⟩
  obtain ⟨a, s', hx, hQ⟩ := h s hs
  rw [hx]
  exact .ok hQ

/-- The rule of consequence. -/
theorem imp (h : Meets P x Q S) (hP : ∀ s, P' s → P s) (hQ : ∀ a s, Q a s → Q' a s) :
    Meets P' x Q' S := by
  refine ⟨fun s hs => ?_⟩
  cases hx : x s with
  | ok a s' => exact .ok (hQ a s' (h.of_ok (hP s hs) hx))
  | error e s' => exact .error (h.of_error (hP s hs) hx)

theorem pre (h : Meets P x Q S) (hP : ∀ s, P' s → P s) : Meets P' x Q S :=
  h.imp hP fun _ _ hQ => hQ

theorem post (h : Meets P x Q S) (hQ : ∀ a s, Q a s → Q' a s) : Meets P x Q' S :=
  h.imp (fun _ hP => hP) hQ

/-- A condition that does not depend on the state is there before the program runs. -/
theorem of_imp {p : Prop} (h : p → Meets P x Q S) : Meets (fun s => p ∧ P s) x Q S :=
  ⟨fun s hs => (h hs.1).ended s hs.2⟩

theorem or_pre (h : Meets P x Q S) (h' : Meets P' x Q S) : Meets (fun s => P s ∨ P' s) x Q S :=
  ⟨fun s hs => hs.elim (h.ended s) (h'.ended s)⟩

/-! ## One rule for each way to build a program -/

protected theorem pure {a : α} (h : ∀ s, P s → Q a s) :
    Meets P (Pure.pure a : EStateM ε σ α) Q S := ⟨fun s hs => .ok (h s hs)⟩

protected theorem get : Meets P (get : EStateM ε σ σ) (fun _ => P) S := ⟨fun _ hs => .ok hs⟩

/-- `get` returns the state, which the rest of the program may have to know. -/
protected theorem get_bind {f : σ → EStateM ε σ α}
    (h : ∀ s₀, P s₀ → Meets (fun s => s = s₀) (f s₀) Q S) : Meets P (get >>= f) Q S :=
  ⟨fun s hs => (h s hs).ended s rfl⟩

protected theorem throw {e : ε} (h : ∀ s, P s → S e s) :
    Meets P (throw e : EStateM ε σ α) Q S := ⟨fun s hs => .error (h s hs)⟩

protected theorem modify {g : σ → σ} {Q : PUnit → σ → Prop} (h : ∀ s, P s → Q ⟨⟩ (g s)) :
    Meets P (modify g : EStateM ε σ PUnit) Q S := ⟨fun s hs => .ok (h s hs)⟩

protected theorem bind {f : α → EStateM ε σ β} {R : β → σ → Prop} (hx : Meets P x Q S)
    (hf : ∀ a, Meets (Q a) (f a) R S) : Meets P (x >>= f) R S := by
  refine ⟨fun s hs => ?_⟩
  rw [bind_apply]
  cases h : x s with
  | ok a t => exact (hf a).ended t (hx.of_ok hs h)
  | error e t => exact .error (hx.of_error hs h)

protected theorem ite {p : Prop} [Decidable p] (hx : p → Meets P x Q S)
    (hy : ¬ p → Meets P y Q S) : Meets P (if p then x else y) Q S := by
  split
  · exact hx ‹_›
  · exact hy ‹_›

/-- A step that is taken only if a condition holds, and the rest of the program. -/
protected theorem when {p : Prop} [Decidable p] {x : EStateM ε σ Unit} {f : Unit → EStateM ε σ α}
    (hx : p → Meets P x (fun _ => P) S) (hf : ∀ a, Meets P (f a) Q S) :
    Meets P (if p then x >>= f else f ()) Q S :=
  .ite (fun h => .bind (hx h) hf) fun _ => hf ()

end Meets

end Exec
