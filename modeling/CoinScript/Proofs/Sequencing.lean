/-!
# Sequences of computations

Readers, stacks and machines are all states that a computation changes until it fails.  What a
sequence of two computations does is told by what they do one after the other: forward in
`bind_of_ok` and `bind_of_error`, and back from an outcome in `bind_eq_ok` and `bind_eq_error`.
-/

namespace CoinScript

variable {ε σ α β : Type} {x : EStateM ε σ α} {f : α → EStateM ε σ β} {s s' : σ}

theorem bind_of_ok {a : α} (h : x s = .ok a s') : (x >>= f) s = f a s' := by
  show EStateM.bind x f s = _
  unfold EStateM.bind
  rw [h]

theorem bind_of_error {cause : ε} (h : x s = .error cause s') :
    (x >>= f) s = .error cause s' := by
  show EStateM.bind x f s = _
  unfold EStateM.bind
  rw [h]

/-- A success of a sequence is a success of both parts. -/
theorem bind_eq_ok {b : β} (h : (x >>= f) s = .ok b s') :
    ∃ a t, x s = .ok a t ∧ f a t = .ok b s' := by
  cases hx : x s with
  | ok a t =>
    rw [bind_of_ok hx] at h
    exact ⟨a, t, rfl, h⟩
  | error cause t =>
    rw [bind_of_error hx] at h
    cases h

/-- A failure of a sequence is a failure of either part. -/
theorem bind_eq_error {cause : ε} (h : (x >>= f) s = .error cause s') :
    x s = .error cause s' ∨ ∃ a t, x s = .ok a t ∧ f a t = .error cause s' := by
  cases hx : x s with
  | ok a t =>
    rw [bind_of_ok hx] at h
    exact .inr ⟨a, t, rfl, h⟩
  | error cause' t =>
    rw [bind_of_error hx] at h
    cases h
    exact .inl rfl

end CoinScript
