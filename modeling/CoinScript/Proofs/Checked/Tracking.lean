import CoinScript.Proofs.Checked.Basic

/-!
# Runs on words and arrays

A step of a run changes a state, and so does the same step on words and arrays.
`Tracks ample I J Q x y` says that `x`, started on a state with the invariant `I`, does what `y` does: it
leaves the same state with the same result, or stops with the same cause on the same state.  If it
succeeds, the state has the invariant `J` and the result the property `Q`.  Only if memory is exhausted
nothing is claimed, and where memory is `ample` it is not.  In particular `x` does not crash.

As with other comparisons, `Tracks.bind` compares two programs part by part; the invariant that one part
leaves is the one that the next part starts on.  What a part computes without the state is lifted by
`checked`.
-/

namespace CoinScript.Checked

variable {ε σ α β : Type} {ample : Prop}

/-- A computation on words and arrays as a step that leaves the state as it is. -/
def checked (x : Checked ε α) : EStateM (Stop ε) σ α := fun s =>
  match x with
  | .ok a => .ok a s
  | .error stop => .error stop s

/-- A step of the program as one on words and arrays.  It uses no operation that has a domain. -/
def lift (x : EStateM ε σ α) : EStateM (Stop ε) σ α := fun s =>
  match x s with
  | .ok a s => .ok a s
  | .error cause s => .error (.refused cause) s

/-- Stops unless a condition holds. -/
def require (condition : Bool) (cause : ε) : EStateM (Stop ε) σ Unit :=
  if condition then pure () else throw (.refused cause)

/-- Two outcomes are the same, up to the exhaustion of memory that is not ample. -/
inductive Same (ample : Prop) (J : σ → Prop) (Q : α → Prop) :
    EStateM.Result (Stop ε) σ α → EStateM.Result ε σ α → Prop
  | ok {a : α} {s : σ} (ha : Q a) (hs : J s) : Same ample J Q (.ok a s) (.ok a s)
  | refused (cause : ε) (s : σ) : Same ample J Q (.error (.refused cause) s) (.error cause s)
  | exhausted (h : ¬ample) (s : σ) (result : EStateM.Result ε σ α) :
    Same ample J Q (.error .exhausted s) result

/-- **The comparison with a step of the program**, from every state with an invariant. -/
def Tracks (ample : Prop) (I J : σ → Prop) (Q : α → Prop) (x : EStateM (Stop ε) σ α)
    (y : EStateM ε σ α) : Prop :=
  ∀ s, I s → Same ample J Q (x s) (y s)

/-- Nothing is claimed of the result. -/
abbrev Any {α : Type} : α → Prop := fun _ => True

variable {I J K : σ → Prop} {P Q : α → Prop} {R : β → Prop} {x : EStateM (Stop ε) σ α}
  {y : EStateM ε σ α}

/-! ## Programs -/

theorem tracks_pure {a : α} (h : Q a) : Tracks (ε := ε) ample I I Q (pure a) (pure a) :=
  fun _ hs => .ok h hs

theorem tracks_throw (cause : ε) : Tracks ample I J Q (throw (.refused cause)) (throw cause) :=
  fun s _ => .refused cause s

theorem Tracks.bind {f : α → EStateM (Stop ε) σ β} {g : α → EStateM ε σ β}
    (hx : Tracks ample I J Q x y) (hf : ∀ a, Q a → Tracks ample J K R (f a) (g a)) :
    Tracks ample I K R (x >>= f) (y >>= g) := by
  intro s hs
  have h := hx s hs
  show Same ample K R (EStateM.bind x f s) (EStateM.bind y g s)
  unfold EStateM.bind
  generalize x s = r at h
  generalize y s = r' at h
  cases h with
  | ok ha hs => exact hf _ ha _ hs
  | refused cause s => exact .refused cause s
  | exhausted h s => exact .exhausted h s _

theorem Tracks.mono (h : Tracks ample I J P x y) (hJ : ∀ s, J s → K s) (hQ : ∀ a, P a → Q a) :
    Tracks ample I K Q x y := by
  intro s hs
  have h := h s hs
  generalize x s = r at h ⊢
  generalize y s = r' at h ⊢
  cases h with
  | ok ha hs => exact .ok (hQ _ ha) (hJ _ hs)
  | refused cause s => exact .refused cause s
  | exhausted h s => exact .exhausted h s _

theorem Tracks.of_imp (h : Tracks ample J K Q x y) (hI : ∀ s, I s → J s) :
    Tracks ample I K Q x y :=
  fun s hs => h s (hI s hs)

/-- What the program is known to leave, besides the invariant. -/
theorem Tracks.and (h : Tracks ample I J Q x y) (hK : ∀ s a s', I s → y s = .ok a s' → K s') :
    Tracks ample I (fun s => J s ∧ K s) Q x y := by
  intro s hs
  have hafter := hK s
  have h := h s hs
  generalize x s = r at h
  generalize y s = r' at h hafter
  cases h with
  | ok ha hs' => exact .ok ha ⟨hs', hafter _ _ hs rfl⟩
  | refused cause s => exact .refused cause s
  | exhausted h s => exact .exhausted h s _

/-- A program that looks at the state. -/
theorem Tracks.get_bind {f : σ → EStateM (Stop ε) σ α} {g : σ → EStateM ε σ α}
    (h : ∀ s, I s → Same ample J Q (f s s) (g s s)) :
    Tracks ample I J Q (get >>= f) (get >>= g) := h

/-- A program that looks at the state where the other one does not. -/
theorem Tracks.of_get {f : σ → EStateM (Stop ε) σ α}
    (h : ∀ s, I s → Tracks ample (fun s' => s' = s) J Q (f s) y) :
    Tracks ample I J Q (get >>= f) y :=
  fun s hs => h s hs s rfl

theorem tracks_modify {f : σ → σ} (h : ∀ s, I s → J (f s)) :
    Tracks (ε := ε) ample I J Any (modify f) (modify f) := fun s hs => .ok trivial (h s hs)

theorem tracks_ite {p : Prop} [Decidable p] {x' : EStateM (Stop ε) σ α} {y' : EStateM ε σ α}
    (hx : p → Tracks ample I J Q x y) (hy : ¬p → Tracks ample I J Q x' y') :
    Tracks ample I J Q (if p then x else x') (if p then y else y') := by
  by_cases h : p
  · rw [if_pos h, if_pos h]
    exact hx h
  · rw [if_neg h, if_neg h]
    exact hy h

/-- A step that is taken on a condition, before the rest of a program. -/
theorem tracks_when {p : Prop} [Decidable p] {x : EStateM (Stop ε) σ Unit} {y : EStateM ε σ Unit}
    {f : Unit → EStateM (Stop ε) σ β} {g : Unit → EStateM ε σ β} (hx : p → Tracks ample I J Any x y)
    (hskip : ∀ s, I s → J s) (hf : Tracks ample J K R (f ()) (g ())) :
    Tracks ample I K R (if p then x >>= f else f ()) (if p then y >>= g else g ()) :=
  tracks_ite (fun h => (hx h).bind fun _ _ => hf) fun _ => hf.of_imp hskip

/-! ## Operations inside their domain -/

theorem checked_ok_bind (a : α) (f : α → EStateM (Stop ε) σ β) :
    (checked (.ok a : Checked ε α) >>= f) = f a := rfl

/-- An operation that has a result. -/
theorem Tracks.of_ok {c : Checked ε β} {b : β} {f : β → EStateM (Stop ε) σ α} (hc : c = .ok b)
    (h : Tracks ample I J Q (f b) y) : Tracks ample I J Q (checked c >>= f) y := by
  rw [hc, checked_ok_bind]
  exact h

/-- Room for an array. -/
theorem Tracks.of_allocate {count size : Nat} {f : Unit → EStateM (Stop ε) σ α}
    (hample : ample → count * size ≤ addressSpace)
    (h : count * size ≤ addressSpace → Tracks ample I J Q (f ()) y) :
    Tracks ample I J Q (checked (allocate count size) >>= f) y := by
  rw [allocate]
  split
  · next hroom => exact h hroom
  · next hroom => exact fun s _ => .exhausted (mt hample hroom) s _

/-- Room that is there for an array that is needed on a condition. -/
theorem Tracks.of_allocate_when {p : Prop} [Decidable p] {count size : Nat}
    {f : Unit → EStateM (Stop ε) σ α} (hroom : count * size ≤ addressSpace)
    (h : Tracks ample I J Q (f ()) y) :
    Tracks ample I J Q (if p then checked (allocate count size) >>= f else f ()) y := by
  split
  · exact .of_allocate (fun _ => hroom) fun _ => h
  · exact h

theorem tracks_lift (h : ∀ s a s', I s → y s = .ok a s' → Q a ∧ J s') :
    Tracks ample I J Q (lift y) y := by
  intro s hs
  unfold lift
  cases hy : y s with
  | ok a s' => exact .ok (h s a s' hs hy).1 (h s a s' hs hy).2
  | error cause s' => exact .refused cause s'

end CoinScript.Checked
