import CoinScript.Proofs.Machine.Trials

/-!
# What a success may change

Often only successes matter.  `Moves R x` says that the computation `x`, wherever it succeeds,
leaves a machine that stands in the relation `R` to the one it started from: it keeps the law that
allows `R` and every failure.

A `Frame` is a relation that allows the elementary changes of all operations but conditionals: of
the two stacks, of the journal, of the place of the separator, and of the count of operations up to
the limit.  Every fact of the form "no operation but a conditional does this" is an instance of
`moves_perform`.
-/

namespace CoinScript

namespace Run

variable {α : Type} {R : Machine → Machine → Prop}

/-- Wherever `x` succeeds it leaves a machine in the relation to the one it started from. -/
def Moves (R : Machine → Machine → Prop) (x : Run α) : Prop :=
  ∀ m a after, x m = .ok a after → R m after

/-- A relation that programs inherit from their parts. -/
structure Chainable (R : Machine → Machine → Prop) : Prop where
  refl : ∀ m, R m m
  trans : ∀ {m m' m''}, R m m' → R m' m'' → R m m''

/-- A relation that allows whatever operations other than conditionals change. -/
structure Frame (limit : Nat) (R : Machine → Machine → Prop) : Prop extends Chainable R where
  main : ∀ m main, R m { m with main }
  alt : ∀ m alt, R m { m with alt }
  journal : ∀ m journal, R m { m with journal }
  codeStart : ∀ m codeStart, R m { m with codeStart }
  count : ∀ m n, m.operations + n ≤ limit → R m { m with operations := m.operations + n }

/-- Leaving the machine as it was is a relation that programs inherit. -/
theorem chainable_eq : Chainable fun m m' => m' = m :=
  ⟨fun _ => rfl, fun h h' => h'.trans h⟩

theorem moves_of_keeps {x : Run α} (h : ∀ m, Keeps (.onSuccess R) x m) : Moves R x :=
  fun m _ _ hok => (h m).moves hok

theorem Chainable.inherited (hR : Chainable R) (r : Rules) : Law.Inherited r (.onSuccess R) where
  refl := hR.refl
  trans := hR.trans
  before _ _ := trivial
  stop _ _ _ := trivial

theorem moves_lockTime (hR : Chainable R) (r : Rules) (op : Opcode) (x : LockTimeOp) :
    Moves R (lockTime r op x) := moves_of_keeps fun _ => keeps_lockTime (hR.inherited r) op x

section

variable {r : Rules} (hR : Frame r.limits.maxOps R)

include hR

theorem Frame.frames : Law.Frames r (.onSuccess R) where
  toInherited := hR.toChainable.inherited r
  main := hR.main
  alt := hR.alt
  count := hR.count
  overcount _ _ _ := trivial

theorem moves_verifyTop (op : Opcode) : Moves R (verifyTop op) :=
  moves_of_keeps fun _ => keeps_verifyTop hR.frames op

theorem moves_popCondition : Moves R (popCondition r) :=
  moves_of_keeps fun _ => keeps_popCondition hR.frames

/-- **Every operation but a conditional keeps to a frame.** -/
theorem moves_perform (script : List Instruction) (offset : Nat) (executing : Bool)
    {i : Instruction} (hi : i.isConditional = false) :
    Moves R (perform r script offset executing i) := by
  refine moves_of_keeps fun m => keeps_perform hR.frames script offset executing i ?_ ?_ ?_
  · intro hconditional
    rw [hi] at hconditional
    cases hconditional
  · exact fun _ => hR.codeStart m _
  · exact fun t _ q _ events => hR.journal t.found _

end

end Run

end CoinScript
