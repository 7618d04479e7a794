import CoinScript.Machine.Execute
import CoinScript.Proofs.Sequencing

/-!
# Comparing two runs

Many properties of the machine compare two runs: under other rules, under other limits, with another
transaction.  They have one shape.  Where the first run stops with a fault that the comparison
*excuses* nothing is claimed of the second; otherwise the second does the same as the first.

`Follows excused x y` says this of two computations, for every machine they start from.  The journal
is left out of the comparison: nothing in a run reads it, so two machines that differ in it only are
`Alike`, and `y` may start from any machine alike to the one `x` starts from.

## Composing comparisons

`Follows.bind` compares computations part by part, so that two programs of one form are compared by
comparing their parts.  A program that looks at the machine is compared by `Follows.get_bind`, which
gives both machines and what they have in common.  `follows_throw_of_excused` is where the excused
faults enter.

`Accepts x y` is what is left of a comparison at the end of a run: if `x` succeeds, so does `y`.
-/

namespace CoinScript

/-- The machines agree in everything but the journal. -/
def Machine.Alike (m m' : Machine) : Prop := ∃ journal, m' = { m with journal }

namespace Run

/-- What is asked of the second of two results.  Machines left by a fault are not compared. -/
inductive Answers {α : Type} (excused : Fault → Prop) :
    EStateM.Result Fault Machine α → EStateM.Result Fault Machine α → Prop
  | ok {a : α} {m m' : Machine} (h : m.Alike m') : Answers excused (.ok a m) (.ok a m')
  | error {fault : Fault} {m m' : Machine} : Answers excused (.error fault m) (.error fault m')
  | excused {fault : Fault} {m : Machine} {result : EStateM.Result Fault Machine α}
      (h : excused fault) : Answers excused (.error fault m) result

/-- **The comparison of two computations**: what `x` does, `y` does from every machine alike, unless
`x` stops with a fault that is excused. -/
def Follows {α : Type} (excused : Fault → Prop) (x y : Run α) : Prop :=
  ∀ m m', m.Alike m' → Answers excused (x m) (y m')

variable {α β : Type} {excused : Fault → Prop}

/-! ## Programs -/

theorem follows_pure (a : α) : Follows excused (pure a) (pure a) := fun _ _ h => .ok h

theorem follows_throw (fault : Fault) :
    Follows excused (throw fault : Run α) (throw fault) := fun _ _ _ => .error

theorem follows_throw_of_excused {fault : Fault} (h : excused fault) (y : Run α) :
    Follows excused (throw fault) y := fun _ _ _ => .excused h

/-- What two sequences do, from what their first parts did. -/
theorem Answers.bind {x y : Run α} {f g : α → Run β} {m m' : Machine}
    (hx : Answers excused (x m) (y m')) (hf : ∀ a, Follows excused (f a) (g a)) :
    Answers excused ((x >>= f) m) ((y >>= g) m') := by
  show Answers excused (EStateM.bind x f m) (EStateM.bind y g m')
  unfold EStateM.bind
  generalize x m = r at hx
  generalize y m' = r' at hx
  cases hx with
  | ok hafter => exact hf _ _ _ hafter
  | error => exact .error
  | excused he => exact .excused he

theorem Follows.bind {x y : Run α} {f g : α → Run β} (hx : Follows excused x y)
    (hf : ∀ a, Follows excused (f a) (g a)) : Follows excused (x >>= f) (y >>= g) :=
  fun m m' hm => (hx m m' hm).bind hf

/-- A program that looks at the machine. -/
theorem Follows.get_bind {f g : Machine → Run α}
    (h : ∀ m m', m.Alike m' → Follows excused (f m) (g m')) :
    Follows excused (get >>= f) (get >>= g) :=
  fun m m' hm => h m m' hm m m' hm

/-- A change of the machine that neither looks at the journal nor makes machines differ in more. -/
theorem follows_modify {f : Machine → Machine} (h : ∀ m m', m.Alike m' → (f m).Alike (f m')) :
    Follows excused (modify f) (modify f) := fun m m' hm => .ok (h m m' hm)

theorem follows_ite {p : Prop} [Decidable p] {x y x' y' : Run α}
    (hx : p → Follows excused x x') (hy : ¬p → Follows excused y y') :
    Follows excused (if p then x else y) (if p then x' else y') := by
  by_cases h : p
  · rw [if_pos h, if_pos h]
    exact hx h
  · rw [if_neg h, if_neg h]
    exact hy h

/-! ## The parts of programs -/

theorem follows_onMain (x : StackM α) : Follows excused (onMain x) (onMain x) := by
  rintro m _ ⟨j, rfl⟩
  show Answers excused (onMain x m) (onMain x { m with journal := j })
  unfold onMain
  cases x m.main with
  | ok a s => exact .ok ⟨j, rfl⟩
  | error fault s => exact .error

theorem follows_onAlt (x : StackM α) : Follows excused (onAlt x) (onAlt x) := by
  rintro m _ ⟨j, rfl⟩
  show Answers excused (onAlt x m) (onAlt x { m with journal := j })
  unfold onAlt
  cases x m.alt with
  | ok a s => exact .ok ⟨j, rfl⟩
  | error fault s => exact .error

theorem follows_pop : Follows excused pop pop := follows_onMain _

theorem follows_push (b : Bytes) : Follows excused (push b) (push b) := follows_onMain _

theorem follows_pushNumber (n : Int) : Follows excused (pushNumber n) (pushNumber n) :=
  follows_onMain _

theorem follows_pushTruth (v : Bool) : Follows excused (pushTruth v) (pushTruth v) :=
  follows_onMain _

/-- What the two runs write down may differ. -/
theorem follows_journal (f g : Journal → Journal) :
    Follows excused (modify fun m => { m with journal := f m.journal })
      (modify fun m => { m with journal := g m.journal }) := by
  rintro m _ ⟨j, rfl⟩
  exact .ok ⟨_, rfl⟩

theorem follows_record (e e' : Event) : Follows excused (record e) (record e') :=
  follows_journal (fun j => { j with events := e :: j.events })
    fun j => { j with events := e' :: j.events }

/-- **Where rules differ**: the condition of the second holds if that of the first does, and a
breach of the first is excused. -/
theorem follows_require {c c' : Bool} {fault fault' : Fault} (hc : c = true → c' = true)
    (hfault : c = false → excused fault) :
    Follows excused (require c fault) (require c' fault') := by
  cases c with
  | true =>
    rw [hc rfl]
    exact follows_pure ()
  | false => exact follows_throw_of_excused (hfault rfl) _

theorem follows_require_same (c : Bool) (fault : Fault) :
    Follows excused (require c fault) (require c fault) :=
  follows_ite (fun _ => follows_pure ()) fun _ => follows_throw fault

/-- The same check in front of two programs, which may start from any machines. -/
theorem Answers.require_bind {c : Bool} {fault : Fault} {f g : Unit → Run β} {m m' : Machine}
    (h : c = true → Answers excused (f () m) (g () m')) :
    Answers excused ((require c fault >>= f) m) ((require c fault >>= g) m') := by
  cases c with
  | true => exact h rfl
  | false => exact .error

theorem follows_ofExcept {a b : Except Fault α} (hok : ∀ x, a = .ok x → b = .ok x)
    (herror : ∀ fault, a = .error fault → excused fault ∨ b = .error fault) :
    Follows excused (ofExcept a) (ofExcept b) := by
  cases a with
  | ok x =>
    rw [hok x rfl]
    exact follows_pure x
  | error fault =>
    rcases herror fault rfl with he | hb
    · exact follows_throw_of_excused he _
    · rw [hb]
      exact follows_throw fault

theorem follows_ofExcept_same (a : Except Fault α) :
    Follows excused (ofExcept a) (ofExcept a) :=
  follows_ofExcept (fun _ h => h) fun _ h => .inr h

theorem follows_verifyTop (op : Opcode) : Follows excused (verifyTop op) (verifyTop op) :=
  (follows_onMain _).bind fun v => follows_require_same v _

theorem follows_onBranches (f : Branches → Except Fault Branches) :
    Follows excused (onBranches f) (onBranches f) := by
  refine Follows.get_bind ?_
  rintro m _ ⟨j, rfl⟩
  refine (follows_ofExcept_same (f m.branches)).bind fun b => follows_modify ?_
  rintro m _ ⟨j, rfl⟩
  exact ⟨j, rfl⟩

/-! ## What is accepted -/

/-- If `x` succeeds, so does `y`, from every machine alike. -/
def Accepts (x y : Run α) : Prop :=
  ∀ m m', m.Alike m' → ∀ a after, x m = .ok a after → ∃ b after', y m' = .ok b after'

/-- Every fault of the first run is excused. -/
abbrev AnyFault : Fault → Prop := fun _ => True

theorem Follows.accepts {x y : Run α} (h : Follows AnyFault x y) : Accepts x y := by
  intro m m' hm a after hx
  have hanswer := h m m' hm
  rw [hx] at hanswer
  generalize hy : y m' = r at hanswer
  cases hanswer with
  | ok => exact ⟨a, _, rfl⟩

theorem Follows.bind_accepts {x y : Run α} {f g : α → Run β} (hx : Follows AnyFault x y)
    (hf : ∀ a, Accepts (f a) (g a)) : Accepts (x >>= f) (y >>= g) := by
  intro m m' hm b last hlast
  obtain ⟨a, after, hfirst, hsecond⟩ := bind_eq_ok hlast
  have h := hx m m' hm
  rw [hfirst] at h
  generalize hy : y m' = r at h
  cases h with
  | ok hafter =>
    rw [bind_of_ok hy]
    exact hf a _ _ hafter b last hsecond

theorem Accepts.get_bind {f g : Machine → Run α}
    (h : ∀ m m', m.Alike m' → Accepts (f m) (g m')) : Accepts (get >>= f) (get >>= g) :=
  fun m m' hm => h m m' hm m m' hm

end Run

end CoinScript
