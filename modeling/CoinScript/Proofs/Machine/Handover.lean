import CoinScript.Proofs.Machine.Acceptance
import CoinScript.Proofs.Machine.Places

/-!
# What the unlocking script hands over

The two scripts of a spend are run one after the other on one machine.  Nothing of what the first
did should reach the second but the main stack: not the alt stack, the operations it counted, its
conditionals or the place of its separator.  `verdict_eq_of_prepares` says so: two unlocking scripts
that pass their own checks and leave the same main stack are given the same verdict, with every
locking script but the empty one.

The empty locking script is left out because with it an unlocking script that is empty as well is
refused, whereas one that is not is run, and may leave an empty stack too.

## The two halves of a spend

`Run.afterUnlocking` is what a spend still does once its unlocking script has been run.  It starts
from a stack, not from a script: `verdict_of_prepares` gives the verdict on a spend as
`Rules.opens`, the verdict of that half when it is started with a fresh machine and the stack that
was left.  A script begins by resetting everything but the two stacks (`answers_script`) and ends by
emptying the alt stack, so a fresh machine is as good as the one that the unlocking script left.

## Acceptance

For the same reason an accepted spend can be told by its stacks alone.  `Rules.leavesOn` is what a
script leaves of a stack on which it is started, `Rules.StackPath` chains what the scripts of a
spend leave, and `execute_ok_iff_stackPath` says that a spend is accepted exactly if there is such a
chain.
-/

namespace CoinScript

/-- A machine with a main stack and nothing else. -/
def Machine.startOn (main : Stack) : Machine := { Machine.start with main }

namespace Rules

/-- The main stack that a script leaves, started on the given one with an empty alt stack. -/
def leavesOn (r : Rules) (main : Stack) (s : Script) : Option Stack :=
  match Run.script r (Script.scan s).1 (.startOn main) with
  | .ok () m => some m.main
  | .error _ _ => none

/-- The unlocking script passes its own checks in a spend of the locking script, and leaves a
stack. -/
structure Prepares (r : Rules) (unlocking locking : Script) (left : Stack) : Prop where
  size : unlocking.length ≤ r.limits.maxScriptSize
  parses : (Script.scan unlocking).2 = []
  pushOnly : r.flags.has .pushOnly = true ∨ Run.byScriptHash r locking = true →
    Run.isPushOnly (Script.scan unlocking).1 = true
  leaves : r.leaves unlocking = some left

/-- A script that passes its checks runs to its end on a stack, and leaves a stack with a true
element on top. -/
structure Passes (r : Rules) (main : Stack) (s : Script) (left : Stack) : Prop where
  size : s.length ≤ r.limits.maxScriptSize
  parses : (Script.scan s).2 = []
  leaves : r.leavesOn main s = some left
  top : ∃ top rest, left = top :: rest ∧ Number.truth top = true

/-- The stacks that a successful spend goes through: after the unlocking script, after the locking
script and at the end. -/
structure StackPath (r : Rules) (unlocking locking : Script) (left locked last : Stack) : Prop where
  prepares : r.Prepares unlocking locking left
  locks : r.Passes left locking locked
  redeems : Run.byScriptHash r locking = true → ∃ s below, left = s :: below ∧ r.Passes below s last
  ends : Run.byScriptHash r locking = false → last = locked
  clean : r.flags.has .cleanStack = true → last.length = 1

end Rules

namespace Run

variable {r : Rules} {m m' : Machine} {unlocking locking : Script} {left : Stack}

/-! ## A script on its own -/

/-- **A script finds nothing but the stacks.**  Machines with the same two stacks are alike to it,
whatever else is in them. -/
theorem answers_script (hmain : m'.main = m.main) (halt : m'.alt = m.alt)
    (is : List Instruction) :
    Answers (fun _ => False) (script r is m) (script r is m') := by
  have hfresh : m.afresh.Alike m'.afresh := by
    refine ⟨m'.journal, ?_⟩
    unfold Machine.afresh
    rw [hmain, halt]
  -- the first thing a script does is to make the machine fresh
  exact follows_script (Rules.looser_refl _ r) is m.afresh m'.afresh hfresh

/-- What a script leaves is what it leaves of every machine with the same main stack and an empty
alt stack. -/
theorem leavesOn_eq_some_iff {s : Script} (halt : m.alt = []) :
    r.leavesOn m.main s = some left ↔
      ∃ after, script r (Script.scan s).1 m = .ok () after ∧ after.main = left := by
  have hanswers : Answers (fun _ => False)
      (script r (Script.scan s).1 (.startOn m.main))
      (script r (Script.scan s).1 m) := by
    refine answers_script ?_ halt _
    rfl
  unfold Rules.leavesOn
  generalize script r (Script.scan s).1 (.startOn m.main) = fresh at hanswers
  generalize script r (Script.scan s).1 m = found at hanswers
  cases hanswers with
  | ok halike =>
    obtain ⟨journal, rfl⟩ := halike
    simp
  | error => simp
  | excused h => exact h.elim

theorem leavesOn_of_script {s : Script} {after : Machine} (halt : m.alt = [])
    (h : script r (Script.scan s).1 m = .ok () after) : r.leavesOn m.main s = some after.main :=
  (leavesOn_eq_some_iff halt).mpr ⟨after, h, rfl⟩

theorem alt_of_script {is : List Instruction} {after : Machine}
    (h : script r is m = .ok () after) : after.alt = [] := by
  obtain ⟨m', -, -, rfl⟩ := script_eq_ok h
  rfl

/-- The run of an unlocking script that passes its checks. -/
theorem script_of_prepares (h : r.Prepares unlocking locking left) (hm : m.Alike .start) :
    ∃ opened, script r (Script.scan unlocking).1 m = .ok () opened ∧ opened.main = left ∧
      opened.alt = [] := by
  obtain ⟨journal, hstart⟩ := hm
  have hmain : m.main = [] := (congrArg Machine.main hstart).symm
  have halt : m.alt = [] := (congrArg Machine.alt hstart).symm
  have hleaves : r.leavesOn m.main unlocking = some left := by
    rw [hmain]
    exact h.leaves
  obtain ⟨opened, hopened, hleft⟩ := (leavesOn_eq_some_iff halt).mp hleaves
  exact ⟨opened, hopened, hleft, alt_of_script hopened⟩

/-! ## A spend after its unlocking script -/

/-- The parse of a script in front of two programs, which may start from any machines. -/
theorem Answers.parse_bind {α : Type} {excused : Fault → Prop} {s : Script}
    {f g : List Instruction → Run α}
    (h : (Script.scan s).2 = [] →
      Answers excused (f (Script.scan s).1 m) (g (Script.scan s).1 m')) :
    Answers excused ((parse s >>= f) m) ((parse s >>= g) m') := by
  unfold parse
  rw [bind_assoc, bind_assoc]
  exact Answers.require_bind fun htail => h (by simpa using htail)

/-- What a spend does after its unlocking script, started on the stack which that left. -/
def afterUnlocking (r : Rules) (locking : Script) : Run Unit := do
  checkSize r .locking locking
  let second ← parse locking
  let left := (← get).main
  script r second
  checkTop
  if byScriptHash r locking then
    redeem r left
  let depth := (← get).main.length
  require (!r.flags.has .cleanStack || depth == 1) (.notClean (depth - 1))

/-- **The first half of a spend only prepares the second.**  A spend whose unlocking script passes
its checks does what is done after it, on the stack that was left. -/
theorem answers_spend (h : r.Prepares unlocking locking left) (hne : locking ≠ [])
    (hm : m.Alike .start) :
    Answers (fun _ => False) (spend r unlocking locking m)
      (afterUnlocking r locking (.startOn left)) := by
  obtain ⟨opened, hopened, hleft, halt⟩ := script_of_prepares h hm
  have hpushOnly : (!r.flags.has .pushOnly || isPushOnly (Script.scan unlocking).1) = true :=
    or_of_imp fun hflag => h.pushOnly (.inl hflag)
  have hnamed : (!byScriptHash r locking || isPushOnly (Script.scan unlocking).1) = true :=
    or_of_imp fun hflag => h.pushOnly (.inr hflag)
  have hnotEmpty : ¬(unlocking = [] ∧ locking = []) := fun hempty => hne hempty.2
  unfold spend
  rw [checkSize, require_bind_of_true (decide_eq_true h.size)]
  refine Answers.require_bind fun _ => ?_
  rw [require_bind_of_true (decide_eq_true hnotEmpty),
    bind_of_ok (parse_of_tail h.parses m)]
  refine Answers.parse_bind fun _ => ?_
  rw [require_bind_of_true hpushOnly]
  show Answers _ ((require (!byScriptHash r locking || isPushOnly _) _ >>= fun _ => _) m) _
  rw [require_bind_of_true hnamed, bind_of_ok hopened]
  -- both halves now run the locking script, on machines with the same stacks
  show Answers _ ((script r (Script.scan locking).1 >>= fun _ => _) opened)
    ((script r (Script.scan locking).1 >>= fun _ => _) (.startOn left))
  refine (answers_script hleft.symm halt.symm _).bind fun _ =>
    follows_checkTop.bind fun _ => ?_
  rw [hleft]
  exact follows_finish (Rules.looser_refl _ r) rfl _ left

end Run

namespace Rules

/-- The verdict on a spend of a locking script, given the stack that the unlocking script left. -/
def opens (r : Rules) (left : Stack) (locking : Script) : Except Fault Unit :=
  verdictOf (Run.afterUnlocking r locking (.startOn left))

end Rules

/-- The verdict on a spend whose unlocking script passes its own checks is read off the stack which
that left. -/
theorem verdict_of_prepares {r e : Rules} {unlocking locking : Script} {left : Stack}
    (he : r.effective = .ok e) (h : e.Prepares unlocking locking left) (hne : locking ≠ []) :
    (execute r unlocking locking).verdict = e.opens left locking := by
  rw [verdict_of_effective he]
  have hbegun : (Machine.begun r unlocking locking).Alike .start := ⟨.empty, rfl⟩
  rcases (Run.answers_spend h hne hbegun).verdictOf with hsame | ⟨fault, hfalse, -⟩
  · exact hsame
  · exact hfalse.elim

/-- **The unlocking script influences the locking script only through the main stack.**  Of two
unlocking scripts that pass the checks in force and leave the same main stack, the verdicts are the
same, whatever else they did to the machine. -/
theorem verdict_eq_of_prepares (r : Rules) (unlocking₁ unlocking₂ locking : Script) (left : Stack)
    (hne : locking ≠ [])
    (h₁ : ∀ e, r.effective = .ok e → e.Prepares unlocking₁ locking left)
    (h₂ : ∀ e, r.effective = .ok e → e.Prepares unlocking₂ locking left) :
    (execute r unlocking₁ locking).verdict = (execute r unlocking₂ locking).verdict := by
  cases he : r.effective with
  | error fault =>
    -- the rules are refused before any script is looked at
    rw [verdict_of_effective_error he, verdict_of_effective_error he]
  | ok e =>
    rw [verdict_of_prepares he (h₁ e he) hne, verdict_of_prepares he (h₂ e he) hne]

/-- `1 IF CODESEPARATOR 1 TOALTSTACK 1 ENDIF` leaves what `1` leaves, and so `DEPTH EQUAL` answers
both alike: there is one element, which is the number one. -/
theorem one_as_conditional_one :
    (execute ⟨.consensus, .ofList [.payToScriptHash, .cleanStack], .secp256k1, none, 0⟩
        [0x51] [0x74, 0x87]).verdict =
      (execute ⟨.consensus, .ofList [.payToScriptHash, .cleanStack], .secp256k1, none, 0⟩
        [0x51, 0x63, 0xab, 0x51, 0x6b, 0x51, 0x68] [0x74, 0x87]).verdict := by
  refine verdict_eq_of_prepares _ _ _ _ [[1]] (by decide) (fun e he => ?_) (fun e he => ?_)
  · obtain ⟨rfl, -⟩ := Rules.effective_eq_ok_iff.mp he
    exact ⟨by decide, by decide +kernel, by decide +kernel, by decide +kernel⟩
  · obtain ⟨rfl, -⟩ := Rules.effective_eq_ok_iff.mp he
    exact ⟨by decide, by decide +kernel, by decide +kernel, by decide +kernel⟩

/-! ## Acceptance -/

namespace Run

variable {r : Rules} {m opened locked after : Machine} {unlocking locking s : Script}

/-- The named script is run on the rest of the stack. -/
theorem redeem_of_passes {below last : Stack} (halt : m.alt = []) (h : r.Passes below s last) :
    ∃ after, redeem r (s :: below) m = .ok () after ∧ after.main = last := by
  obtain ⟨top, rest, hlast, htop⟩ := h.top
  have hrun : ∀ m' : Machine, m'.main = below → m'.alt = [] →
      ∃ after, (script r (Script.scan s).1 >>= fun _ => checkTop) m' = .ok () after ∧
        after.main = last := by
    intro m' hmain halt
    have hleaves : r.leavesOn m'.main s = some last := by
      rw [hmain]
      exact h.leaves
    obtain ⟨after, hafter, hleft⟩ := (leavesOn_eq_some_iff halt).mp hleaves
    refine ⟨after, ?_, hleft⟩
    rw [bind_of_ok hafter]
    exact checkTop_of_main (hleft.trans hlast) htop
  unfold redeem
  dsimp only
  rw [checkSize, require_bind_of_true (decide_eq_true h.size)]
  show ∃ after, (parse s >>= fun is => _) { m with journal := _ } = .ok () after ∧ after.main = last
  rw [bind_of_ok (parse_of_tail h.parses _)]
  exact hrun _ rfl halt

/-- The stacks of a successful spend. -/
theorem SpendPath.stackPath (h : SpendPath r unlocking locking m opened locked after)
    (hm : m.Alike .start) :
    r.StackPath unlocking locking opened.main locked.main after.main where
  prepares := ⟨h.unlocking_size, h.unlocking_tail, h.pushOnly, Rules.leaves_of_script hm h.unlocks⟩
  locks := by
    obtain ⟨⟨top, rest, hmain, htop⟩, -⟩ := checkTop_eq_ok h.top
    exact ⟨h.locking_size, h.locking_tail, leavesOn_of_script (alt_of_script h.unlocks) h.locks,
      top, rest, hmain, htop⟩
  redeems hnamed := by
    obtain ⟨s, below, journal, hleft, hsize, htail, hrun, hcheck⟩ := redeem_eq_ok (h.redeems hnamed)
    obtain ⟨⟨top, rest, hmain, htop⟩, -⟩ := checkTop_eq_ok hcheck
    have halt : locked.alt = [] := alt_of_script h.locks
    exact ⟨s, below, hleft, hsize, htail,
      leavesOn_of_script (m := { locked with main := below, journal }) halt hrun,
      top, rest, hmain, htop⟩
  ends hnamed := by rw [h.ends hnamed]
  clean := h.clean

/-- A spend succeeds if there are such stacks. -/
theorem spend_of_stackPath {left locked last : Stack} (hm : m.Alike .start) (hne : locking ≠ [])
    (h : r.StackPath unlocking locking left locked last) :
    ∃ after, spend r unlocking locking m = .ok () after := by
  obtain ⟨opened, hunlocks, hleft, hopenedAlt⟩ := script_of_prepares h.prepares hm
  have hleaves : r.leavesOn opened.main locking = some locked := by
    rw [hleft]
    exact h.locks.leaves
  obtain ⟨middle, hlocks, hmiddle⟩ := (leavesOn_eq_some_iff hopenedAlt).mp hleaves
  obtain ⟨top, rest, hlocked, htop⟩ := h.locks.top
  -- the machine at the end is that of the named script if there is one
  have hend : ∃ after, (byScriptHash r locking = true → redeem r opened.main middle = .ok () after) ∧
      (byScriptHash r locking = false → after = middle) ∧ after.main = last := by
    cases hnamed : byScriptHash r locking with
    | true =>
      obtain ⟨s, below, hcons, hpasses⟩ := h.redeems hnamed
      obtain ⟨after, hredeem, hafter⟩ := redeem_of_passes (alt_of_script hlocks) hpasses
      rw [hleft, hcons]
      exact ⟨after, fun _ => hredeem, fun hfalse => (by cases hfalse), hafter⟩
    | false =>
      exact ⟨middle, fun hfalse => (by cases hfalse), fun _ => rfl,
        hmiddle.trans (h.ends hnamed).symm⟩
  obtain ⟨after, hredeems, hends, hafter⟩ := hend
  refine ⟨after, spend_of_path {
    unlocking_size := h.prepares.size
    locking_size := h.locks.size
    not_empty := fun hempty => hne hempty.2
    unlocking_tail := h.prepares.parses
    locking_tail := h.locks.parses
    pushOnly := h.prepares.pushOnly
    unlocks := hunlocks
    locks := hlocks
    top := checkTop_of_main (hmiddle.trans hlocked) htop
    redeems := hredeems
    ends := hends
    clean := fun hflag => ?_ }⟩
  rw [hafter]
  exact h.clean hflag

end Run

/-- **A spend is accepted exactly if its scripts leave the right stacks**, each started on its own
under the rules in force. -/
theorem execute_ok_iff_stackPath {r e : Rules} {unlocking locking : Script}
    (he : r.effective = .ok e) (hne : locking ≠ []) :
    (execute r unlocking locking).verdict = .ok () ↔
      ∃ left locked last, e.StackPath unlocking locking left locked last := by
  have hbegun : (Machine.begun r unlocking locking).Alike .start := ⟨.empty, rfl⟩
  rw [execute_ok_iff]
  constructor
  · rintro ⟨e', after, he', hrun⟩
    obtain rfl : e' = e := by
      rw [he] at he'
      exact (Except.ok.inj he').symm
    obtain ⟨opened, locked, hpath⟩ := Run.spend_eq_ok hrun
    exact ⟨opened.main, locked.main, after.main, hpath.stackPath hbegun⟩
  · rintro ⟨left, locked, last, hpath⟩
    obtain ⟨after, hrun⟩ := Run.spend_of_stackPath hbegun hne hpath
    exact ⟨e, after, he, hrun⟩

end CoinScript
