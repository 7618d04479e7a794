import CoinScript.Machine.Fault

/-!
# Open conditionals

A conditional has two arms, of which one is taken.  One opened inside an arm that is not executed
takes neither.  Instructions are executed while every open conditional stands in the arm it takes;
the number of those that do not is kept beside them.
-/

namespace CoinScript

/-- An open conditional. -/
structure Branch where
  /-- The arm that is being read is taken. -/
  taken : Bool
  /-- It was opened where nothing is executed, so neither arm can be taken. -/
  skipped : Bool
  /-- The second arm has begun. -/
  turned : Bool
deriving DecidableEq, Repr

/-- The open conditionals, innermost first. -/
structure Branches where
  frames : List Branch
  /-- Number of those whose arm is not taken. -/
  notTaken : Nat
deriving DecidableEq, Repr

namespace Branches

/-- No conditional is open. -/
def none : Branches := ⟨[], 0⟩

/-- Instructions are executed here. -/
def isExecuting (b : Branches) : Bool := b.notTaken == 0

/-- Number of open conditionals. -/
def depth (b : Branches) : Nat := b.frames.length

/-- Opens a conditional. -/
def add (b : Branches) (frame : Branch) : Branches :=
  ⟨frame :: b.frames, if frame.taken then b.notTaken else b.notTaken + 1⟩

/-- Opens a conditional that takes its first arm if `condition` holds. -/
def opening (b : Branches) (condition : Bool) : Branches := b.add ⟨condition, false, false⟩

/-- Opens a conditional where nothing is executed. -/
def openingSkipped (b : Branches) : Branches := b.add ⟨false, true, false⟩

/-- Begins the second arm of the innermost conditional, which must not have begun yet. -/
def turning (b : Branches) : Except Fault Branches :=
  match b.frames with
  | [] => .error .turnOutside
  | frame :: outer =>
    if frame.turned then .error .turnAgain
    else if frame.skipped then .ok { b with frames := { frame with turned := true } :: outer }
    else
      .ok ⟨{ frame with turned := true, taken := !frame.taken } :: outer,
        if frame.taken then b.notTaken + 1 else b.notTaken - 1⟩

/-- Closes the innermost conditional. -/
def closing (b : Branches) : Except Fault Branches :=
  match b.frames with
  | [] => .error .closeOutside
  | frame :: outer => .ok ⟨outer, if frame.taken then b.notTaken else b.notTaken - 1⟩

end Branches

end CoinScript
