import CoinScript.Machine.Branches
import CoinScript.Machine.Flags
import CoinScript.Machine.Journal
import CoinScript.Machine.Stack
import CoinScript.Script.Basic
import CoinScript.Signature.Scheme

/-!
# The machine

A `Machine` is what changes while a script runs, `Rules` is what does not.  A `Run` is a step of a
run: it changes the machine and may stop with a fault.

The transaction is seen through a `Context` only, so a run is the same for all transactions whose
contexts answer alike.
-/

namespace CoinScript

/-- What a run may ask of the transaction. -/
structure Context where
  /-- The digest that a signature of an input commits to, for the signed part of the script. -/
  digest : (input : Nat) → (scriptCode : Bytes) → (flag : SighashFlag) → (forkId : Bool) →
    Except Failure Hash256
  /-- What happens while that digest is made, in order. -/
  digestEvents : (input : Nat) → (scriptCode : Bytes) → (flag : SighashFlag) →
    (forkId : Bool) → List Event
  lockTime : UInt32
  version : UInt32
  /-- The sequence number of an input, if there is such an input. -/
  sequence : (input : Nat) → Option UInt32

/-- What a run is held to. -/
structure Rules where
  limits : Limits
  flags : Flags
  scheme : Scheme
  context : Option Context
  /-- The input that is spent. -/
  input : Nat

namespace Rules

/-- What operands have to look like. -/
def numberFormat (r : Rules) : Number.Format :=
  ⟨r.limits.maxNumberLength, r.flags.has .minimalData⟩

end Rules

/-- What changes while a script runs. -/
structure Machine where
  main : Stack
  alt : Stack
  branches : Branches
  /-- Number of the first instruction that signatures commit to. -/
  codeStart : Nat
  /-- Operations counted in this script. -/
  operations : Nat
  journal : Journal

/-- A step of a run. -/
abbrev Run (α : Type) := EStateM Fault Machine α

namespace Machine

/-- The machine before the first script. -/
def start : Machine := ⟨[], [], .none, 0, 0, .empty⟩

end Machine

namespace Run

/-- A computation on the main stack. -/
def onMain {α : Type} (x : StackM α) : Run α := fun m =>
  match x m.main with
  | .ok a s => .ok a { m with main := s }
  | .error e s => .error e { m with main := s }

/-- A computation on the alt stack. -/
def onAlt {α : Type} (x : StackM α) : Run α := fun m =>
  match x m.alt with
  | .ok a s => .ok a { m with alt := s }
  | .error e s => .error e { m with alt := s }

/-- Records an event. -/
def record (e : Event) : Run Unit :=
  modify fun m => { m with journal := { m.journal with events := e :: m.journal.events } }

/-- Stops unless a condition holds. -/
def require (condition : Bool) (fault : Fault) : Run Unit :=
  if condition then pure () else throw fault

/-- The outcome of a check as a step. -/
def ofExcept {α : Type} : Except Fault α → Run α
  | .ok a => pure a
  | .error e => throw e

/-- Takes the top as an operand. -/
def popNumber (r : Rules) : Run Int := onMain (Stack.popNumber r.numberFormat)

/-- Takes the top of the main stack. -/
def pop : Run Bytes := onMain Stack.pop

/-- Puts an element on the main stack. -/
def push (b : Bytes) : Run Unit := onMain (Stack.push b)

/-- Puts a number on the main stack. -/
def pushNumber (n : Int) : Run Unit := onMain (Stack.pushNumber n)

/-- Puts a truth value on the main stack. -/
def pushTruth (v : Bool) : Run Unit := onMain (Stack.pushTruth v)

/-- Takes the top, which has to be true; `op` is the opcode that ends in this check. -/
def verifyTop (op : Opcode) : Run Unit := do
  require (← onMain Stack.popTruth) (.checkFailed op)

/-- Counts `n` operations. -/
def countOperations (r : Rules) (n : Nat) : Run Unit := do
  modify fun m => { m with operations := m.operations + n }
  require (decide ((← get).operations ≤ r.limits.maxOps)) (.tooManyOperations r.limits.maxOps)

end Run

/-- The transaction, which has to be there for the opcode. -/
def Rules.requireContext (r : Rules) (op : Opcode) : Run Context :=
  match r.context with
  | some c => pure c
  | none => throw (.missingContext op)

end CoinScript
