import CoinScript.Machine.Step

/-!
# Running scripts

`Run.script` runs one script on the stack it finds.  `Run.spend` runs the unlocking script, then
the locking script on what it left, and requires a true element on top.  A locking script that
names the hash of a script is followed by a third run: the script that the unlocking script pushed
last, on what was below it.

Of one script nothing reaches the next but the main stack: the count of operations, the
conditionals, the place of the separator and the alt stack start afresh.

`execute` gives the verdict on a spend together with the journal of the run.
-/

namespace CoinScript

namespace Run

/-- Follows instructions, of which the first has the given number.  After each one both stacks
together must not be too large. -/
def instructions (r : Rules) (script : List Instruction) :
    (offset : Nat) → List Instruction → Run Unit
  | _, [] => return ()
  | offset, i :: is => do
    step r script offset i
    let m ← get
    let size := m.main.length + m.alt.length
    require (decide (size ≤ r.limits.maxStackSize)) (.tooManyElements size r.limits.maxStackSize)
    instructions r script (offset + 1) is

/-- Runs a script. -/
def script (r : Rules) (is : List Instruction) : Run Unit := do
  modify fun m => { m with branches := .none, codeStart := 0, operations := 0 }
  instructions r is 0 is
  require (decide ((← get).branches.frames = [])) .neverClosed
  modify fun m => { m with alt := [] }

/-- The top of the stack is true. -/
def checkTop : Run Unit := do
  require (decide ((← get).main ≠ [])) .nothingLeft
  require (← onMain (Stack.peekTruth 0)) .falseResult

/-- A script is not too long. -/
def checkSize (r : Rules) (role : ScriptRole) (s : Script) : Run Unit :=
  require (decide (s.length ≤ r.limits.maxScriptSize))
    (.scriptTooLong role s.length r.limits.maxScriptSize)

/-- The instructions of a script, all of which must read as instructions. -/
def parse (s : Script) : Run (List Instruction) := do
  let tail := (Script.scan s).2
  require tail.isEmpty (.truncatedPush (s.length - tail.length) s.length)
  return (Script.scan s).1

/-- No instruction is above the small numbers. -/
def isPushOnly (is : List Instruction) : Bool := is.all fun i => decide (i.code ≤ 0x60)

/-- Runs the script that is the top of the stack which the unlocking script left. -/
def redeem (r : Rules) (left : Stack) : Run Unit := do
  match left with
  | [] => throw .noRedeemScript
  | s :: below =>
    checkSize r .redeem s
    record (.redeeming s.length r.input)
    let is ← parse s
    modify fun m => { m with main := below }
    script r is
    checkTop

/-- Runs the scripts of a spend. -/
def spend (r : Rules) (unlocking locking : Script) : Run Unit := do
  checkSize r .unlocking unlocking
  checkSize r .locking locking
  require (decide (¬(unlocking = [] ∧ locking = []))) .falseResult
  let first ← parse unlocking
  let second ← parse locking
  require (!r.flags.has .pushOnly || isPushOnly first) (.notPushOnly false)
  let byScriptHash := r.flags.has .payToScriptHash && Script.isPayToScriptHash locking
  require (!byScriptHash || isPushOnly first) (.notPushOnly true)
  script r first
  let left := (← get).main
  script r second
  checkTop
  if byScriptHash then
    redeem r left
  let depth := (← get).main.length
  require (!r.flags.has .cleanStack || depth == 1) (.notClean (depth - 1))

end Run

namespace Rules

/-- The rules that a request stands for: the digest with the amount requires strict encodings, and
a clean stack can only be asked for together with locks that name the hash of a script. -/
def effective (r : Rules) : Except Fault Rules :=
  let flags := if r.flags.has .forkId then r.flags.insert .strictEncoding else r.flags
  if flags.has .cleanStack && !flags.has .payToScriptHash then
    .error .cleanStackWithoutScriptHash
  else .ok { r with flags }

end Rules

/-- The verdict on a spend, and what was left in the journal. -/
structure Outcome where
  verdict : Except Fault Unit
  journal : Journal

/-- The events of a run in the order in which they happened. -/
def Outcome.events (o : Outcome) : List Event := o.journal.events.reverse

/-- The digests asked for, in order. -/
def Outcome.requests (o : Outcome) : List DigestRequest := o.journal.requests.reverse

/-- Runs the scripts of a spend from the first machine on. -/
def runSpend (r : Rules) (unlocking locking : Script) (m : Machine) : Outcome :=
  match r.effective with
  | .error fault => ⟨.error fault, m.journal⟩
  | .ok r =>
    match Run.spend r unlocking locking m with
    | .ok () m => ⟨.ok (), m.journal⟩
    | .error fault m => ⟨.error fault, m.journal⟩

/-- The last event of a run. -/
def Event.ofVerdict (input : Nat) : Except Fault Unit → Event
  | .ok () => .verified input
  | .error fault => .failed input fault.failure

/-- The verdict on a spend, with a journal of the whole run. -/
def execute (r : Rules) (unlocking locking : Script) : Outcome :=
  let begun : Event :=
    .started r.input unlocking.length locking.length r.flags.word.toNat
  let o := runSpend r unlocking locking
    { Machine.start with journal := ⟨[begun], []⟩ }
  { o with
    journal := { o.journal with events := .ofVerdict r.input o.verdict :: o.journal.events } }

end CoinScript
