import CoinScript.Machine.State

/-!
# Steering and lock times

Conditionals, checks, operations that do nothing, and the two checks of lock times, which without
their flag do nothing either.
-/

namespace CoinScript.Run

/-- The operand of a conditional.  It may have to be empty or a single one. -/
def popCondition (r : Rules) : Run Bool := do
  if r.flags.has .minimalIf then
    let b ← pop
    require (decide (b.length ≤ 1)) (.longCondition b.length)
    match b with
    | [x] => require (x == 1) (.oddCondition x)
    | _ => pure ()
    return Number.truth b
  else
    onMain Stack.popTruth

/-- Changes the open conditionals, which may be refused. -/
def onBranches (f : Branches → Except Fault Branches) : Run Unit := do
  let branches ← ofExcept (f (← get).branches)
  modify fun m => { m with branches }

/-- Executes an operation that steers.  Conditionals are followed where nothing is executed too:
one that opens there takes no operand. -/
def flow (r : Rules) (executing : Bool) (op : Opcode) : FlowOp → Run Unit
  | .opening onTrue => do
    if executing then
      let condition ← popCondition r
      onBranches fun b => .ok (b.opening (condition == onTrue))
    else
      onBranches fun b => .ok b.openingSkipped
  | .turning => onBranches Branches.turning
  | .closing => onBranches Branches.closing
  | .verify => verifyTop op
  | .giveUp => throw .gaveUp

/-- Does nothing, unless opcodes that may be given a meaning later are refused. -/
def nop (r : Rules) (op : Opcode) (upgradable : Bool) : Run Unit :=
  require (!(upgradable && r.flags.has .discourageNops)) (.discouragedNop op)

end CoinScript.Run

namespace CoinScript

namespace LockTime

/-- Lock times below this number are heights, from it on they are times. -/
def threshold : Nat := 500000000

/-- A sequence number that makes an input final. -/
def finalSequence : UInt32 := 0xffffffff

/-- The bit of a relative lock time that tells times from heights, as a number. -/
def secondsMark : Nat := 0x400000

/-- The bits of a relative lock time that are its value, as a number. -/
def valueMask : Nat := 0xffff

/-- The bit of a relative lock time that switches it off. -/
def disableBit : Nat := 31

/-- Greatest length of an operand that is a lock time. -/
def operandLength : Nat := 5

/-- A relative lock time: its kind and its value, without the bits that mean nothing. -/
def relativePart (n : Nat) : Nat := n &&& (secondsMark ||| valueMask)

/-- The required lock time is of the same kind as the available one and not above it; `bound`
separates the kinds. -/
def check (bound available required : Nat) : Except Fault Unit :=
  if decide (available < bound) != decide (required < bound) then
    .error (.lockTimeKind available required)
  else if available < required then .error (.lockTimeTooLate required available)
  else .ok ()

end LockTime

namespace Run

open LockTime

/-- The sequence number of the input that is spent. -/
def inputSequence (r : Rules) (c : Context) : Run UInt32 :=
  match c.sequence r.input with
  | some n => pure n
  | none => throw (.inputOutOfRange r.input)

/-- The lock time of the transaction has passed the required one, and the input is not final. -/
def checkAbsolute (r : Rules) (c : Context) (required : Nat) : Run Unit := do
  ofExcept (check threshold c.lockTime.toNat required)
  require ((← inputSequence r c) != finalSequence) .finalInput

/-- The input is as old as required, unless the requirement is switched off. -/
def checkRelative (r : Rules) (c : Context) (required : Nat) : Run Unit := do
  if required.testBit disableBit then
    return ()
  else
    require (decide (2 ≤ c.version)) (.versionTooLow c.version)
    let sequence ← inputSequence r c
    require (!sequence.toNat.testBit disableBit) (.sequenceDisabled sequence)
    ofExcept (check secondsMark (relativePart sequence.toNat) (relativePart required))

/-- The flag that switches a check on. -/
def lockTimeFlag : LockTimeOp → Flag
  | .absolute => .absoluteLockTime
  | .relative => .relativeLockTime

/-- Executes a check of a lock time.  The operand stays on the stack. -/
def lockTime (r : Rules) (op : Opcode) (x : LockTimeOp) : Run Unit := do
  if r.flags.has (lockTimeFlag x) then
    let c ← r.requireContext op
    let n ← onMain (Stack.peekNumber ⟨operandLength, r.flags.has .minimalData⟩ 0)
    require (decide (0 ≤ n)) (.negativeLockTime n)
    match x with
    | .absolute => checkAbsolute r c n.toNat
    | .relative => checkRelative r c n.toNat
  else
    nop r op true

end Run

end CoinScript
