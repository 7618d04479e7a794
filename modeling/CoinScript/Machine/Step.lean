import CoinScript.Machine.Arithmetic
import CoinScript.Machine.Flow
import CoinScript.Machine.Signatures

/-!
# One instruction

`Run.step` follows one instruction.  Whether it is executed or not, its payload and its gate are
checked and it is counted.  Where nothing is executed that is all, except for conditionals, which
have to be followed.  An instruction that is executed also finds the elements that it needs, and a
push has to be the shortest one if that is asked for.
-/

namespace CoinScript.Run

/-- The gate of an operation is open. -/
def checkGate (r : Rules) (op : Opcode) (x : Operation) : Run Unit :=
  match x.gate with
  | .always => return ()
  | .extendedA => require (r.flags.has .extendedA) (.notEnabled op .extendedA)
  | .extendedB => require (r.flags.has .extendedB) (.notEnabled op .extendedB)
  | .never => throw (if x = .disabled then .disabled op else .reserved op)

/-- What holds of every instruction that is executed. -/
def checkExecuted (r : Rules) (i : Instruction) : Run Unit := do
  require (!(r.flags.has .minimalData && decide (i.code ≤ 0x4e)) || i.isMinimal)
    (.notMinimalPush i)
  let depth := (← get).main.length
  require (decide (i.operation.arity ≤ depth))
    (.tooShallow i.code i.operation.arity depth)

/-- Executes the operation of an instruction. -/
def perform (r : Rules) (script : List Instruction) (offset : Nat) (executing : Bool)
    (i : Instruction) : Run Unit :=
  match i.operation with
  | .push => push i.pushValue
  | .flow x => flow r executing i.code x
  | .stack x => stack r x
  | .splice x => splice r x
  | .bitwise x => bitwise i.code x
  | .arithmetic x => arithmetic r i.code x
  | .crypto x => crypto r script offset i.code x
  | .lockTime x => lockTime r i.code x
  | .nop upgradable => nop r i.code upgradable
  | .reserved _ => throw (.reserved i.code)
  | .disabled => throw (.disabled i.code)
  | .invalid => throw (.invalidOpcode i.code)

/-- Follows the instruction at a place of a script. -/
def step (r : Rules) (script : List Instruction) (offset : Nat) (i : Instruction) :
    Run Unit := do
  require (decide (i.data.length ≤ r.limits.maxElementSize))
    (.elementTooLong i.data.length r.limits.maxElementSize)
  checkGate r i.code i.operation
  if 0x60 < i.code then
    countOperations r 1
  let executing := (← get).branches.isExecuting
  if executing || i.isConditional then
    let m ← get
    record (.instruction offset i.code m.main.length m.branches.depth)
    if executing then
      checkExecuted r i
    perform r script offset executing i

end CoinScript.Run
