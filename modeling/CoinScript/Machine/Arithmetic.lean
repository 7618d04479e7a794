import CoinScript.Bytes.Bits
import CoinScript.Machine.State

/-!
# Numbers, byte strings and the stack

The operations that take operands from the main stack and put a result there.  What is computed is
a function of the operands alone (`UnaryOp.eval`, `BinaryOp.eval`, `CompareOp.eval`); the steps add
the taking, the checks and the putting.  Operands are taken from the top down, so the second
operand is taken first.
-/

namespace CoinScript

namespace UnaryOp

/-- The result of an operation on one number. -/
def eval : UnaryOp → Int → Int
  | increment, n => n + 1
  | decrement, n => n - 1
  | negate, n => -n
  | abs, n => n.natAbs
  | isZero, n => if n = 0 then 1 else 0
  | isNotZero, n => if n = 0 then 0 else 1

end UnaryOp

namespace BinaryOp

/-- The result of an operation on two numbers. -/
def eval : BinaryOp → Int → Int → Int
  | add, a, b => a + b
  | sub, a, b => a - b
  | mul, a, b => a * b
  | min, a, b => if b < a then b else a
  | max, a, b => if a < b then b else a

end BinaryOp

namespace CompareOp

/-- The outcome of a comparison. -/
def eval : CompareOp → Int → Int → Bool
  | both, a, b => decide (a ≠ 0 ∧ b ≠ 0)
  | either, a, b => decide (a ≠ 0 ∨ b ≠ 0)
  | equal, a, b => decide (a = b)
  | notEqual, a, b => decide (a ≠ b)
  | less, a, b => decide (a < b)
  | greater, a, b => decide (b < a)
  | lessOrEqual, a, b => decide (a ≤ b)
  | greaterOrEqual, a, b => decide (b ≤ a)

end CompareOp

namespace Run

/-- Takes two operands; the second one is on top. -/
def popTwoNumbers (r : Rules) : Run (Int × Int) := do
  let b ← popNumber r
  let a ← popNumber r
  return (a, b)

/-- Shifts by an amount that must not be negative. -/
def shift (r : Rules) (move : Bytes → Nat → Bytes) : Run Unit := do
  let n ← popNumber r
  require (decide (0 ≤ n)) (.negativeShift (Number.clamp 64 n))
  let b ← pop
  push (move b (Number.clamp 64 n).toNat)

/-- Executes an operation on numbers. -/
def arithmetic (r : Rules) (op : Opcode) : ArithmeticOp → Run Unit
  | .unary f => do
    pushNumber (f.eval (← popNumber r))
  | .binary f => do
    let (a, b) ← popTwoNumbers r
    pushNumber (f.eval a b)
  | .quotient => do
    let (a, b) ← popTwoNumbers r
    require (decide (b ≠ 0)) .divisionByZero
    pushNumber (a.tdiv b)
  | .remainder => do
    let (a, b) ← popTwoNumbers r
    require (decide (b ≠ 0)) .remainderByZero
    pushNumber (a.tmod b)
  | .shiftLeft => shift r Bytes.shiftLeft
  | .shiftRight => shift r Bytes.shiftRight
  | .compare f checked => do
    let (a, b) ← popTwoNumbers r
    pushTruth (f.eval a b)
    if checked then verifyTop op
  | .within => do
    let above ← popNumber r
    let least ← popNumber r
    let n ← popNumber r
    pushTruth (decide (least ≤ n ∧ n < above))

/-- Joins the two topmost elements. -/
def cat (r : Rules) : Run Unit := do
  let b ← pop
  let a ← pop
  let size := a.length + b.length
  require (decide (size ≤ r.limits.maxElementSize))
    (.joinTooLong size r.limits.maxElementSize)
  push (a ++ b)

/-- Cuts an element in two. -/
def split (r : Rules) : Run Unit := do
  let n ← popNumber r
  let b ← pop
  let position := Number.clamp 64 n
  require (decide (0 ≤ position ∧ position ≤ b.length)) (.splitOutside position b.length)
  push (b.take position.toNat)
  push (b.drop position.toNat)

/-- Brings a number to a given size. -/
def numToBin (r : Rules) : Run Unit := do
  let n ← popNumber r
  let b ← pop
  require (decide (0 ≤ n)) (.negativeSize (Number.clamp 64 n))
  let size := (Number.clamp 64 n).toNat
  require (decide (size ≤ r.limits.maxElementSize)) (.sizeTooLarge size r.limits.maxElementSize)
  let least := Number.minimize b
  require (decide (least.length ≤ size)) (.valueTooWide least.length size)
  push (if least.length = size then least else Number.widen size least)

/-- Brings a number to its shortest form. -/
def binToNum (r : Rules) : Run Unit := do
  let b ← pop
  let least := Number.minimize b
  require (decide (least.length ≤ r.limits.maxNumberLength))
    (.numberTooWide r.limits.maxNumberLength)
  push least

/-- Executes an operation that cuts or joins. -/
def splice (r : Rules) : SpliceOp → Run Unit
  | .cat => cat r
  | .split => split r
  | .numToBin => numToBin r
  | .binToNum => binToNum r
  | .size => do
    let top ← onMain (Stack.peek 0)
    pushNumber top.length

/-- Combines two elements of one length byte by byte. -/
def combine (f : UInt8 → UInt8 → UInt8) : Run Unit := do
  let b ← pop
  let a ← pop
  require (decide (b.length = a.length)) (.lengthsDiffer a.length b.length)
  push (List.zipWith f b a)

/-- Executes an operation on bits. -/
def bitwise (op : Opcode) : BitwiseOp → Run Unit
  | .invert => do
    push ((← pop).map (~~~ ·))
  | .and => combine (· &&& ·)
  | .or => combine (· ||| ·)
  | .xor => combine (· ^^^ ·)
  | .equal checked => do
    let b ← pop
    let a ← pop
    pushTruth (b == a)
    if checked then verifyTop op

/-- A depth given as an operand. -/
def popIndex (r : Rules) : Run Nat := do
  let n ← popNumber r
  require (decide (0 ≤ n)) (.negativeIndex (Number.clamp 64 n))
  return (Number.clamp 64 n).toNat

/-- Executes an operation that rearranges elements. -/
def stack (r : Rules) : StackOp → Run Unit
  | .toAlt => do
    onAlt (Stack.push (← pop))
  | .fromAlt => do
    push (← onAlt Stack.pop)
  | .drop n => onMain (Stack.drop n)
  | .dup n => onMain (Stack.dup n)
  | .copyOver n => onMain (Stack.copyOver n)
  | .rot n => onMain (Stack.rot n)
  | .swap n => onMain (Stack.swap n)
  | .dupIfTrue => do
    let top ← onMain (Stack.peek 0)
    if Number.truth top then push top
  | .depth => do
    pushNumber (← get).main.length
  | .nip => onMain (Stack.nip 1)
  | .pick => do
    onMain (Stack.pick (← popIndex r))
  | .roll => do
    onMain (Stack.roll (← popIndex r))
  | .tuck => onMain Stack.tuck

end Run

end CoinScript
