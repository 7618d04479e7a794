import CoinScript.Script.Instruction

/-!
# Operations

What an opcode does, sorted by what it works on.  `Operation.ofCode` gives the operation of every
byte; opcodes that do the same thing to blocks of one, two or three elements are one operation with
the size of the block as its parameter, and the opcodes that end in a check are the operation
without it and a mark.

An operation also has a *gate*, the rule that has to be enabled for it to stand in a script at all,
and an *arity*, the number of elements that it finds on the stack whenever it is executed.
-/

namespace CoinScript

/-- Operations that steer the run. -/
inductive FlowOp
  /-- Opens a conditional whose first arm is taken if the operand equals `onTrue`. -/
  | opening (onTrue : Bool)
  | turning
  | closing
  | verify
  | giveUp
deriving DecidableEq, Repr

/-- Operations that rearrange elements.  The parameter is the number of elements in a block. -/
inductive StackOp
  | toAlt
  | fromAlt
  | drop (n : Nat)
  | dup (n : Nat)
  | copyOver (n : Nat)
  | rot (n : Nat)
  | swap (n : Nat)
  | dupIfTrue
  | depth
  | nip
  | pick
  | roll
  | tuck
deriving DecidableEq, Repr

/-- Operations that cut and join byte strings. -/
inductive SpliceOp
  | cat
  | split
  | numToBin
  | binToNum
  | size
deriving DecidableEq, Repr

/-- Operations on the bits of byte strings. -/
inductive BitwiseOp
  | invert
  | and
  | or
  | xor
  | equal (checked : Bool)
deriving DecidableEq, Repr

/-- Numbers to a number. -/
inductive UnaryOp
  | increment
  | decrement
  | negate
  | abs
  | isZero
  | isNotZero
deriving DecidableEq, Repr

/-- Two numbers to a number. -/
inductive BinaryOp
  | add
  | sub
  | mul
  | min
  | max
deriving DecidableEq, Repr

/-- Two numbers to a truth value. -/
inductive CompareOp
  | both
  | either
  | equal
  | notEqual
  | less
  | greater
  | lessOrEqual
  | greaterOrEqual
deriving DecidableEq, Repr

/-- Operations on numbers, and the two shifts. -/
inductive ArithmeticOp
  | unary (op : UnaryOp)
  | binary (op : BinaryOp)
  | quotient
  | remainder
  | shiftLeft
  | shiftRight
  | compare (op : CompareOp) (checked : Bool)
  | within
deriving DecidableEq, Repr

/-- The hash functions of the machine. -/
inductive HashOp
  | ripemd160
  | sha1
  | sha256
  | hash160
  | hash256
deriving DecidableEq, Repr

/-- Operations on hashes and signatures. -/
inductive CryptoOp
  | hash (op : HashOp)
  | codeSeparator
  | checkSig (checked : Bool)
  | checkMultisig (checked : Bool)
deriving DecidableEq, Repr

/-- The two checks of lock times. -/
inductive LockTimeOp
  | absolute
  | relative
deriving DecidableEq, Repr

/-- What an opcode does. -/
inductive Operation
  | push
  | flow (op : FlowOp)
  | stack (op : StackOp)
  | splice (op : SpliceOp)
  | bitwise (op : BitwiseOp)
  | arithmetic (op : ArithmeticOp)
  | crypto (op : CryptoOp)
  | lockTime (op : LockTimeOp)
  /-- Does nothing; an upgradable one may be given a meaning later. -/
  | nop (upgradable : Bool)
  /-- Fails when executed or, if `always`, wherever it stands. -/
  | reserved (always : Bool)
  | disabled
  | invalid
deriving DecidableEq, Repr

/-- What has to hold for an operation to stand in a script, executed or not. -/
inductive Gate
  | always
  | extendedA
  | extendedB
  | never
deriving DecidableEq, Repr

/-- The name of a gate. -/
def Gate.name : Gate → String
  | always => "Always"
  | extendedA => "ExtendedA"
  | extendedB => "ExtendedB"
  | never => "Never"

namespace Operation

/-- The name of the family that an operation belongs to. -/
def family : Operation → String
  | push => "Push"
  | flow _ => "FlowControl"
  | stack _ => "Stack"
  | splice _ => "Splice"
  | bitwise _ => "Bitwise"
  | arithmetic _ => "Arithmetic"
  | crypto _ => "Crypto"
  | lockTime _ => "LockTime"
  | nop _ => "Nop"
  | reserved _ => "Reserved"
  | disabled => "Disabled"
  | invalid => "Invalid"

/-- The operations of `0x4f` to `0xb9`, in order. -/
def table : List Operation :=
  [push, reserved false] ++ List.replicate 16 push ++
  [nop false, reserved false, flow (.opening true), flow (.opening false), reserved true,
    reserved true, flow .turning, flow .closing, flow .verify, flow .giveUp] ++
  [stack .toAlt, stack .fromAlt, stack (.drop 2), stack (.dup 2), stack (.dup 3),
    stack (.copyOver 2), stack (.rot 2), stack (.swap 2), stack .dupIfTrue, stack .depth,
    stack (.drop 1), stack (.dup 1), stack .nip, stack (.copyOver 1), stack .pick, stack .roll,
    stack (.rot 1), stack (.swap 1), stack .tuck] ++
  [splice .cat, splice .split, splice .numToBin, splice .binToNum, splice .size] ++
  [bitwise .invert, bitwise .and, bitwise .or, bitwise .xor, bitwise (.equal false),
    bitwise (.equal true), reserved false, reserved false] ++
  [arithmetic (.unary .increment), arithmetic (.unary .decrement), disabled, disabled,
    arithmetic (.unary .negate), arithmetic (.unary .abs), arithmetic (.unary .isZero),
    arithmetic (.unary .isNotZero), arithmetic (.binary .add), arithmetic (.binary .sub),
    arithmetic (.binary .mul), arithmetic .quotient, arithmetic .remainder,
    arithmetic .shiftLeft, arithmetic .shiftRight, arithmetic (.compare .both false),
    arithmetic (.compare .either false), arithmetic (.compare .equal false),
    arithmetic (.compare .equal true), arithmetic (.compare .notEqual false),
    arithmetic (.compare .less false), arithmetic (.compare .greater false),
    arithmetic (.compare .lessOrEqual false), arithmetic (.compare .greaterOrEqual false),
    arithmetic (.binary .min), arithmetic (.binary .max), arithmetic .within] ++
  [crypto (.hash .ripemd160), crypto (.hash .sha1), crypto (.hash .sha256),
    crypto (.hash .hash160), crypto (.hash .hash256), crypto .codeSeparator,
    crypto (.checkSig false), crypto (.checkSig true), crypto (.checkMultisig false),
    crypto (.checkMultisig true)] ++
  [nop true, lockTime .absolute, lockTime .relative] ++ List.replicate 7 (nop true)

/-- The operation of an opcode. -/
def ofCode (op : Opcode) : Operation :=
  if op < 0x4f then push else table[op.toNat - 0x4f]?.getD invalid

/-- The operation opens, turns or closes a conditional, and so is followed in arms that are not
executed too. -/
def isConditional : Operation → Bool
  | flow (.opening _) | flow .turning | flow .closing => true
  | _ => false

/-- The gate of an operation. -/
def gate : Operation → Gate
  | splice .size => .always
  | splice _ => .extendedA
  | bitwise .invert => .extendedB
  | bitwise .and | bitwise .or | bitwise .xor => .extendedA
  | arithmetic (.binary .mul) | arithmetic .shiftLeft | arithmetic .shiftRight => .extendedB
  | arithmetic .quotient | arithmetic .remainder => .extendedA
  | reserved true | disabled => .never
  | _ => .always

/-- Number of elements that the operation finds on the main stack. -/
def arity : Operation → Nat
  | flow (.opening _) | flow .verify => 1
  | stack .toAlt | stack .dupIfTrue | stack .pick | stack .roll => 1
  | stack (.drop n) | stack (.dup n) => n
  | stack .nip | stack .tuck => 2
  | stack (.copyOver n) | stack (.swap n) => 2 * n
  | stack (.rot n) => 3 * n
  | splice .cat | splice .split | splice .numToBin => 2
  | splice .binToNum | splice .size => 1
  | bitwise .invert => 1
  | bitwise _ => 2
  | arithmetic (.unary _) => 1
  | arithmetic .within => 3
  | arithmetic _ => 2
  | crypto (.hash _) => 1
  | crypto (.checkSig _) => 2
  | crypto (.checkMultisig _) => 1
  | disabled => 1
  | _ => 0

end Operation

namespace Instruction

/-- The operation of an instruction. -/
def operation (i : Instruction) : Operation := .ofCode i.code

/-- The instruction opens, turns or closes a conditional. -/
def isConditional (i : Instruction) : Bool := i.operation.isConditional

/-- What a push puts on the stack: a small number, or the payload. -/
def pushValue (i : Instruction) : Bytes :=
  if i.code = 0x4f then [0x81]
  else if 0x51 ≤ i.code ∧ i.code ≤ 0x60 then [i.code - 0x50]
  else i.data

/-- The opcode that alone puts the byte string on the stack, if there is one. -/
def bareCode? : Bytes → Option Opcode
  | [] => some 0x00
  | [b] => if 1 ≤ b ∧ b ≤ 16 then some (0x50 + b) else if b = 0x81 then some 0x4f else none
  | _ => none

/-- The opcode of the shortest instruction that puts the byte string on the stack. -/
def minimalCode (b : Bytes) : Opcode := (bareCode? b).getD (.forPush b.length)

/-- A push does so in the shortest way. -/
def isMinimal (i : Instruction) : Bool := i.code == minimalCode i.data

end Instruction

end CoinScript
