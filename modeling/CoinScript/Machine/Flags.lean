/-!
# Flags and limits

A run is held to rules that are switched on one by one, each by a bit of a word, and to six limits.
Bits without a meaning are kept but change nothing.
-/

namespace CoinScript

/-- A rule that can be switched on. -/
inductive Flag
  /-- A lock that names the hash of a script is opened by running that script. -/
  | payToScriptHash
  /-- Type bytes, signatures and keys have to be encoded strictly. -/
  | strictEncoding
  | derSignatures
  | lowS
  | minimalData
  /-- Exactly one element may be left.  Requires `payToScriptHash`. -/
  | cleanStack
  | pushOnly
  | nullDummy
  | nullFail
  | minimalIf
  | discourageNops
  | absoluteLockTime
  | relativeLockTime
  /-- Signatures commit to the amount.  Implies `strictEncoding`. -/
  | forkId
  | extendedA
  | extendedB
deriving DecidableEq, Repr

namespace Flag

/-- Every flag, lowest bit first. -/
def all : List Flag :=
  [.payToScriptHash, .strictEncoding, .derSignatures, .lowS, .minimalData, .cleanStack,
    .pushOnly, .nullDummy, .nullFail, .minimalIf, .discourageNops, .absoluteLockTime,
    .relativeLockTime, .forkId, .extendedA, .extendedB]

/-- The bit of a flag. -/
def bit : Flag → Nat
  | .payToScriptHash => 0
  | .strictEncoding => 1
  | .derSignatures => 2
  | .lowS => 3
  | .minimalData => 4
  | .cleanStack => 5
  | .pushOnly => 6
  | .nullDummy => 7
  | .nullFail => 8
  | .minimalIf => 9
  | .discourageNops => 10
  | .absoluteLockTime => 11
  | .relativeLockTime => 12
  | .forkId => 13
  | .extendedA => 14
  | .extendedB => 15

end Flag

/-- A set of flags as a word. -/
structure Flags where
  word : BitVec 32
deriving DecidableEq, Repr

namespace Flags

/-- No flag. -/
def none : Flags := ⟨0⟩

/-- The flag is set. -/
def has (f : Flags) (x : Flag) : Bool := f.word.getLsbD x.bit

/-- The set with a flag added. -/
def insert (f : Flags) (x : Flag) : Flags := ⟨f.word ||| (1 <<< x.bit)⟩

/-- The bits of either set. -/
def union (f g : Flags) : Flags := ⟨f.word ||| g.word⟩

/-- The bits of both sets. -/
def inter (f g : Flags) : Flags := ⟨f.word &&& g.word⟩

/-- Every bit of `g` is set in `f`. -/
def includes (f g : Flags) : Bool := f.word &&& g.word == g.word

/-- The set of the given flags. -/
def ofList (xs : List Flag) : Flags := xs.foldl insert none

/-- The flags of a set, lowest bit first. -/
def toList (f : Flags) : List Flag := Flag.all.filter f.has

/-- At least one of the given flags is set. -/
def hasAny (f : Flags) (xs : List Flag) : Bool := xs.any f.has

/-- The flags that ordinary transactions are relayed under. -/
def standard : Flags := ofList (Flag.all.take 14)

end Flags

/-- The bounds of a run. -/
structure Limits where
  /-- Operations above the small numbers, per script. -/
  maxOps : Nat
  /-- Elements on both stacks together. -/
  maxStackSize : Nat
  /-- Bytes of a script. -/
  maxScriptSize : Nat
  /-- Bytes of an element. -/
  maxElementSize : Nat
  /-- Bytes of an operand that is read as a number. -/
  maxNumberLength : Nat
  maxKeysPerMultisig : Nat
deriving DecidableEq, Repr

namespace Limits

/-- The bounds that blocks are held to. -/
def consensus : Limits where
  maxOps := 201
  maxStackSize := 1000
  maxScriptSize := 10000
  maxElementSize := 520
  maxNumberLength := 4
  maxKeysPerMultisig := 20

/-- Wider bounds, for scripts that are evaluated outside blocks. -/
def relaxed : Limits where
  maxOps := 500000
  maxStackSize := 100000
  maxScriptSize := 10000000
  maxElementSize := 1000000
  maxNumberLength := 750000
  maxKeysPerMultisig := 2147483647

end Limits

end CoinScript
