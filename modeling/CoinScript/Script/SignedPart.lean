import CoinScript.Script.Basic

/-!
# The signed part of a script

A signature commits to the running script from the last executed separator on.  For the older
digest the pushes of the signatures themselves are left out of it: those instructions that are the
shortest push of one of them, and no others.
-/

namespace CoinScript

/-- The instructions from number `start` on. -/
def signedPart (script : List Instruction) (start : Nat) : List Instruction := script.drop start

/-- The instruction is the shortest push of one of the signatures.  An empty signature is pushed by
nothing. -/
def Instruction.pushesOneOf (signatures : List Bytes) (i : Instruction) : Bool :=
  signatures.any fun sig => sig != [] && i.isPushOf sig

/-- The bytes of the instructions without the pushes of the signatures. -/
def withoutSignatures (is : List Instruction) (signatures : List Bytes) : Bytes :=
  Script.encode (is.filter fun i => !i.pushesOneOf signatures)

end CoinScript
