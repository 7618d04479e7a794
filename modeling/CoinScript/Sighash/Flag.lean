import CoinScript.Wire.Field

/-!
# Sighash flags

A sighash flag says which parts of a transaction a signature commits to.  It stands in the last
byte of a signature on the stack, and as a 32-bit word in what is hashed.

* The five lowest bits give the base: 2 commits to no output, 3 to the output at the place of the
  input, and everything else to all outputs.
* Bit 7 leaves all other inputs out.
* Bit 6 selects the digest that commits to the spent amount.
-/

namespace CoinScript

/-- Which outputs a signature commits to. -/
inductive SighashBase
  | all
  | none
  | single
deriving DecidableEq, Repr

/-- The name of a base. -/
def SighashBase.name : SighashBase → String
  | all => "All"
  | none => "None"
  | single => "Single"

/-- A sighash flag. -/
structure SighashFlag where
  word : UInt32
deriving DecidableEq, Repr

namespace SighashFlag

/-- All inputs, all outputs and the amount. -/
def allForkId : SighashFlag := ⟨0x41⟩

/-- The flag in the last byte of a signature. -/
def ofByte (b : UInt8) : SighashFlag := ⟨b.toUInt32⟩

/-- The base of a flag; unknown bases commit to all outputs. -/
def base (f : SighashFlag) : SighashBase :=
  if f.word &&& 0x1f = 2 then .none
  else if f.word &&& 0x1f = 3 then .single
  else .all

/-- Other inputs are left out. -/
def anyoneCanPay (f : SighashFlag) : Bool := f.word &&& 0x80 != 0

/-- The digest commits to the spent amount. -/
def hasForkId (f : SighashFlag) : Bool := f.word &&& 0x40 != 0

/-- The flag fits the one byte that a signature has for it. -/
def fitsByte (f : SighashFlag) : Bool := decide (f.word ≤ 0xff)

/-- The flag as it is hashed. -/
def bytes (f : SighashFlag) : Bytes := Wire.u32 f.word

/-- The lowest byte of the flag, as it ends a signature. -/
def toByte (f : SighashFlag) : UInt8 := f.word.toUInt8

/-- What is left of the word without the two bits above the base: the base of a strictly encoded
flag is 1, 2 or 3 by this measure. -/
def strictBase (f : SighashFlag) : UInt32 := f.word &&& ~~~(0x40 ||| 0x80 : UInt32)

end SighashFlag

end CoinScript
