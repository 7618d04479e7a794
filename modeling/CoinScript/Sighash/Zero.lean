import CoinScript.Sighash.Preimage

/-!
# Which hashes of a preimage are zero

A preimage has three hashes over lists of the transaction.  A flag that does not commit to a list
has zero bytes in the place of its hash.  A `ZeroReport` says for a flag, the place of the input and
the number of outputs which of the three are zero and why.  It is what preimages are built by, and
a preimage from elsewhere can be checked against it.
-/

namespace CoinScript

/-- What the hash over outputs commits to. -/
inductive OutputsRule
  | allOutputs
  | matchingOutput
  | noOutputs
  /-- The output beside the input is asked for, and there is none. -/
  | singleOutOfRange
deriving DecidableEq, Repr

/-- Why a hash is zero. -/
inductive ZeroReason
  | anyoneCanPay
  | baseNone
  | baseSingle
  | singleOutOfRange
deriving DecidableEq, Repr

/-- A hash that is zero. -/
structure ZeroField where
  field : PreimageHash
  reason : ZeroReason
deriving DecidableEq, Repr

/-- A hash that is not as expected. -/
structure Mismatch where
  field : PreimageHash
  expectedZero : Bool
deriving DecidableEq, Repr

/-- The hashes that are zero for a flag, an input and a number of outputs. -/
structure ZeroReport where
  flag : SighashFlag
  input : Nat
  outputs : Nat
  rule : OutputsRule
  zeros : List ZeroField
deriving DecidableEq, Repr

namespace OutputsRule

/-- What the hash over outputs commits to, for a flag, an input and a number of outputs. -/
def classify (flag : SighashFlag) (input outputs : Nat) : OutputsRule :=
  match flag.base with
  | .all => allOutputs
  | .none => noOutputs
  | .single => if input < outputs then matchingOutput else singleOutOfRange

/-- The hash over outputs is zero. -/
def isZero : OutputsRule → Bool
  | noOutputs | singleOutOfRange => true
  | allOutputs | matchingOutput => false

end OutputsRule

namespace ZeroReport

/-- Why the hash over sequence numbers is zero, if it is. -/
def sequenceReason (flag : SighashFlag) : Option ZeroReason :=
  if flag.anyoneCanPay then some .anyoneCanPay
  else
    match flag.base with
    | .none => some .baseNone
    | .single => some .baseSingle
    | .all => none

/-- Why the hash over outputs is zero, if it is. -/
def outputsReason : OutputsRule → Option ZeroReason
  | .noOutputs => some .baseNone
  | .singleOutOfRange => some .singleOutOfRange
  | .allOutputs | .matchingOutput => none

/-- Why a hash is zero, if it is. -/
def reasonFor (flag : SighashFlag) (rule : OutputsRule) : PreimageHash → Option ZeroReason
  | .prevouts => if flag.anyoneCanPay then some .anyoneCanPay else none
  | .sequence => sequenceReason flag
  | .outputs => outputsReason rule

/-- The report for a flag, an input and a number of outputs. -/
def forFlag (flag : SighashFlag) (input outputs : Nat) : ZeroReport :=
  let rule := OutputsRule.classify flag input outputs
  { flag, input, outputs, rule
    zeros := PreimageHash.all.filterMap fun field =>
      (reasonFor flag rule field).map fun reason => ⟨field, reason⟩ }

/-- A hash is zero. -/
def isZero (z : ZeroReport) (field : PreimageHash) : Bool := z.zeros.any (·.field == field)

/-- Why a hash is zero. -/
def reason (z : ZeroReport) (field : PreimageHash) : Option ZeroReason :=
  (z.zeros.find? (·.field == field)).map (·.reason)

/-- The hashes of a preimage that are not as the report says. -/
def check (z : ZeroReport) (p : Preimage) : List Mismatch :=
  (PreimageHash.all.filter fun field => z.isZero field != (p.hash field).isZero).map
    fun field => ⟨field, z.isZero field⟩

/-- The reports for the six usual flags, for the first input of a transaction with one output. -/
def table : List ZeroReport :=
  [0x41, 0xc1, 0x42, 0xc2, 0x43, 0xc3].map fun word => forFlag ⟨word⟩ 0 1

end ZeroReport

end CoinScript
