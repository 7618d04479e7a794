import CoinScript.Machine.Journal
import CoinScript.Sighash.Zero

/-!
# The digests that signatures commit to

There are two.  `Transaction.amountDigest` hashes a `Preimage` and commits to the spent amount;
`Transaction.legacyDigest` hashes the transaction with parts of it left out or blanked.  Which one
is meant is a bit of the flag; `Transaction.inputDigest` chooses by it.

Beside each digest stands the list of events that happen while it is made.
-/

namespace CoinScript

namespace Transaction

/-! ## The digest with the amount -/

/-- The hash over all outpoints. -/
def prevoutsHash (tx : Transaction) : Hash256 :=
  sha256d (tx.inputs.flatMap fun i => i.outpoint.encode)

/-- The hash over all sequence numbers. -/
def sequenceHash (tx : Transaction) : Hash256 :=
  sha256d (tx.inputs.flatMap fun i => Wire.u32 i.sequence)

/-- The hash over outputs, for what it commits to. -/
def outputsHash (tx : Transaction) (index : Nat) : OutputsRule → Hash256
  | .allOutputs => sha256d (tx.outputs.flatMap Output.encode)
  | .matchingOutput => sha256d ((tx.outputs[index]?.map Output.encode).getD [])
  | .noOutputs | .singleOutOfRange => .zero 32

/-- The preimage for an input, which is given with its place. -/
def preimageOf (tx : Transaction) (index : Nat) (input : Input) (scriptCode : Bytes)
    (amount : UInt64) (flag : SighashFlag) : Preimage :=
  let report := ZeroReport.forFlag flag index tx.outputs.length
  { version := tx.version
    prevoutsHash := if report.isZero .prevouts then .zero 32 else tx.prevoutsHash
    sequenceHash := if report.isZero .sequence then .zero 32 else tx.sequenceHash
    outpoint := input.outpoint
    lengthWidth := VarInt.size scriptCode.length
    scriptCode
    amount
    sequence := input.sequence
    outputsHash := tx.outputsHash index report.rule
    lockTime := tx.lockTime
    flag }

/-- The input that is signed, if it exists and the flag fits the byte that it ends in. -/
def signedInput (tx : Transaction) (index : Nat) (flag : SighashFlag) :
    Except TransactionError Input := do
  let input ← tx.input index
  if flag.fitsByte then return input else throw (.wideFlag flag)

/-- The preimage of a signature for the input at a place. -/
def preimage (tx : Transaction) (index : Nat) (scriptCode : Bytes) (amount : UInt64)
    (flag : SighashFlag) : Except TransactionError Preimage := do
  let input ← tx.signedInput index flag
  return tx.preimageOf index input scriptCode amount flag

/-- The digest that commits to the spent amount. -/
def amountDigest (tx : Transaction) (index : Nat) (scriptCode : Bytes) (amount : UInt64)
    (flag : SighashFlag) : Except TransactionError Hash256 := do
  return sha256d (← tx.preimage index scriptCode amount flag).encode

/-- What happens while the preimage is made. -/
def preimageEvents (tx : Transaction) (index : Nat) (scriptCode : Bytes) (amount : UInt64)
    (flag : SighashFlag) : List Event :=
  match tx.preimage index scriptCode amount flag with
  | .error _ => []
  | .ok p =>
    (if OutputsRule.classify flag index tx.outputs.length = .singleOutOfRange then
      [.noOutputBeside index tx.outputs.length] else []) ++
    [.preimage p.encode.length index flag.base flag.anyoneCanPay]

/-! ## The older digest -/

/-- The script without its separators.  A tail that does not read as an instruction stays. -/
def withoutSeparators (s : Script) : Script :=
  Script.encode ((Script.scan s).1.filter fun i => i.code != 0xab) ++ (Script.scan s).2

/-- The bytes of an input for the older digest: only the signed one keeps a script, and the others
keep their sequence numbers only if all outputs are committed to. -/
def legacyInput (base : SighashBase) (code : Bytes) (signed : Bool) (i : Input) : Bytes :=
  i.outpoint.encode ++
    if signed then Wire.varBytes code ++ Wire.u32 i.sequence
    else Wire.varBytes [] ++ Wire.u32 (if base = .all then i.sequence else 0)

/-- The bytes of the inputs, counted, for the older digest. -/
def legacyInputs (tx : Transaction) (index : Nat) (input : Input) (code : Bytes)
    (flag : SighashFlag) : Bytes :=
  if flag.anyoneCanPay then VarInt.encode 1 ++ legacyInput flag.base code true input
  else
    VarInt.encode tx.inputs.length ++
      (tx.inputs.zipIdx.flatMap fun (i, place) =>
        legacyInput flag.base code (place == index) i)

/-- The bytes of the outputs, counted, for the older digest. -/
def legacyOutputs (tx : Transaction) (index : Nat) : SighashBase → Bytes
  | .all => VarInt.encode tx.outputs.length ++ tx.outputs.flatMap Output.encode
  | .none => VarInt.encode 0
  | .single =>
    VarInt.encode (index + 1) ++
      (List.replicate index (Wire.u64 0xffffffffffffffff ++ Wire.varBytes [])).flatten ++
      (tx.outputs[index]?.map Output.encode).getD []

/-- What the older digest is a digest of. -/
def legacyBytes (tx : Transaction) (index : Nat) (input : Input) (scriptCode : Bytes)
    (flag : SighashFlag) : Bytes :=
  Wire.u32 tx.version ++
    tx.legacyInputs index input (withoutSeparators scriptCode) flag ++
    tx.legacyOutputs index flag.base ++ Wire.u32 tx.lockTime ++ flag.bytes

/-- The output beside the input is asked for, and there is none. -/
def lacksOutput (tx : Transaction) (index : Nat) (flag : SighashFlag) : Bool :=
  decide (flag.base = .single ∧ tx.outputs.length ≤ index)

/-- The number one, as the digest that does not commit to anything. -/
def oneDigest : Hash256 := ⟨1 :: List.replicate 31 0, rfl⟩

/-- The older digest.  It is the number one if it should commit to an output that is not there. -/
def legacyDigest (tx : Transaction) (index : Nat) (scriptCode : Bytes) (flag : SighashFlag) :
    Except TransactionError Hash256 := do
  let input ← tx.signedInput index flag
  return if tx.lacksOutput index flag then oneDigest
    else sha256d (tx.legacyBytes index input scriptCode flag)

/-- What happens while the older digest is made. -/
def legacyEvents (tx : Transaction) (index : Nat) (flag : SighashFlag) : List Event :=
  match tx.signedInput index flag with
  | .error _ => []
  | .ok _ =>
    if tx.lacksOutput index flag then [.legacyNoOutputBeside index tx.outputs.length] else []

/-! ## The digest of an input whose source is known -/

/-- The digest that a signature with this flag commits to, for an input that carries the output it
spends. -/
def inputDigest (tx : Transaction) (index : Nat) (flag : SighashFlag) :
    Except TransactionError Hash256 := do
  let source ← tx.source index
  if flag.hasForkId then tx.amountDigest index source.script source.satoshis flag
  else tx.legacyDigest index source.script flag

/-- What happens while the digest of an input is made. -/
def inputEvents (tx : Transaction) (index : Nat) (flag : SighashFlag) : List Event :=
  match tx.source index with
  | .error _ => []
  | .ok source =>
    if flag.hasForkId then tx.preimageEvents index source.script source.satoshis flag
    else .legacyDigest index flag :: tx.legacyEvents index flag

end Transaction

end CoinScript
