import CoinScript.Script.Basic
import CoinScript.Signature.Scheme
import CoinScript.Sighash.Flag

/-!
# Transactions

A transaction spends outputs of earlier transactions, each named by an outpoint, and makes new
outputs.  An input may carry the output that it spends; that output is not part of the transaction
as it is written, and serves only to sign and to verify.
-/

namespace CoinScript

/-- The place of an output: a transaction and a number in it. -/
structure Outpoint where
  /-- The id of the transaction, in the byte order it is hashed in. -/
  txid : Hash256
  index : UInt32
deriving DecidableEq

/-- An amount and the script that locks it. -/
structure Output where
  satoshis : UInt64
  script : Script
deriving DecidableEq

/-- A spent output with the script that unlocks it. -/
structure Input where
  outpoint : Outpoint
  unlocking : Script
  sequence : UInt32
  /-- The output that is spent, if it is known. -/
  source : Option Output
deriving DecidableEq

/-- A transaction. -/
structure Transaction where
  version : UInt32
  inputs : List Input
  outputs : List Output
  /-- The height or time from which on the transaction may be used. -/
  lockTime : UInt32
deriving DecidableEq

/-- A field of a transaction as it is written. -/
inductive TransactionField
  | version
  | inputCount
  | txid
  | outputIndex
  | unlocking
  | sequence
  | outputCount
  | satoshis
  | locking
  | lockTime
deriving DecidableEq, Repr

/-- A field of what a signature with an amount commits to. -/
inductive PreimageField
  | version
  | prevoutsHash
  | sequenceHash
  | txid
  | outputIndex
  | scriptCode
  | amount
  | sequence
  | outputsHash
  | lockTime
  | flag
deriving DecidableEq, Repr

/-- Why a transaction cannot be read, signed or verified. -/
inductive TransactionError
  | inputOutOfRange (index count : Nat)
  | noSource (index : Nat)
  | wideFlag (flag : SighashFlag)
  | signing (cause : SigningError)
  | reading (field : TransactionField) (cause : WireError)
  | trailing (count : Nat)
  | badHex (cause : HexError)
  | badTxid (cause : HexError)
  | txidLength (length : Nat)
  | readingPreimage (field : PreimageField) (cause : WireError)
  | trailingPreimage (count : Nat)
  | script (cause : ScriptError)
deriving DecidableEq

namespace TransactionField

/-- The name of a field. -/
def name : TransactionField → String
  | version => "version"
  | inputCount => "input count"
  | txid => "source txid"
  | outputIndex => "output index"
  | unlocking => "unlocking script"
  | sequence => "sequence number"
  | outputCount => "output count"
  | satoshis => "satoshis"
  | locking => "locking script"
  | lockTime => "lock time"

end TransactionField

namespace PreimageField

/-- The name of a field. -/
def name : PreimageField → String
  | version => "version"
  | prevoutsHash => "hashPrevouts"
  | sequenceHash => "hashSequence"
  | txid => "outpoint txid"
  | outputIndex => "outpoint index"
  | scriptCode => "scriptCode"
  | amount => "amount"
  | sequence => "sequence"
  | outputsHash => "hashOutputs"
  | lockTime => "lock time"
  | flag => "sighash flag"

end PreimageField

namespace TransactionError

/-- The error in words. -/
def message : TransactionError → String
  | inputOutOfRange index count => s!"input index {index} out of range (tx has {count} inputs)"
  | noSource index => s!"input {index} has no source output"
  | wideFlag flag =>
    s!"sighash flag 0x{Hex.ofNat flag.word.toNat} does not fit in one byte"
  | signing cause => s!"signing error: {cause.message}"
  | reading field cause => s!"serialization error: reading {field.name}: {cause.message}"
  | trailing count => s!"serialization error: trailing {count} bytes after transaction"
  | badHex cause => s!"serialization error: invalid hex: {cause.message}"
  | badTxid cause => s!"serialization error: invalid txid hex: {cause.message}"
  | txidLength length => s!"serialization error: txid must be 32 bytes, got {length}"
  | readingPreimage field cause =>
    s!"invalid preimage: reading {field.name}: {cause.message}"
  | trailingPreimage count =>
    s!"invalid preimage: trailing {count} bytes after sighash flag"
  | script cause => s!"script error: {cause.message}"

end TransactionError

/-- The sequence number of an input that is not held back. -/
def Input.defaultSequence : UInt32 := 0xffffffff

namespace Transaction

/-- The transaction without inputs and outputs. -/
def empty : Transaction := ⟨1, [], [], 0⟩

/-- The input at a place. -/
def input (tx : Transaction) (index : Nat) : Except TransactionError Input :=
  match tx.inputs[index]? with
  | some i => .ok i
  | none => .error (.inputOutOfRange index tx.inputs.length)

/-- The output that the input at a place spends. -/
def source (tx : Transaction) (index : Nat) : Except TransactionError Output := do
  match (← tx.input index).source with
  | some o => return o
  | none => throw (.noSource index)

end Transaction

end CoinScript
