import CoinScript.Digest.Sha256
import CoinScript.Transaction.Basic

/-!
# Transactions on the wire

| field        | form                       |
|--------------|----------------------------|
| version      | 4 bytes                    |
| inputs       | count, then each input     |
| outputs      | count, then each output    |
| lock time    | 4 bytes                    |

An input is its outpoint, its script behind the length, and its sequence number; an output is its
amount and its script behind the length.  Reading leaves the spent outputs unknown.
-/

namespace CoinScript

namespace Outpoint

/-- The 36 bytes of an outpoint. -/
def encode (o : Outpoint) : Bytes := o.txid.bytes ++ Wire.u32 o.index

end Outpoint

namespace Output

/-- The bytes of an output. -/
def encode (o : Output) : Bytes := Wire.u64 o.satoshis ++ Wire.varBytes o.script

/-- Reads an output. -/
def read : Reader TransactionError Output := do
  let satoshis ← Reader.u64.mapError (.reading .satoshis)
  let script ← Reader.varBytes.mapError (.reading .locking)
  return ⟨satoshis, script⟩

end Output

namespace Input

/-- The bytes of an input. -/
def encode (i : Input) : Bytes :=
  i.outpoint.encode ++ Wire.varBytes i.unlocking ++ Wire.u32 i.sequence

/-- Reads an input. -/
def read : Reader TransactionError Input := do
  let txid ← (Reader.block 32).mapError (.reading .txid)
  let index ← Reader.u32.mapError (.reading .outputIndex)
  let unlocking ← Reader.varBytes.mapError (.reading .unlocking)
  let sequence ← Reader.u32.mapError (.reading .sequence)
  return ⟨⟨txid, index⟩, unlocking, sequence, none⟩

end Input

namespace Transaction

/-- The bytes of a transaction. -/
def encode (tx : Transaction) : Bytes :=
  Wire.u32 tx.version ++
    (VarInt.encode tx.inputs.length ++ tx.inputs.flatMap Input.encode) ++
    (VarInt.encode tx.outputs.length ++ tx.outputs.flatMap Output.encode) ++
    Wire.u32 tx.lockTime

/-- Reads a transaction. -/
def read : Reader TransactionError Transaction := do
  let version ← Reader.u32.mapError (.reading .version)
  let inputCount ← Reader.varInt.mapError (.reading .inputCount)
  let inputs ← Reader.many inputCount Input.read
  let outputCount ← Reader.varInt.mapError (.reading .outputCount)
  let outputs ← Reader.many outputCount Output.read
  let lockTime ← Reader.u32.mapError (.reading .lockTime)
  return ⟨version, inputs, outputs, lockTime⟩

/-- Reads a transaction that makes up all of the data. -/
def ofBytes (b : Bytes) : Except TransactionError Transaction :=
  match read (Cursor.start b) with
  | .error e _ => .error e
  | .ok tx c => if c.remaining = 0 then .ok tx else .error (.trailing c.remaining)

/-- Reads a transaction from hexadecimal text. -/
def ofHex (text : String) : Except TransactionError Transaction :=
  match Hex.decode text with
  | .ok b => ofBytes b
  | .error cause => .error (.badHex cause)

/-- The id of a transaction. -/
def id (tx : Transaction) : Hash256 := sha256d tx.encode

/-- The id as it is shown: in the opposite byte order. -/
def idHex (tx : Transaction) : String := Hex.encode tx.id.reverse.bytes

/-! ## Building -/

/-- The transaction with an input at its end. -/
def addInput (tx : Transaction) (i : Input) : Transaction :=
  { tx with inputs := tx.inputs ++ [i] }

/-- The transaction with an output at its end. -/
def addOutput (tx : Transaction) (o : Output) : Transaction :=
  { tx with outputs := tx.outputs ++ [o] }

/-- An outpoint given by the id as it is shown. -/
def outpointOfText (txid : String) (index : UInt32) : Except TransactionError Outpoint :=
  match Hex.decode txid with
  | .error cause => .error (.badTxid cause)
  | .ok b =>
    match Block.ofBytes? 32 b with
    | some id => .ok ⟨id.reverse, index⟩
    | none => .error (.txidLength b.length)

/-- The transaction with an input at its end that spends a known output; the id, as it is shown,
and the script are given as text. -/
def addInputFrom (tx : Transaction) (txid : String) (index : UInt32) (script : String)
    (satoshis : UInt64) : Except TransactionError Transaction := do
  let outpoint ← outpointOfText txid index
  match Script.ofHex script with
  | .error cause => throw (.script cause)
  | .ok locking =>
    return tx.addInput ⟨outpoint, [], Input.defaultSequence, some ⟨satoshis, locking⟩⟩

/-- The transaction with the input at a place changed. -/
def modifyInput (tx : Transaction) (index : Nat) (f : Input → Input) :
    Except TransactionError Transaction := do
  let _ ← tx.input index
  return { tx with inputs := tx.inputs.modify index f }

end Transaction

end CoinScript
