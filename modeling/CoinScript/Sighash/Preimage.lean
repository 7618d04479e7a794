import CoinScript.Transaction.Wire

/-!
# Preimages

What a signature that commits to the amount is a signature of: the fields of a `Preimage`, written
one after the other and hashed twice.  `encode` writes a preimage and `ofBytes` reads one.  The
length in front of the script may be in any of its forms, so it is part of the preimage how many
bytes it takes.
-/

namespace CoinScript

/-- The hashes of a preimage. -/
inductive PreimageHash
  | prevouts
  | sequence
  | outputs
deriving DecidableEq, Repr

/-- The hashes in the order in which they are written. -/
def PreimageHash.all : List PreimageHash := [.prevouts, .sequence, .outputs]

/-- What a signature that commits to the amount is a signature of. -/
structure Preimage where
  version : UInt32
  prevoutsHash : Hash256
  sequenceHash : Hash256
  outpoint : Outpoint
  /-- Number of bytes that give the length of the script: 1, 3, 5 or 9. -/
  lengthWidth : Nat
  scriptCode : Bytes
  amount : UInt64
  sequence : UInt32
  outputsHash : Hash256
  lockTime : UInt32
  flag : SighashFlag
deriving DecidableEq

namespace Preimage

/-- The bytes of a preimage. -/
def encode (p : Preimage) : Bytes :=
  Wire.u32 p.version ++ p.prevoutsHash.bytes ++ p.sequenceHash.bytes ++ p.outpoint.encode ++
    (VarInt.encodeAs p.lengthWidth p.scriptCode.length ++ p.scriptCode) ++
    Wire.u64 p.amount ++ Wire.u32 p.sequence ++ p.outputsHash.bytes ++ Wire.u32 p.lockTime ++
    p.flag.bytes

/-- One of the hashes. -/
def hash (p : Preimage) : PreimageHash → Hash256
  | .prevouts => p.prevoutsHash
  | .sequence => p.sequenceHash
  | .outputs => p.outputsHash

/-- The place of the hash over outputs among the bytes. -/
def outputsOffset (p : Preimage) : Nat := 104 + p.lengthWidth + p.scriptCode.length + 12

/-- The length in front of the script is in its shortest form. -/
def hasShortLength (p : Preimage) : Bool := VarInt.size p.scriptCode.length == p.lengthWidth

/-- Reads a script behind its length, with the number of bytes that the length takes. -/
def readScript : Reader WireError (Nat × Bytes) := do
  let before := (← get).position
  let script ← Reader.varBytes
  let after := (← get).position
  return (after - before - script.length, script)

/-- Reads a preimage. -/
def read : Reader TransactionError Preimage := do
  let version ← Reader.u32.mapError (.readingPreimage .version)
  let prevoutsHash ← (Reader.block 32).mapError (.readingPreimage .prevoutsHash)
  let sequenceHash ← (Reader.block 32).mapError (.readingPreimage .sequenceHash)
  let txid ← (Reader.block 32).mapError (.readingPreimage .txid)
  let index ← Reader.u32.mapError (.readingPreimage .outputIndex)
  let (lengthWidth, scriptCode) ← readScript.mapError (.readingPreimage .scriptCode)
  let amount ← Reader.u64.mapError (.readingPreimage .amount)
  let sequence ← Reader.u32.mapError (.readingPreimage .sequence)
  let outputsHash ← (Reader.block 32).mapError (.readingPreimage .outputsHash)
  let lockTime ← Reader.u32.mapError (.readingPreimage .lockTime)
  let flag ← Reader.u32.mapError (.readingPreimage .flag)
  return {
    version, prevoutsHash, sequenceHash, outpoint := ⟨txid, index⟩, lengthWidth, scriptCode,
    amount, sequence, outputsHash, lockTime, flag := ⟨flag⟩ }

/-- Reads a preimage that makes up all of the data. -/
def ofBytes (b : Bytes) : Except TransactionError Preimage :=
  match read (Cursor.start b) with
  | .error e _ => .error e
  | .ok p c => if c.remaining = 0 then .ok p else .error (.trailingPreimage c.remaining)

end Preimage

end CoinScript
