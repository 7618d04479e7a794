import CoinScript.Json.Value
import CoinScript.Sighash.Zero

/-!
# Preimages and their reports in JSON documents

The hashes of a preimage, the rules and the reasons are choices by name.  A report, a field of it, a
mismatch and a preimage are records; bytes are arrays of their values.
-/

namespace CoinScript

namespace PreimageHash

/-- The name of a hash. -/
def name : PreimageHash → String
  | prevouts => "HashPrevouts"
  | sequence => "HashSequence"
  | outputs => "HashOutputs"

/-- The value of a hash. -/
def toJson (h : PreimageHash) : Json := .ofText h.name

/-- The hash of a value. -/
def ofJson (v : Json) : Option PreimageHash := v.asChoice all name

end PreimageHash

namespace OutputsRule

/-- Every rule. -/
def all : List OutputsRule := [allOutputs, matchingOutput, noOutputs, singleOutOfRange]

/-- The name of a rule. -/
def name : OutputsRule → String
  | allOutputs => "AllOutputs"
  | matchingOutput => "MatchingOutput"
  | noOutputs => "NoOutputs"
  | singleOutOfRange => "SingleOutOfRange"

/-- The value of a rule. -/
def toJson (r : OutputsRule) : Json := .ofText r.name

/-- The rule of a value. -/
def ofJson (v : Json) : Option OutputsRule := v.asChoice all name

end OutputsRule

namespace ZeroReason

/-- Every reason. -/
def all : List ZeroReason := [anyoneCanPay, baseNone, baseSingle, singleOutOfRange]

/-- The name of a reason. -/
def name : ZeroReason → String
  | anyoneCanPay => "AnyoneCanPay"
  | baseNone => "SighashNone"
  | baseSingle => "SighashSingle"
  | singleOutOfRange => "SingleOutOfRange"

/-- The value of a reason. -/
def toJson (r : ZeroReason) : Json := .ofText r.name

/-- The reason of a value. -/
def ofJson (v : Json) : Option ZeroReason := v.asChoice all name

end ZeroReason

namespace ZeroField

/-- The value of a zero hash and its reason. -/
def toJson (z : ZeroField) : Json :=
  .record [("field", z.field.toJson), ("reason", z.reason.toJson)]

/-- The zero hash and its reason of a value. -/
def ofJson (v : Json) : Option ZeroField := do
  match ← v.fields ["field", "reason"] with
  | [some field, some reason] =>
    return ⟨← PreimageHash.ofJson field, ← ZeroReason.ofJson reason⟩
  | _ => none

end ZeroField

/-- The value of a mismatch. -/
def Mismatch.toJson (m : Mismatch) : Json :=
  .record [("field", m.field.toJson), ("expected_zero", .bool m.expectedZero)]

namespace ZeroReport

/-- The value of a report. -/
def toJson (z : ZeroReport) : Json :=
  .record [("sighash_flag", .ofNat z.flag.word.toNat), ("input_index", .ofNat z.input),
    ("output_count", .ofNat z.outputs), ("outputs_rule", z.rule.toJson),
    ("zero_fields", .array (z.zeros.map ZeroField.toJson))]

/-- The report of a value. -/
def ofJson (v : Json) : Option ZeroReport := do
  match ← v.fields ["sighash_flag", "input_index", "output_count", "outputs_rule",
    "zero_fields"] with
  | [some flag, some input, some outputs, some rule, some zeros] =>
    return {
      flag := ⟨.ofNat (← flag.asNat UInt32.size)⟩
      input := ← input.asNat UInt64.size
      outputs := ← outputs.asNat UInt64.size
      rule := ← OutputsRule.ofJson rule
      zeros := ← (← zeros.asList).mapM ZeroField.ofJson }
  | _ => none

end ZeroReport

namespace Preimage

/-- The names of the fields of a preimage in a document. -/
def fieldNames : List String :=
  ["version", "hash_prevouts", "hash_sequence", "outpoint_txid", "outpoint_index", "script_code",
    "script_code_len_width", "amount", "sequence", "hash_outputs", "lock_time", "sighash_flag"]

/-- The value of a preimage. -/
def toJson (p : Preimage) : Json :=
  .record (fieldNames.zip [.ofNat p.version.toNat, .ofBytes p.prevoutsHash.bytes,
    .ofBytes p.sequenceHash.bytes, .ofBytes p.outpoint.txid.bytes,
    .ofNat p.outpoint.index.toNat, .ofBytes p.scriptCode, .ofNat p.lengthWidth,
    .ofNat p.amount.toNat, .ofNat p.sequence.toNat, .ofBytes p.outputsHash.bytes,
    .ofNat p.lockTime.toNat, .ofNat p.flag.word.toNat])

/-- The hash of a value. -/
def hashOfJson (v : Json) : Option Hash256 := do Block.ofBytes? 32 (← v.asBytes)

/-- The 32-bit number of a value. -/
def wordOfJson (v : Json) : Option UInt32 := do return .ofNat (← v.asNat UInt32.size)

/-- The preimage of a value. -/
def ofJson (v : Json) : Option Preimage := do
  match ← v.fields fieldNames with
  | [some version, some prevoutsHash, some sequenceHash, some txid, some index, some scriptCode,
      some lengthWidth, some amount, some sequence, some outputsHash, some lockTime, some flag] =>
    return {
      version := ← wordOfJson version
      prevoutsHash := ← hashOfJson prevoutsHash
      sequenceHash := ← hashOfJson sequenceHash
      outpoint := ⟨← hashOfJson txid, ← wordOfJson index⟩
      lengthWidth := ← lengthWidth.asNat UInt64.size
      scriptCode := ← scriptCode.asBytes
      amount := .ofNat (← amount.asNat UInt64.size)
      sequence := ← wordOfJson sequence
      outputsHash := ← hashOfJson outputsHash
      lockTime := ← wordOfJson lockTime
      flag := ⟨← wordOfJson flag⟩ }
  | _ => none

end Preimage

end CoinScript
