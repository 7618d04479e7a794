import CoinScript.Machine.Failure
import CoinScript.Machine.Operation
import CoinScript.Number.Basic

/-!
# Faults

The causes for which a run stops.  Each constructor is one cause with what it is about; `code` and
`message` give the failure code of the rule and the rule in words, and `failure` both.
-/

namespace CoinScript

/-- The place of a script in a spend. -/
inductive ScriptRole
  | unlocking
  | locking
  | redeem
deriving DecidableEq, Repr

namespace ScriptRole

/-- The place in words. -/
def name : ScriptRole → String
  | unlocking => "unlocking"
  | locking => "locking"
  | redeem => "redeem"

end ScriptRole

/-- Why a run stops. -/
inductive Fault
  -- The request
  | cleanStackWithoutScriptHash
  | missingContext (op : Opcode)
  | inputOutOfRange (input : Nat)
  /-- The transaction refuses to give a digest. -/
  | context (cause : Failure)
  -- The form of the scripts
  | scriptTooLong (role : ScriptRole) (size limit : Nat)
  | truncatedPush (offset size : Nat)
  | notPushOnly (scriptHash : Bool)
  | elementTooLong (size limit : Nat)
  | disabled (op : Opcode)
  | notEnabled (op : Opcode) (gate : Gate)
  | reserved (op : Opcode)
  | invalidOpcode (op : Opcode)
  | notMinimalPush (i : Instruction)
  | discouragedNop (op : Opcode)
  -- Conditionals
  | turnOutside
  | turnAgain
  | closeOutside
  | neverClosed
  | longCondition (length : Nat)
  | oddCondition (b : UInt8)
  -- Counts
  | tooManyOperations (limit : Nat)
  | tooManyElements (count limit : Nat)
  -- Stack and operands
  | tooShallow (op : Opcode) (arity depth : Nat)
  | noElement (index depth : Nat)
  | negativeIndex (n : Int)
  | number (cause : NumberError)
  | joinTooLong (size limit : Nat)
  | splitOutside (position : Int) (length : Nat)
  | negativeSize (n : Int)
  | sizeTooLarge (size limit : Nat)
  | valueTooWide (width size : Nat)
  | numberTooWide (limit : Nat)
  | lengthsDiffer (first second : Nat)
  | divisionByZero
  | remainderByZero
  | negativeShift (n : Int)
  -- Verdicts
  | gaveUp
  | checkFailed (op : Opcode)
  | nothingLeft
  | noRedeemScript
  | falseResult
  | notClean (extra : Nat)
  -- Signatures
  | keyCount (n : Int) (limit : Nat)
  | signatureCount (n : Int) (keys : Nat)
  | dummyNotEmpty (length : Nat)
  | failedSignatureNotEmpty (multiple : Bool)
  | sighashBase (b : UInt8)
  | forkIdNotEnabled
  | forkIdMissing
  | keyEncoding
  | der (cause : DerError)
  | highS
  -- Lock times
  | negativeLockTime (n : Int)
  | lockTimeKind (available required : Nat)
  | lockTimeTooLate (required available : Nat)
  | finalInput
  | versionTooLow (version : UInt32)
  | sequenceDisabled (sequence : UInt32)
deriving DecidableEq, Repr

namespace Fault

/-- The code for a check that failed, by the opcode that ends in it. -/
def checkCode (op : Opcode) : FailureCode :=
  match Operation.ofCode op with
  | .bitwise _ => .equalVerify
  | .arithmetic _ => .numEqualVerify
  | .crypto (.checkSig _) => .checkSigVerify
  | .crypto _ => .checkMultiSigVerify
  | _ => .verify

/-- The code of the broken rule. -/
def code : Fault → FailureCode
  | cleanStackWithoutScriptHash => .invalidFlags
  | missingContext _ => .missingTxContext
  | inputOutOfRange _ => .invalidIndex
  | context cause => cause.code
  | scriptTooLong .. => .scriptTooBig
  | truncatedPush .. => .malformedPush
  | notPushOnly _ => .notPushOnly
  | elementTooLong .. | joinTooLong .. | sizeTooLarge .. => .elementTooBig
  | disabled _ => .disabledOpcode
  | notEnabled .. => .opcodeNotEnabled
  | reserved _ => .reservedOpcode
  | invalidOpcode _ => .invalidOpcode
  | notMinimalPush _ => .minimalData
  | discouragedNop _ => .discourageUpgradableNops
  | turnOutside | turnAgain | closeOutside | neverClosed => .unbalancedConditional
  | longCondition _ | oddCondition _ => .minimalIf
  | tooManyOperations _ => .tooManyOperations
  | tooManyElements .. => .stackOverflow
  | tooShallow .. | noElement .. | negativeIndex _ => .invalidStackOperation
  | number (.tooLong ..) => .numberTooBig
  | number (.notMinimal _) => .minimalData
  | splitOutside .. => .invalidSplitRange
  | negativeSize _ | valueTooWide .. | negativeShift _ => .numberTooSmall
  | numberTooWide _ => .numberTooBig
  | lengthsDiffer .. => .invalidInputLength
  | divisionByZero | remainderByZero => .divideByZero
  | gaveUp => .earlyReturn
  | checkFailed op => checkCode op
  | nothingLeft | noRedeemScript => .emptyStack
  | falseResult => .evalFalse
  | notClean _ => .cleanStack
  | keyCount .. => .invalidPubKeyCount
  | signatureCount .. => .invalidSignatureCount
  | dummyNotEmpty _ => .sigNullDummy
  | failedSignatureNotEmpty _ => .nullFail
  | sighashBase _ => .invalidSigHashType
  | forkIdNotEnabled | forkIdMissing => .illegalForkId
  | keyEncoding => .pubKeyType
  | der cause => .ofDer cause
  | highS => .sigHighS
  | negativeLockTime _ => .negativeLockTime
  | lockTimeKind .. | lockTimeTooLate .. | finalInput | versionTooLow _ | sequenceDisabled _ =>
    .unsatisfiedLockTime

/-- The name of the flag that opens a gate. -/
def requirement : Gate → String
  | .extendedA => "ENABLE_EXTENDED_OPS_A"
  | .extendedB => "ENABLE_EXTENDED_OPS_B"
  | .always | .never => ""

/-- What is wrong with a push: short payloads that an opcode of their own stands for are spelled
out, others are given by their length. -/
def notMinimalMessage (i : Instruction) : String :=
  match Instruction.bareCode? i.data with
  | some code =>
    let better := if code = 0x00 then "OP_0" else Opcode.name code
    s!"data push of {Hex.list i.data} encoded with opcode {i.code.name} instead of {better}"
  | none =>
    let better := Opcode.name (.forPush i.data.length)
    s!"data push of {i.data.length} bytes encoded with opcode {i.code.name} instead of {better}"

/-- The broken rule in words. -/
def message : Fault → String
  | cleanStackWithoutScriptHash => "invalid scriptflag combination: clean stack requires P2SH"
  | missingContext op => s!"{op.name} needs a transaction context"
  | inputOutOfRange input => s!"input index {input} is out of range"
  | context cause => cause.description
  | scriptTooLong role size limit =>
    s!"{role.name} script size {size} is larger than the max allowed size {limit}"
  | truncatedPush offset size => s!"push at offset {offset} exceeds the script length {size}"
  | notPushOnly false => "signature script is not push only"
  | notPushOnly true => "pay to script hash is not push only"
  | elementTooLong size limit => s!"element size {size} exceeds max allowed size {limit}"
  | disabled op => s!"attempt to execute disabled opcode {op.name}"
  | notEnabled op gate => s!"opcode {op.name} requires the {requirement gate} flag"
  | reserved op => s!"attempt to execute reserved opcode {op.name}"
  | invalidOpcode op => s!"attempt to execute invalid opcode 0x{Hex.ofByte op}"
  | notMinimalPush i => notMinimalMessage i
  | discouragedNop op => s!"{op.name} reserved for soft-fork upgrades"
  | turnOutside =>
    "encountered opcode OP_ELSE with no matching opcode to begin conditional execution"
  | turnAgain => "encountered opcode OP_ELSE after another OP_ELSE in the same conditional"
  | closeOutside =>
    "encountered opcode OP_ENDIF with no matching opcode to begin conditional execution"
  | neverClosed => "end of script reached in conditional execution"
  | longCondition length => s!"conditional has data of length {length}"
  | oddCondition b => s!"conditional operand 0x{Hex.ofByte b} is not minimal"
  | tooManyOperations limit => s!"exceeded max operation limit of {limit}"
  | tooManyElements count limit => s!"combined stack size {count} > max allowed {limit}"
  | tooShallow op arity depth => s!"{op.name} requires {arity} stack items, have {depth}"
  | noElement index depth => s!"index {index} is invalid for stack size {depth}"
  | negativeIndex n => s!"negative stack index {n}"
  | number cause => cause.message
  | joinTooLong size limit => s!"concatenated size {size} exceeds max allowed size {limit}"
  | splitOutside position length => s!"split position {position} outside of 0..={length}"
  | negativeSize n => s!"requested size {n} is negative"
  | sizeTooLarge size limit => s!"requested size {size} is larger than the max of {limit}"
  | valueTooWide width size => s!"value of {width} bytes cannot fit into {size} bytes"
  | numberTooWide limit => s!"script numbers are limited to {limit} bytes"
  | lengthsDiffer first second => s!"operands have lengths {first} and {second}"
  | divisionByZero => "divide by zero"
  | remainderByZero => "mod by zero"
  | negativeShift n => s!"shift amount {n} is negative"
  | gaveUp => "script returned early"
  | checkFailed op => s!"{op.name} failed"
  | nothingLeft => "stack empty at end of script execution"
  | noRedeemScript => "no redeem script on the stack for pay to script hash"
  | falseResult => "false stack entry at end of script execution"
  | notClean extra => s!"stack contains {extra} unexpected items"
  | keyCount n limit => s!"number of pubkeys {n} outside of 0..={limit}"
  | signatureCount n keys => s!"number of signatures {n} outside of 0..={keys}"
  | dummyNotEmpty length => s!"multisig dummy argument has length {length} instead of 0"
  | failedSignatureNotEmpty false => "signature not empty on failed checksig"
  | failedSignatureNotEmpty true => "not all signatures empty on failed checkmultisig"
  | sighashBase b => s!"invalid hash type 0x{Hex.ofNat b.toNat}"
  | forkIdNotEnabled => "fork id sighash set without flag"
  | forkIdMissing => "fork id sighash not set with flag"
  | keyEncoding => "unsupported public key type"
  | der cause => s!"malformed signature: {cause.message}"
  | highS => "signature is not canonical due to unnecessarily high S value"
  | negativeLockTime n => s!"negative lock time: {n}"
  | lockTimeKind available required =>
    s!"mismatched locktime types -- tx locktime {available}, stack locktime {required}"
  | lockTimeTooLate required available =>
    "locktime requirement not satisfied -- locktime is greater than the transaction locktime: " ++
      s!"{required} > {available}"
  | finalInput => "transaction input is finalized"
  | versionTooLow version => s!"invalid transaction version: {version.toNat}"
  | sequenceDisabled sequence =>
    "transaction sequence has sequence locktime disabled bit set: 0x" ++
      Hex.ofNat sequence.toNat

/-- The broken rule as a failure. -/
def failure (f : Fault) : Failure := ⟨f.code, f.message⟩

/-- The kind of the failure. -/
def kind (f : Fault) : FailureKind := f.code.kind

end Fault

end CoinScript
