import CoinScript.Signature.Der

/-!
# Failure codes

A run that is refused names one rule by its code.  Codes fall into six kinds, which say whose fault
the failure is: the script's, the signature's, the caller's, or a limit's.  A code is written by its
name, and a `Failure` is a code with the rule in words.
-/

namespace CoinScript

/-- The kind of a failure. -/
inductive FailureKind
  /-- A signature, its type byte or a key is not encoded as required. -/
  | malformedSignature
  /-- Pushes, conditionals or opcodes do not make a script. -/
  | malformedScript
  /-- The script ran and refused. -/
  | scriptFailure
  /-- A limit was exceeded. -/
  | resourceLimitExceeded
  /-- An opcode is disabled, or the flag that it needs is not set. -/
  | disabledOpcode
  /-- The request is not consistent. -/
  | invalidFlags
deriving DecidableEq, Repr

/-- The rule that a run broke. -/
inductive FailureCode
  | invalidFlags
  | missingTxContext
  | invalidIndex
  | earlyReturn
  | emptyStack
  | evalFalse
  | scriptTooBig
  | elementTooBig
  | tooManyOperations
  | stackOverflow
  | invalidPubKeyCount
  | invalidSignatureCount
  | numberTooBig
  | numberTooSmall
  | invalidSplitRange
  | divideByZero
  | verify
  | equalVerify
  | numEqualVerify
  | checkSigVerify
  | checkMultiSigVerify
  | disabledOpcode
  | opcodeNotEnabled
  | reservedOpcode
  | invalidOpcode
  | malformedPush
  | invalidStackOperation
  | unbalancedConditional
  | invalidInputLength
  | minimalData
  | minimalIf
  | invalidSigHashType
  | sigTooShort
  | sigTooLong
  | sigInvalidSeqID
  | sigInvalidDataLen
  | sigInvalidRIntID
  | sigInvalidRLen
  | sigZeroRLen
  | sigNegativeR
  | sigTooMuchRPadding
  | sigInvalidSIntID
  | sigInvalidSLen
  | sigZeroSLen
  | sigNegativeS
  | sigTooMuchSPadding
  | sigValueOutOfRange
  | sigHighS
  | notPushOnly
  | sigNullDummy
  | pubKeyType
  | cleanStack
  | nullFail
  | discourageUpgradableNops
  | negativeLockTime
  | unsatisfiedLockTime
  | illegalForkId
deriving DecidableEq, Repr

namespace FailureKind

/-- The name of a kind. -/
def name : FailureKind → String
  | malformedSignature => "MalformedSignature"
  | malformedScript => "MalformedScript"
  | scriptFailure => "ScriptFailure"
  | resourceLimitExceeded => "ResourceLimitExceeded"
  | disabledOpcode => "DisabledOpcode"
  | invalidFlags => "InvalidFlags"

end FailureKind

namespace FailureCode

/-- Every code. -/
def all : List FailureCode :=
  [.invalidFlags, .missingTxContext, .invalidIndex, .earlyReturn, .emptyStack, .evalFalse,
    .scriptTooBig, .elementTooBig, .tooManyOperations, .stackOverflow, .invalidPubKeyCount,
    .invalidSignatureCount, .numberTooBig, .numberTooSmall, .invalidSplitRange, .divideByZero,
    .verify, .equalVerify, .numEqualVerify, .checkSigVerify, .checkMultiSigVerify,
    .disabledOpcode, .opcodeNotEnabled, .reservedOpcode, .invalidOpcode, .malformedPush,
    .invalidStackOperation, .unbalancedConditional, .invalidInputLength, .minimalData, .minimalIf,
    .invalidSigHashType, .sigTooShort, .sigTooLong, .sigInvalidSeqID, .sigInvalidDataLen,
    .sigInvalidRIntID, .sigInvalidRLen, .sigZeroRLen, .sigNegativeR, .sigTooMuchRPadding,
    .sigInvalidSIntID, .sigInvalidSLen, .sigZeroSLen, .sigNegativeS, .sigTooMuchSPadding,
    .sigValueOutOfRange, .sigHighS, .notPushOnly, .sigNullDummy, .pubKeyType, .cleanStack,
    .nullFail, .discourageUpgradableNops, .negativeLockTime, .unsatisfiedLockTime, .illegalForkId]

/-- The kind of a code. -/
def kind : FailureCode → FailureKind
  | invalidSigHashType | sigTooShort | sigTooLong | sigInvalidSeqID | sigInvalidDataLen
  | sigInvalidRIntID | sigInvalidRLen | sigZeroRLen | sigNegativeR | sigTooMuchRPadding
  | sigInvalidSIntID | sigInvalidSLen | sigZeroSLen | sigNegativeS | sigTooMuchSPadding
  | sigValueOutOfRange | sigHighS | pubKeyType | illegalForkId => .malformedSignature
  | reservedOpcode | invalidOpcode | malformedPush | unbalancedConditional | minimalData
  | notPushOnly => .malformedScript
  | earlyReturn | emptyStack | evalFalse | numberTooSmall | invalidSplitRange | divideByZero
  | verify | equalVerify | numEqualVerify | checkSigVerify | checkMultiSigVerify
  | invalidStackOperation | invalidInputLength | minimalIf | sigNullDummy | cleanStack | nullFail
  | discourageUpgradableNops | negativeLockTime | unsatisfiedLockTime => .scriptFailure
  | scriptTooBig | elementTooBig | tooManyOperations | stackOverflow | invalidPubKeyCount
  | invalidSignatureCount | numberTooBig => .resourceLimitExceeded
  | disabledOpcode | opcodeNotEnabled => .disabledOpcode
  | invalidFlags | missingTxContext | invalidIndex => .invalidFlags

/-- The name of a code. -/
def name : FailureCode → String
  | invalidFlags => "InvalidFlags"
  | missingTxContext => "MissingTxContext"
  | invalidIndex => "InvalidIndex"
  | earlyReturn => "EarlyReturn"
  | emptyStack => "EmptyStack"
  | evalFalse => "EvalFalse"
  | scriptTooBig => "ScriptTooBig"
  | elementTooBig => "ElementTooBig"
  | tooManyOperations => "TooManyOperations"
  | stackOverflow => "StackOverflow"
  | invalidPubKeyCount => "InvalidPubKeyCount"
  | invalidSignatureCount => "InvalidSignatureCount"
  | numberTooBig => "NumberTooBig"
  | numberTooSmall => "NumberTooSmall"
  | invalidSplitRange => "InvalidSplitRange"
  | divideByZero => "DivideByZero"
  | verify => "Verify"
  | equalVerify => "EqualVerify"
  | numEqualVerify => "NumEqualVerify"
  | checkSigVerify => "CheckSigVerify"
  | checkMultiSigVerify => "CheckMultiSigVerify"
  | disabledOpcode => "DisabledOpcode"
  | opcodeNotEnabled => "OpcodeNotEnabled"
  | reservedOpcode => "ReservedOpcode"
  | invalidOpcode => "InvalidOpcode"
  | malformedPush => "MalformedPush"
  | invalidStackOperation => "InvalidStackOperation"
  | unbalancedConditional => "UnbalancedConditional"
  | invalidInputLength => "InvalidInputLength"
  | minimalData => "MinimalData"
  | minimalIf => "MinimalIf"
  | invalidSigHashType => "InvalidSigHashType"
  | sigTooShort => "SigTooShort"
  | sigTooLong => "SigTooLong"
  | sigInvalidSeqID => "SigInvalidSeqID"
  | sigInvalidDataLen => "SigInvalidDataLen"
  | sigInvalidRIntID => "SigInvalidRIntID"
  | sigInvalidRLen => "SigInvalidRLen"
  | sigZeroRLen => "SigZeroRLen"
  | sigNegativeR => "SigNegativeR"
  | sigTooMuchRPadding => "SigTooMuchRPadding"
  | sigInvalidSIntID => "SigInvalidSIntID"
  | sigInvalidSLen => "SigInvalidSLen"
  | sigZeroSLen => "SigZeroSLen"
  | sigNegativeS => "SigNegativeS"
  | sigTooMuchSPadding => "SigTooMuchSPadding"
  | sigValueOutOfRange => "SigValueOutOfRange"
  | sigHighS => "SigHighS"
  | notPushOnly => "NotPushOnly"
  | sigNullDummy => "SigNullDummy"
  | pubKeyType => "PubKeyType"
  | cleanStack => "CleanStack"
  | nullFail => "NullFail"
  | discourageUpgradableNops => "DiscourageUpgradableNops"
  | negativeLockTime => "NegativeLockTime"
  | unsatisfiedLockTime => "UnsatisfiedLockTime"
  | illegalForkId => "IllegalForkId"

/-- The code of a name. -/
def ofName? (s : String) : Option FailureCode := all.find? fun c => c.name == s

/-- The code for a signature that is not encoded as required. -/
def ofDer : DerError → FailureCode
  | .tooShort => sigTooShort
  | .tooLong => sigTooLong
  | .invalidSequenceTag => sigInvalidSeqID
  | .sequenceLengthMismatch | .trailingBytes => sigInvalidDataLen
  | .missingIntegerTag .r => sigInvalidRIntID
  | .missingIntegerTag .s => sigInvalidSIntID
  | .integerLengthOverflow .r => sigInvalidRLen
  | .integerLengthOverflow .s => sigInvalidSLen
  | .zeroLengthInteger .r => sigZeroRLen
  | .zeroLengthInteger .s => sigZeroSLen
  | .negativeInteger .r => sigNegativeR
  | .negativeInteger .s => sigNegativeS
  | .excessivePadding .r => sigTooMuchRPadding
  | .excessivePadding .s => sigTooMuchSPadding
  | .integerTooLarge _ | .zeroValue _ | .outOfRange _ => sigValueOutOfRange

end FailureCode

/-- A code and the broken rule in words. -/
structure Failure where
  code : FailureCode
  description : String
deriving DecidableEq, Repr

/-- The kind of a failure. -/
def Failure.kind (f : Failure) : FailureKind := f.code.kind

end CoinScript
