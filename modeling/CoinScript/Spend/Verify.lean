import CoinScript.Machine.Execute
import CoinScript.Sighash.Digest

/-!
# Verifying a spend

The scripts of a spend are run against the transaction that spends.  A transaction is seen by a run
through a context that is bound to one input and to the amount that this input spends; asked for
another input it refuses.
-/

namespace CoinScript

/-- The context of a transaction, bound to an input and its amount. -/
structure BoundInput where
  tx : Transaction
  index : Nat
  amount : UInt64

namespace BoundInput

/-- Binds an input with the amount of the output that it carries. -/
def ofSource (tx : Transaction) (index : Nat) : Except TransactionError BoundInput := do
  return ⟨tx, index, (← tx.source index).satoshis⟩

/-- The refusal to give the digest of another input. -/
def otherInput (b : BoundInput) (asked : Nat) : Failure :=
  ⟨.invalidIndex, s!"context is bound to input {b.index}, asked for input {asked}"⟩

/-- The digest of the bound input. -/
def digest (b : BoundInput) (asked : Nat) (code : Bytes) (flag : SighashFlag) (forkId : Bool) :
    Except Failure Hash256 :=
  if asked = b.index then
    let made :=
      if forkId then b.tx.amountDigest asked code b.amount flag
      else b.tx.legacyDigest asked code flag
    made.mapError fun e => ⟨.invalidIndex, e.message⟩
  else .error (b.otherInput asked)

/-- What happens while the digest of the bound input is made. -/
def digestEvents (b : BoundInput) (asked : Nat) (code : Bytes) (flag : SighashFlag)
    (forkId : Bool) : List Event :=
  if asked = b.index then
    if forkId then b.tx.preimageEvents asked code b.amount flag
    else b.tx.legacyEvents asked flag
  else []

/-- The transaction as a run sees it. -/
def context (b : BoundInput) : Context where
  digest := b.digest
  digestEvents := b.digestEvents
  lockTime := b.tx.lockTime
  version := b.tx.version
  sequence index := b.tx.inputs[index]?.map (·.sequence)

end BoundInput

/-- The verdict on a spend in the form it is reported in. -/
structure Verification where
  valid : Bool
  /-- Empty if valid, otherwise the broken rule in words. -/
  diagnostic : String
  error : Option Failure
deriving DecidableEq, Repr

namespace Verification

/-- The spend is accepted. -/
def success : Verification := ⟨true, "", none⟩

/-- The spend is refused. -/
def failure (f : Failure) : Verification :=
  ⟨false, s!"{f.code.name}: {f.description}", some f⟩

/-- The verdict of a run as a report. -/
def ofVerdict : Except Fault Unit → Verification
  | .ok () => success
  | .error fault => failure fault.failure

/-- The code of a refused spend. -/
def code (v : Verification) : Option FailureCode := v.error.map (·.code)

/-- The kind of a refused spend. -/
def kind (v : Verification) : Option FailureKind := v.error.map Failure.kind

end Verification

/-- How spends are verified. -/
structure Verifier where
  scheme : Scheme
  limits : Limits

namespace Verifier

/-- Runs two scripts for an input of a transaction. -/
def run (v : Verifier) (b : BoundInput) (flags : Flags) (unlocking locking : Script) : Outcome :=
  execute ⟨v.limits, flags, v.scheme, some b.context, b.index⟩ unlocking locking

/-- Verifies that one script unlocks another for an input of a transaction.  The events of the run
come with the report. -/
def verifyScript (v : Verifier) (unlocking locking : Script) (tx : Transaction) (index : Nat)
    (flags : Flags) (amount : UInt64) : Verification × List Event :=
  if index < tx.inputs.length then
    let o := v.run ⟨tx, index, amount⟩ flags unlocking locking
    (.ofVerdict o.verdict, o.events)
  else
    (.failure ⟨.invalidIndex, (TransactionError.inputOutOfRange index tx.inputs.length).message⟩,
      [])

/-- Verifies an input with its own script and the output that it carries. -/
def verifyInput (v : Verifier) (tx : Transaction) (index : Nat) (flags : Flags) :
    Except TransactionError (Verification × List Event) := do
  let input ← tx.input index
  let source ← tx.source index
  return v.verifyScript input.unlocking source.script tx index flags source.satoshis

end Verifier

end CoinScript
