import CoinScript.Curve.Lemmas
import CoinScript.Json.Text
import CoinScript.Key.Lemmas
import CoinScript.Proofs.Machine.Acceptance
import CoinScript.Proofs.Machine.Handover
import CoinScript.Proofs.Machine.HigherLimits
import CoinScript.Proofs.Machine.Multisig
import CoinScript.Proofs.Machine.PushOnly
import CoinScript.Proofs.Machine.Restriction
import CoinScript.Proofs.Machine.SignedCode
import CoinScript.Proofs.Machine.Straight
import CoinScript.Proofs.Script.Decoding
import CoinScript.Proofs.Sighash.Commitment
import CoinScript.Proofs.Sighash.Unlocking
import CoinScript.Proofs.Signature.Canonical
import CoinScript.Proofs.Signature.StrictForm
import CoinScript.Proofs.Spend.KeyHash
import CoinScript.Proofs.Spend.Malleability
import CoinScript.Proofs.Spend.Replay
import CoinScript.Proofs.Transaction.Layout
import CoinScript.Script.Json
import CoinScript.Script.SignedPart
import CoinScript.Script.Text
import CoinScript.Sighash.Json
import CoinScript.Spend.Json
import CoinScript.Spend.PayToKeyHash
import CoinScript.Spend.Verify
import CoinScript.Wire.Field
import CoinScript.Proofs.Spend.ScriptHash
import CoinScript.Proofs.Sighash.LegacyCopy
import CoinScript.Proofs.Spend.SigningOrder
import CoinScript.Proofs.Script.Parsing
import CoinScript.Proofs.Machine.ElementSize
import CoinScript.Proofs.Machine.Resources
import CoinScript.Proofs.Sighash.PreimageParsing
import CoinScript.Proofs.Signature.StrictReading
import CoinScript.Proofs.Machine.ElementLimit
import CoinScript.Proofs.Machine.Conditionals
import CoinScript.Proofs.Checked.Basic
import CoinScript.Proofs.Checked.Position
import CoinScript.Proofs.Number.ShortestForm
import CoinScript.Proofs.Checked.Der
import CoinScript.Proofs.Signature.LaxReading
import CoinScript.Proofs.Checked.Canonical
import CoinScript.Proofs.Signature.Twins
import CoinScript.Proofs.Checked.Number
import CoinScript.Proofs.Checked.Script
import CoinScript.Proofs.Checked.Shift
import CoinScript.Proofs.Checked.Stack
import CoinScript.Proofs.Checked.Machine
import CoinScript.Proofs.Checked.Operations
import CoinScript.Proofs.Checked.Signatures
import CoinScript.Proofs.Checked.Dispatch
import CoinScript.Proofs.Checked.Execute
import CoinScript.Proofs.Number.Bytewise
import CoinScript.Proofs.Machine.Conversions
import CoinScript.Proofs.Machine.LockTimes
import CoinScript.Proofs.Machine.Shifts
import CoinScript.Proofs.Curve.FieldPrime
import CoinScript.Proofs.Key.PublicEncodings
import CoinScript.Proofs.Machine.ShortestPush
import CoinScript.Proofs.Script.TextReading
import CoinScript.Proofs.Sighash.Separators
import CoinScript.Proofs.Machine.Skipping
import CoinScript.Proofs.Spend.Independence
import CoinScript.Proofs.Machine.AcceptedPushes
import CoinScript.Proofs.Machine.Arity
import CoinScript.Proofs.Wire.Counts
import CoinScript.Proofs.Checked.Reader
import CoinScript.Proofs.Wire.Fields
import CoinScript.Proofs.Checked.Blocks
