import CoinScript.Bytes.Hex
import CoinScript.Machine.Failure
import CoinScript.Script.Opcode
import CoinScript.Sighash.Flag

/-!
# The journal of a run

Beside its verdict a run leaves two records, which nothing in the run reads: the events, which a
log shows line by line, and the digests that were asked of the transaction, with the answers.
-/

namespace CoinScript

/-- How loud an event is. -/
inductive EventLevel
  | trace
  | debug
  | warn
deriving DecidableEq, Repr

/-- The name of a level. -/
def EventLevel.name : EventLevel → String
  | trace => "TRACE"
  | debug => "DEBUG"
  | warn => "WARN"

/-- Something that happened. -/
inductive Event
  /-- A spend is going to be verified. -/
  | started (input unlocking locking : Nat) (flags : Nat)
  /-- An instruction is going to be executed or, if it is a conditional one, followed. -/
  | instruction (offset : Nat) (op : Opcode) (depth branches : Nat)
  | redeeming (size input : Nat)
  | verified (input : Nat)
  | failed (input : Nat) (failure : Failure)
  /-- A flag commits to the output beside the input, and there is none. -/
  | noOutputBeside (input outputs : Nat)
  | preimage (size input : Nat) (base : SighashBase) (anyoneCanPay : Bool)
  | legacyNoOutputBeside (input outputs : Nat)
  | legacyDigest (input : Nat) (flag : SighashFlag)
deriving DecidableEq, Repr

namespace Event

/-- How loud the event is. -/
def level : Event → EventLevel
  | instruction .. => .trace
  | noOutputBeside .. | legacyNoOutputBeside .. => .warn
  | _ => .debug

/-- A number with at least `width` digits. -/
def padded (width n : Nat) : String :=
  String.ofList (List.replicate (width - (toString n).length) '0') ++ toString n

/-- A truth value in words. -/
def truthName (v : Bool) : String := if v then "true" else "false"

/-- A number in hexadecimal, with at least two digits. -/
def hex (n : Nat) : String := if n < 16 then "0" ++ Hex.ofNat n else Hex.ofNat n

/-- The event in words. -/
def text : Event → String
  | started input unlocking locking flags =>
    s!"verifying input {input} ({unlocking} + {locking} script bytes, flags 0x{Hex.ofNat flags})"
  | instruction offset op depth branches =>
    s!"{padded 4 offset} {op.name} depth={depth} branches={branches}"
  | redeeming size input =>
    s!"evaluating P2SH redeem script of {size} bytes for input {input}"
  | verified input => s!"input {input} verified"
  | failed input failure =>
    s!"input {input} failed: {failure.code.name} ({failure.description})"
  | noOutputBeside input outputs =>
    s!"SIGHASH_SINGLE on input {input} with only {outputs} outputs, hashOutputs is zero"
  | preimage size input base anyoneCanPay =>
    s!"built {size}-byte preimage for input {input} ({base.name}, " ++
      s!"anyonecanpay={truthName anyoneCanPay})"
  | legacyNoOutputBeside input outputs =>
    s!"legacy SIGHASH_SINGLE on input {input} with only {outputs} outputs, digest is 1"
  | legacyDigest input flag =>
    s!"legacy digest for input {input} (flag 0x{hex flag.word.toNat})"

/-- The event as a line of a log. -/
def line (e : Event) : String := e.level.name ++ " " ++ e.text

end Event

/-- A digest that was asked for. -/
structure DigestRequest where
  input : Nat
  scriptCode : Bytes
  flag : SighashFlag
  forkId : Bool
  answer : Except Failure Hash256

/-- What a run leaves behind, latest first. -/
structure Journal where
  events : List Event
  requests : List DigestRequest

/-- Nothing has happened yet. -/
def Journal.empty : Journal := ⟨[], []⟩

end CoinScript
