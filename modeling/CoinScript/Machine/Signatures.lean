import CoinScript.Digest.Ripemd160
import CoinScript.Digest.Sha1
import CoinScript.Digest.Sha256
import CoinScript.Machine.State
import CoinScript.Script.SignedPart
import CoinScript.Signature.Der

/-!
# Hashes and signatures

A signature on the stack is a DER signature followed by the byte of its sighash flag.  Under the
flags its parts have to be encoded strictly, and a breach stops the run; apart from that a signature
or key that cannot be read is simply not valid.

A check of several signatures looks for keys in order: each signature is tried against the
remaining keys until one fits, and it fails as soon as there are fewer keys than signatures left.
-/

namespace CoinScript

/-- The result of a hash operation. -/
def HashOp.eval : HashOp → Bytes → Bytes
  | .ripemd160, b => (CoinScript.ripemd160 b).bytes
  | .sha1, b => (CoinScript.sha1 b).bytes
  | .sha256, b => (CoinScript.sha256 b).bytes
  | .hash160, b => (CoinScript.hash160 b).bytes
  | .hash256, b => (CoinScript.sha256d b).bytes

namespace Rules

/-- The digest for this signature is the one that commits to the amount. -/
def usesForkId (r : Rules) (sig : Bytes) : Bool :=
  r.flags.has .forkId &&
    match sig.getLast? with
    | some b => (SighashFlag.ofByte b).hasForkId
    | none => false

/-- The sighash flag of a signature has one of the three bases, and the bit for the amount exactly
if it is in use. -/
def checkSighashByte (r : Rules) (b : UInt8) : Except Fault Unit := do
  if r.flags.has .strictEncoding then
    let base := (SighashFlag.ofByte b).strictBase
    if base < 1 ∨ 3 < base then throw (.sighashBase b)
    let marked := (SighashFlag.ofByte b).hasForkId
    let enabled := r.flags.has .forkId
    if marked && !enabled then throw .forkIdNotEnabled
    if !marked && enabled then throw .forkIdMissing

/-- A signature, without its last byte, is strictly encoded, and its second number is the smaller
of the two. -/
def checkDer (r : Rules) (der : Bytes) : Except Fault Unit := do
  if r.flags.hasAny [.derSignatures, .lowS, .strictEncoding] then
    match Der.check der with
    | .error cause => throw (.der cause)
    | .ok () => pure ()
    if r.flags.has .lowS then
      match Signature.ofDerLax der with
      | .error _ => throw .highS
      | .ok sig => if sig.hasHighS then throw .highS

/-- The encoding of a signature; an empty one needs none. -/
def checkSignature (r : Rules) (sig : Bytes) : Except Fault Unit :=
  match sig.getLast? with
  | none => .ok ()
  | some b => do
    r.checkSighashByte b
    r.checkDer sig.dropLast

/-- The encoding of a key: compressed or uncompressed. -/
def checkKey (r : Rules) (key : Bytes) : Except Fault Unit :=
  if r.flags.has .strictEncoding = true ∧
      ¬(key.length = 33 ∧ (key.head? = some 0x02 ∨ key.head? = some 0x03)) ∧
      ¬(key.length = 65 ∧ key.head? = some 0x04) then
    .error .keyEncoding
  else .ok ()

end Rules

namespace Run

/-- Asks the transaction for a digest and records the question and the answer. -/
def askDigest (r : Rules) (c : Context) (code : Bytes) (flag : SighashFlag) (forkId : Bool) :
    Run Hash256 := do
  let answer := c.digest r.input code flag forkId
  let happened := c.digestEvents r.input code flag forkId
  modify fun m =>
    { m with
      journal :=
        ⟨happened.reverse ++ m.journal.events,
          ⟨r.input, code, flag, forkId, answer⟩ :: m.journal.requests⟩ }
  match answer with
  | .ok digest => pure digest
  | .error cause => throw (.context cause)

/-- Whether a signature is valid for a key and a signed part.  What cannot be read is not valid. -/
def checkSig (r : Rules) (c : Context) (sig key code : Bytes) : Run Bool := do
  match sig.getLast? with
  | none => return false
  | some b =>
    match Signature.ofDerLax sig.dropLast, r.scheme.decodeKey key with
    | .ok s, some k =>
      let digest ← askDigest r c code (.ofByte b) (r.usesForkId sig)
      return s.verify r.scheme k digest
    | _, _ => return false

/-- The signed part of the running script. -/
def currentPart (script : List Instruction) : Run (List Instruction) := do
  return signedPart script (← get).codeStart

/-- The bytes that a signature commits to, where `legacy` are the signatures to leave out of the
older form. -/
def codeFor (r : Rules) (part : List Instruction) (legacy : List Bytes) (sig : Bytes) : Bytes :=
  if r.usesForkId sig then Script.encode part else withoutSignatures part legacy

/-- Executes the check of one signature. -/
def checkSingle (r : Rules) (script : List Instruction) (op : Opcode) : Run Unit := do
  let c ← r.requireContext op
  let key ← pop
  let sig ← pop
  ofExcept (r.checkSignature sig)
  ofExcept (r.checkKey key)
  let part ← currentPart script
  let valid ← checkSig r c sig key (codeFor r part [sig] sig)
  require (valid || !r.flags.has .nullFail || sig.isEmpty) (.failedSignatureNotEmpty false)
  pushTruth valid

/-- Tries the signatures against the keys in order.  `check` decides about one pair. -/
def matchKeys (check : (sig key : Bytes) → Run Bool) : (keys sigs : List Bytes) → Run Bool
  | _, [] => return true
  | [], _ :: _ => return false
  | key :: keys, sig :: sigs => do
    if keys.length < sigs.length then
      return false
    else if ← check sig key then
      matchKeys check keys sigs
    else
      matchKeys check keys (sig :: sigs)

/-- Takes a count between zero and `limit`, and that many elements after what `before` does. -/
def popCounted (r : Rules) (limit : Nat) (fault : Int → Fault) (before : Nat → Run Unit) :
    Run (List Bytes) := do
  let n := Number.clamp 64 (← popNumber r)
  require (decide (0 ≤ n ∧ n ≤ limit)) (fault n)
  before n.toNat
  onMain (Stack.popMany n.toNat)

/-- Checks the encodings of a signature and a key and then whether they fit. -/
def checkPair (r : Rules) (c : Context) (part : List Instruction) (legacy : List Bytes)
    (sig key : Bytes) : Run Bool := do
  ofExcept (r.checkSignature sig)
  ofExcept (r.checkKey key)
  checkSig r c sig key (codeFor r part legacy sig)

/-- Executes the check of several signatures.  One element more than needed is taken. -/
def checkMultiple (r : Rules) (script : List Instruction) (op : Opcode) : Run Unit := do
  let c ← r.requireContext op
  let keys ← popCounted r r.limits.maxKeysPerMultisig
    (fun n => .keyCount n r.limits.maxKeysPerMultisig) (countOperations r)
  let sigs ← popCounted r keys.length (fun n => .signatureCount n keys.length)
    (fun _ => return ())
  let dummy ← pop
  require (dummy.isEmpty || !r.flags.has .nullDummy) (.dummyNotEmpty dummy.length)
  let part ← currentPart script
  let legacy := sigs.filter fun sig => !r.usesForkId sig
  let valid ← matchKeys (checkPair r c part legacy) keys sigs
  require (valid || !r.flags.has .nullFail || sigs.all List.isEmpty)
    (.failedSignatureNotEmpty true)
  pushTruth valid

/-- Executes an operation on hashes or signatures; `offset` is the number of the instruction. -/
def crypto (r : Rules) (script : List Instruction) (offset : Nat) (op : Opcode) :
    CryptoOp → Run Unit
  | .hash f => do
    push (f.eval (← pop))
  | .codeSeparator => modify fun m => { m with codeStart := offset + 1 }
  | .checkSig checked => do
    checkSingle r script op
    if checked then verifyTop op
  | .checkMultisig checked => do
    checkMultiple r script op
    if checked then verifyTop op

end Run

end CoinScript
