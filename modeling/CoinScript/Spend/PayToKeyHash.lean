import CoinScript.Key.Public
import CoinScript.Sighash.Digest
import CoinScript.Signature.Der

/-!
# Spending from the hash of a key

An output that is locked by `Script.payToKeyHash` is unlocked by a signature and the key: two
pushes, the first of the DER signature with the byte of its flag, the second of the compressed key.
-/

namespace CoinScript.PayToKeyHash

/-- The lock for a key. -/
def lockFor (key : PublicKey) : Script := Script.payToKeyHash key.hash

/-- The signature element for a signature and a flag. -/
def signatureElement (sig : Signature) (flag : SighashFlag) : Bytes := sig.toDer ++ [flag.toByte]

/-- Two byte strings, each behind its shortest push header. -/
def pushTwo (first second : Bytes) : Except ScriptError Script := do
  return (← Script.pushed first) ++ (← Script.pushed second)

/-- The script that unlocks an input of a transaction. -/
def unlock (scheme : Scheme) (key : PrivateKey) (flag : SighashFlag) (tx : Transaction)
    (index : Nat) : Except TransactionError Script := do
  let digest ← tx.inputDigest index flag
  match Signature.sign scheme key digest with
  | .error cause => throw (.signing cause)
  | .ok sig =>
    match pushTwo (signatureElement sig flag) (scheme.publicKey key).compressed with
    | .ok s => return s
    | .error cause => throw (.script cause)

/-- The transaction with an input unlocked. -/
def signInput (scheme : Scheme) (key : PrivateKey) (flag : SighashFlag) (tx : Transaction)
    (index : Nat) : Except TransactionError Transaction := do
  let unlocking ← unlock scheme key flag tx index
  tx.modifyInput index fun i => { i with unlocking }

end CoinScript.PayToKeyHash
