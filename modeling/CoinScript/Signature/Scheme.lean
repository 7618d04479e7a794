import CoinScript.Bytes.Basic
import CoinScript.Key.Private
import CoinScript.Key.Public
import CoinScript.Signature.Basic
import CoinScript.Signature.Nonce

/-!
# Signing and verifying

A `Scheme` is what scripts and transactions need of a signature scheme: the public key of a private
key, a raw signature of a digest, which pairs of numbers it takes for a signature, the check of one, and
the reading of an encoded public key.  Everything above it takes a scheme as a parameter, and relies on
one law: the numbers that are taken for a signature are those in range (`Scheme.admits_iff`).
`Scheme.secp256k1` is ECDSA on the curve.

Signatures are used in their canonical form on both sides.  `Signature.sign` passes to the
canonical twin of what the scheme produced, and `Signature.verify` gives the scheme the canonical
twin of what it was given, so both twins of a signature verify alike.
`Signature.verifyCanonical` accepts the canonical one only.
-/

namespace CoinScript

/-- A signature scheme over digests of 32 bytes. -/
structure Scheme where
  /-- The public key that belongs to a private key. -/
  publicKey : PrivateKey → PublicKey
  /-- The signature of a digest; it fails if no signature can be made. -/
  sign : PrivateKey → Hash256 → Option Signature
  /-- Whether a pair of numbers is taken for a signature. -/
  admits : Signature → Bool
  /-- It is if both numbers are in range, and only then. -/
  admits_iff : ∀ sig, admits sig = true ↔ sig.InRange
  /-- Checks a signature that is admitted. -/
  verify : PublicKey → Hash256 → Signature → Bool
  /-- Reads an encoded public key. -/
  decodeKey : Bytes → Option PublicKey

/-- Why no signature was made. -/
inductive SigningError
  | refused
deriving DecidableEq, Repr

namespace SigningError

/-- The error in words. -/
def message : SigningError → String
  | refused => "signing failed: signature error"

end SigningError

namespace Ecdsa

open Secp256k1

/-- The digest as a number modulo the order. -/
def residue (digest : Hash256) : Nat := Bytes.toNatBE digest.bytes % order

/-- The point that a private key is the multiple of. -/
def publicKey (key : PrivateKey) : PublicKey :=
  ⟨((Jacobian.mul key.scalar (.ofAffine base)).toAffine?).getD base⟩

/-- The signature of a digest with a given nonce. -/
def signWith (key : PrivateKey) (digest : Hash256) (nonce : Nat) : Option Signature :=
  match (Jacobian.mul nonce (.ofAffine base)).toAffine? with
  | none => none
  | some point =>
    let r := point.x % order
    let s := Modular.inverse order nonce * ((residue digest + r * key.scalar) % order) % order
    if r = 0 ∨ s = 0 then none else some ⟨BitVec.ofNat 256 r, BitVec.ofNat 256 s⟩

/-- The signature of a digest with its own nonce. -/
def sign (key : PrivateKey) (digest : Hash256) : Option Signature :=
  (Nonce.derive key.toBytes digest.bytes).bind (signWith key digest)

/-- Whether the first number of the signature is the `x` of the point it names, modulo the
order. -/
def verify (key : PublicKey) (digest : Hash256) (sig : Signature) : Bool :=
  let w := Modular.inverse order sig.s.toNat
  let u := residue digest * w % order
  let v := sig.r.toNat * w % order
  let sum := (Jacobian.mul u (.ofAffine base)).add (Jacobian.mul v (.ofAffine key.point))
  match sum.toAffine? with
  | none => false
  | some point => point.x % order == sig.r.toNat

end Ecdsa

/-- ECDSA with deterministic nonces on the curve secp256k1. -/
def Scheme.secp256k1 : Scheme where
  publicKey := Ecdsa.publicKey
  sign := Ecdsa.sign
  admits sig := decide sig.InRange
  admits_iff _ := decide_eq_true_iff
  verify := Ecdsa.verify
  decodeKey := PublicKey.decode?

namespace Signature

/-- Signs a digest; the result is in canonical form. -/
def sign (scheme : Scheme) (key : PrivateKey) (digest : Hash256) :
    Except SigningError Signature :=
  match scheme.sign key digest with
  | some sig => .ok sig.toCanonical
  | none => .error .refused

/-- Whether a signature or its twin is valid. -/
def verify (scheme : Scheme) (key : PublicKey) (digest : Hash256) (sig : Signature) : Bool :=
  scheme.admits sig.toCanonical && scheme.verify key digest sig.toCanonical

/-- Whether a signature is valid and canonical. -/
def verifyCanonical (scheme : Scheme) (key : PublicKey) (digest : Hash256) (sig : Signature) :
    Bool :=
  sig.isCanonical && verify scheme key digest sig

end Signature

end CoinScript
