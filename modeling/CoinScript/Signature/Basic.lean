import CoinScript.Bytes.Endian
import CoinScript.Curve.Point

/-!
# Signatures

A signature is a pair of 256-bit numbers `r` and `s`, kept exactly as produced or decoded.  It is
valid for at most one residue of `s` up to sign: `(r, s)` and `(r, N - s)` verify alike, where `N`
is the order of the curve.  The twin with the smaller `s` is the canonical one; passing to it is an
explicit step.
-/

namespace CoinScript

open Secp256k1 (order halfOrder)

/-- A pair of 256-bit numbers. -/
structure Signature where
  r : BitVec 256
  s : BitVec 256
deriving DecidableEq

namespace Signature

/-- Both numbers lie between 1 and the order less 1. -/
def InRange (sig : Signature) : Prop :=
  (0 < sig.r.toNat ∧ sig.r.toNat < order) ∧ (0 < sig.s.toNat ∧ sig.s.toNat < order)

instance (sig : Signature) : Decidable sig.InRange := by
  unfold InRange
  infer_instance

/-- The second number is above half the order. -/
def hasHighS (sig : Signature) : Bool := decide (halfOrder < sig.s.toNat)

/-- Both numbers are in range and the second is at most half the order. -/
def isCanonical (sig : Signature) : Bool := decide sig.InRange && !sig.hasHighS

/-- The twin with the smaller second number.  A second number that is not below the order names
nothing and stays as it is. -/
def toCanonical (sig : Signature) : Signature :=
  if sig.hasHighS ∧ sig.s.toNat < order then
    { sig with s := BitVec.ofNat 256 (order - sig.s.toNat) }
  else sig

/-- A 256-bit number as 32 big-endian bytes. -/
def scalarBytes (n : BitVec 256) : Bytes := Bytes.ofNatBE 32 n.toNat

/-- The signature whose numbers have the given 32 bytes each. -/
def ofBlocks (r s : Hash256) : Signature :=
  ⟨BitVec.ofNat 256 (Bytes.toNatBE r.bytes), BitVec.ofNat 256 (Bytes.toNatBE s.bytes)⟩

end Signature

end CoinScript
