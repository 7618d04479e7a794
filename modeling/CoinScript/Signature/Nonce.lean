import CoinScript.Bytes.Endian
import CoinScript.Curve.Point
import CoinScript.Digest.Hmac

/-!
# Deterministic nonces

The nonce of a signature is drawn from a keyed generator that is seeded with the private key and
the digest, so that signing the same digest twice gives the same signature.  The digest enters the
seed as it is, not reduced modulo the order.  A drawn number that is zero or not below the order is
passed over; `drawLimit` bounds how often, far beyond what can happen.
-/

namespace CoinScript.Nonce

/-- The state of the generator: its key and its running value. -/
structure Generator where
  key : Bytes
  value : Bytes

namespace Generator

/-- Mixes data into the state. -/
def absorb (g : Generator) (separator : UInt8) (data : Bytes) : Generator :=
  let key := (hmacSha256 g.key (g.value ++ separator :: data)).bytes
  ⟨key, (hmacSha256 key g.value).bytes⟩

/-- The generator for a private key and a digest, given as their bytes. -/
def seed (secret digest : Bytes) : Generator :=
  let start : Generator := ⟨List.replicate 32 0, List.replicate 32 1⟩
  (start.absorb 0 (secret ++ digest)).absorb 1 (secret ++ digest)

/-- The next number and the state after it. -/
def next (g : Generator) : Nat × Generator :=
  let value := (hmacSha256 g.key g.value).bytes
  (Bytes.toNatBE value, { g with value })

end Generator

/-- The first number between 1 and the order less 1 among the next `limit`. -/
def draw : (limit : Nat) → Generator → Option Nat
  | 0, _ => none
  | limit + 1, g =>
    if 0 < g.next.1 ∧ g.next.1 < Secp256k1.order then some g.next.1
    else draw limit (g.next.2.absorb 0 [])

/-- How many numbers are drawn at most. -/
def drawLimit : Nat := 128

/-- The nonce for a private key and a digest, given as their bytes. -/
def derive (secret digest : Bytes) : Option Nat := draw drawLimit (Generator.seed secret digest)

/-- A nonce is between 1 and the order less 1. -/
theorem range_of_draw {limit : Nat} {g : Generator} {n : Nat} (h : draw limit g = some n) :
    0 < n ∧ n < Secp256k1.order := by
  induction limit generalizing g with
  | zero => simp [draw] at h
  | succ limit ih =>
    rw [draw] at h
    split at h
    · next hn => rwa [Option.some.inj h] at hn
    · exact ih h

end CoinScript.Nonce
