import CoinScript.Digest.Sha256

/-!
# HMAC with SHA-256

The keyed hash that signing nonces are drawn from.
-/

namespace CoinScript

namespace Digest.Hmac

/-- The key as one block of 64 bytes: a longer key is hashed first, a shorter one is filled up
with zeros. -/
def keyBlock (key : Bytes) : Bytes :=
  let short := if key.length ≤ 64 then key else (sha256 key).bytes
  short ++ List.replicate (64 - short.length) 0

end Digest.Hmac

/-- HMAC-SHA256 of a message under a key. -/
def hmacSha256 (key message : Bytes) : Hash256 :=
  let block := Digest.Hmac.keyBlock key
  let inner := sha256 (block.map (· ^^^ 0x36) ++ message)
  sha256 (block.map (· ^^^ 0x5c) ++ inner.bytes)

end CoinScript
