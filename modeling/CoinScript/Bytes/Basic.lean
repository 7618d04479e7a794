/-!
# Byte strings and blocks of fixed size

Scripts, stack elements, keys and wire data are lists of bytes.  Digests, transaction ids and
preimage hashes are byte strings whose length is part of what they are, so they have a type of
their own, `Block n`, that carries the length as a proof.
-/

namespace CoinScript

/-- A string of bytes. -/
abbrev Bytes := List UInt8

/-- A byte string of exactly `n` bytes. -/
structure Block (n : Nat) where
  /-- The bytes, first byte first. -/
  bytes : Bytes
  size_eq : bytes.length = n
deriving DecidableEq

/-- A 32-byte hash value: a digest or a transaction id in the byte order it is hashed in. -/
abbrev Hash256 := Block 32

/-- A 20-byte hash value: what a locking script says of a key or of another script. -/
abbrev Hash160 := Block 20

namespace Block

variable {n : Nat}

theorem ext {a b : Block n} (h : a.bytes = b.bytes) : a = b := by
  cases a
  cases b
  cases h
  rfl

/-- The block of `n` zero bytes. -/
def zero (n : Nat) : Block n := ⟨List.replicate n 0, List.length_replicate ..⟩

/-- A byte string as a block, if it has the right length. -/
def ofBytes? (n : Nat) (b : Bytes) : Option (Block n) :=
  if h : b.length = n then some ⟨b, h⟩ else none

/-- The same bytes in the opposite order. -/
def reverse (b : Block n) : Block n := ⟨b.bytes.reverse, by rw [List.length_reverse, b.size_eq]⟩

/-- A block whose bytes are all zero. -/
def isZero (b : Block n) : Bool := b.bytes.all (· == 0)

@[simp] theorem length_bytes (b : Block n) : b.bytes.length = n := b.size_eq

@[simp] theorem reverse_reverse (b : Block n) : b.reverse.reverse = b :=
  ext (List.reverse_reverse b.bytes)

@[simp] theorem ofBytes?_bytes (b : Block n) : ofBytes? n b.bytes = some b := by
  simp [ofBytes?]

theorem bytes_of_ofBytes? {b : Bytes} {c : Block n} (h : ofBytes? n b = some c) : c.bytes = b := by
  unfold ofBytes? at h
  split at h
  · cases h
    rfl
  · cases h

end Block

end CoinScript
