import CoinScript.Bytes.Endian

/-!
# Messages as blocks of words

SHA-1, SHA-256 and RIPEMD-160 read a message the same way: the message is closed by the byte
`0x80`, filled with zeros to eight bytes short of a multiple of 64, and followed by its length in
bits.  The result is cut into blocks of 64 bytes, and each block is read as sixteen 32-bit words.
The three differ in byte order only.
-/

namespace CoinScript.Digest

/-- Which end of a word comes first. -/
inductive ByteOrder
  | little
  | big
deriving DecidableEq, Repr

namespace ByteOrder

/-- The `w` bytes of a number. -/
def bytes : ByteOrder → (w n : Nat) → Bytes
  | little, w, n => Bytes.ofNatLE w n
  | big, w, n => Bytes.ofNatBE w n

@[simp] theorem length_bytes (o : ByteOrder) (w n : Nat) : (o.bytes w n).length = w := by
  cases o <;> simp [bytes]

/-- The word made of four bytes. -/
def word : ByteOrder → (a b c d : UInt8) → UInt32
  | little, a, b, c, d =>
    a.toUInt32 ||| (b.toUInt32 <<< 8) ||| (c.toUInt32 <<< 16) ||| (d.toUInt32 <<< 24)
  | big, a, b, c, d =>
    d.toUInt32 ||| (c.toUInt32 <<< 8) ||| (b.toUInt32 <<< 16) ||| (a.toUInt32 <<< 24)

/-- A byte string as words, four bytes each; up to three bytes at the end are left out. -/
def words (o : ByteOrder) : Bytes → List UInt32
  | a :: b :: c :: d :: rest => o.word a b c d :: o.words rest
  | _ => []

end ByteOrder

/-- Words as bytes. -/
def wordBytes (o : ByteOrder) (ws : List UInt32) : Bytes := ws.flatMap fun w => o.bytes 4 w.toNat

theorem length_wordBytes (o : ByteOrder) (ws : List UInt32) :
    (wordBytes o ws).length = 4 * ws.length := by
  induction ws with
  | nil => rfl
  | cons w ws ih =>
    rw [wordBytes, List.flatMap_cons, List.length_append, ← wordBytes, ih,
      ByteOrder.length_bytes, List.length_cons]
    omega

/-- Number of zero bytes between the closing byte and the length. -/
def fillSize (length : Nat) : Nat := (119 - length % 64) % 64

/-- The message with its closing byte, filling and length in bits. -/
def pad (o : ByteOrder) (message : Bytes) : Bytes :=
  message ++ 0x80 :: (List.replicate (fillSize message.length) 0
    ++ o.bytes 8 (8 * message.length))

/-- A padded message is a whole number of blocks. -/
theorem length_pad (o : ByteOrder) (message : Bytes) : (pad o message).length % 64 = 0 := by
  simp only [pad, List.length_append, List.length_cons, List.length_replicate,
    ByteOrder.length_bytes, fillSize]
  omega

/-- The first `count` blocks of 64 bytes. -/
def blocks : (count : Nat) → Bytes → List Bytes
  | 0, _ => []
  | count + 1, b => b.take 64 :: blocks count (b.drop 64)

/-- The blocks of a message, each as sixteen words. -/
def messageBlocks (o : ByteOrder) (message : Bytes) : List (List UInt32) :=
  let padded := pad o message
  (blocks (padded.length / 64) padded).map o.words

/-- Rotation of a word to the left. -/
def rotateLeft (x : UInt32) (k : UInt32) : UInt32 := (x <<< k) ||| (x >>> (32 - k))

/-- Rotation of a word to the right. -/
def rotateRight (x : UInt32) (k : UInt32) : UInt32 := (x >>> k) ||| (x <<< (32 - k))

end CoinScript.Digest
