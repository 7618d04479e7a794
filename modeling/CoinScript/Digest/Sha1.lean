import CoinScript.Digest.Message

/-!
# SHA-1

Kept for the one script operation that offers it.
-/

namespace CoinScript

namespace Digest.Sha1

/-- The five words carried from block to block. -/
structure State where
  a : UInt32
  b : UInt32
  c : UInt32
  d : UInt32
  e : UInt32

namespace State

/-- The words before the first block. -/
def start : State := ⟨0x67452301, 0xefcdab89, 0x98badcfe, 0x10325476, 0xc3d2e1f0⟩

/-- Wordwise sum. -/
def add (s t : State) : State := ⟨s.a + t.a, s.b + t.b, s.c + t.c, s.d + t.d, s.e + t.e⟩

/-- The words in order. -/
def words (s : State) : List UInt32 := [s.a, s.b, s.c, s.d, s.e]

end State

/-- Extends the words of a block, newest first, by `count` scheduled words. -/
def extend : (count : Nat) → List UInt32 → List UInt32
  | 0, ws => ws
  | count + 1, ws =>
    let next := ws.getD 2 0 ^^^ ws.getD 7 0 ^^^ ws.getD 13 0 ^^^ ws.getD 15 0
    extend count (rotateLeft next 1 :: ws)

/-- The 80 words that drive the rounds of one block. -/
def schedule (block : List UInt32) : List UInt32 := (extend 64 block.reverse).reverse

/-- How the three middle words are mixed in round `t`, and the constant of that round. -/
def mix (t : Nat) (b c d : UInt32) : UInt32 × UInt32 :=
  if t < 20 then ((b &&& c) ||| (~~~b &&& d), 0x5a827999)
  else if t < 40 then (b ^^^ c ^^^ d, 0x6ed9eba1)
  else if t < 60 then ((b &&& c) ||| (b &&& d) ||| (c &&& d), 0x8f1bbcdc)
  else (b ^^^ c ^^^ d, 0xca62c1d6)

/-- One round, given its scheduled word and its number. -/
def round (s : State) (w : UInt32 × Nat) : State :=
  let m := mix w.2 s.b s.c s.d
  ⟨rotateLeft s.a 5 + m.1 + s.e + m.2 + w.1, s.a, rotateLeft s.b 30, s.c, s.d⟩

/-- Takes one block into the chaining words. -/
def absorb (s : State) (block : List UInt32) : State :=
  s.add ((schedule block).zipIdx.foldl round s)

/-- The chaining words after the whole message. -/
def finish (message : Bytes) : State := (messageBlocks .big message).foldl absorb .start

end Digest.Sha1

/-- SHA-1 of a byte string. -/
def sha1 (message : Bytes) : Hash160 :=
  ⟨Digest.wordBytes .big (Digest.Sha1.finish message).words, by
    rw [Digest.length_wordBytes]
    rfl⟩

end CoinScript
