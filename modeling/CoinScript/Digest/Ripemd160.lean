import CoinScript.Digest.Sha256

/-!
# RIPEMD-160 and HASH160

Every block runs through two lines of 80 steps that differ in the order of the words, the rotations,
the constants and the order of the mixing functions; the results are crossed over.  HASH160, the
RIPEMD-160 of the SHA-256, is what locking scripts commit to.
-/

namespace CoinScript

namespace Digest.Ripemd160

/-- The five words carried from block to block. -/
structure State where
  a : UInt32
  b : UInt32
  c : UInt32
  d : UInt32
  e : UInt32

namespace State

/-- The words before the first block. -/
def start : State := ⟨0x67452301, 0xefcdab89, 0x98badcfe, 0x10325476, 0xc3d2e1f0⟩

/-- The words in order. -/
def words (s : State) : List UInt32 := [s.a, s.b, s.c, s.d, s.e]

end State

/-- The mixing function of one of the five groups of sixteen steps. -/
def mix (group : Nat) (x y z : UInt32) : UInt32 :=
  match group with
  | 0 => x ^^^ y ^^^ z
  | 1 => (x &&& y) ||| (~~~x &&& z)
  | 2 => (x ||| ~~~y) ^^^ z
  | 3 => (x &&& z) ||| (y &&& ~~~z)
  | _ => x ^^^ (y ||| ~~~z)

/-- One of the two lines: which word each step takes, how far it rotates, the constants of the
five groups, and the mixing function of each group. -/
structure Line where
  order : List Nat
  rotations : List UInt32
  constants : List UInt32
  mixing : List Nat

/-- The first line. -/
def leftLine : Line where
  order :=
    [0, 1, 2, 3, 4, 5, 6, 7, 8, 9, 10, 11, 12, 13, 14, 15,
     7, 4, 13, 1, 10, 6, 15, 3, 12, 0, 9, 5, 2, 14, 11, 8,
     3, 10, 14, 4, 9, 15, 8, 1, 2, 7, 0, 6, 13, 11, 5, 12,
     1, 9, 11, 10, 0, 8, 12, 4, 13, 3, 7, 15, 14, 5, 6, 2,
     4, 0, 5, 9, 7, 12, 2, 10, 14, 1, 3, 8, 11, 6, 15, 13]
  rotations :=
    [11, 14, 15, 12, 5, 8, 7, 9, 11, 13, 14, 15, 6, 7, 9, 8,
     7, 6, 8, 13, 11, 9, 7, 15, 7, 12, 15, 9, 11, 7, 13, 12,
     11, 13, 6, 7, 14, 9, 13, 15, 14, 8, 13, 6, 5, 12, 7, 5,
     11, 12, 14, 15, 14, 15, 9, 8, 9, 14, 5, 6, 8, 6, 5, 12,
     9, 15, 5, 11, 6, 8, 13, 12, 5, 12, 13, 14, 11, 8, 5, 6]
  constants := [0x00000000, 0x5a827999, 0x6ed9eba1, 0x8f1bbcdc, 0xa953fd4e]
  mixing := [0, 1, 2, 3, 4]

/-- The second line. -/
def rightLine : Line where
  order :=
    [5, 14, 7, 0, 9, 2, 11, 4, 13, 6, 15, 8, 1, 10, 3, 12,
     6, 11, 3, 7, 0, 13, 5, 10, 14, 15, 8, 12, 4, 9, 1, 2,
     15, 5, 1, 3, 7, 14, 6, 9, 11, 8, 12, 2, 10, 0, 4, 13,
     8, 6, 4, 1, 3, 11, 15, 0, 5, 12, 2, 13, 9, 7, 10, 14,
     12, 15, 10, 4, 1, 5, 8, 7, 6, 2, 13, 14, 0, 3, 9, 11]
  rotations :=
    [8, 9, 9, 11, 13, 15, 15, 5, 7, 7, 8, 11, 14, 14, 12, 6,
     9, 13, 15, 7, 12, 8, 9, 11, 7, 7, 12, 7, 6, 15, 13, 11,
     9, 7, 15, 11, 8, 6, 6, 14, 12, 13, 5, 14, 13, 13, 7, 5,
     15, 5, 8, 11, 14, 14, 6, 14, 6, 9, 12, 9, 12, 5, 15, 8,
     8, 5, 12, 9, 12, 5, 14, 6, 8, 13, 6, 5, 15, 13, 11, 11]
  constants := [0x50a28be6, 0x5c4dd124, 0x6d703ef3, 0x7a6d76e9, 0x00000000]
  mixing := [4, 3, 2, 1, 0]

/-- One step: `k` is the word it takes, its rotation and its number. -/
def step (line : Line) (block : List UInt32) (s : State) (k : (Nat × UInt32) × Nat) : State :=
  let group := k.2 / 16
  let t := s.a + mix (line.mixing.getD group 0) s.b s.c s.d + block.getD k.1.1 0
    + line.constants.getD group 0
  ⟨s.e, rotateLeft t k.1.2 + s.e, s.b, rotateLeft s.c 10, s.d⟩

/-- All steps of a line. -/
def run (line : Line) (block : List UInt32) (s : State) : State :=
  (line.order.zip line.rotations).zipIdx.foldl (step line block) s

/-- Takes one block into the chaining words. -/
def absorb (s : State) (block : List UInt32) : State :=
  let l := run leftLine block s
  let r := run rightLine block s
  ⟨s.b + l.c + r.d, s.c + l.d + r.e, s.d + l.e + r.a, s.e + l.a + r.b, s.a + l.b + r.c⟩

/-- The chaining words after the whole message. -/
def finish (message : Bytes) : State := (messageBlocks .little message).foldl absorb .start

end Digest.Ripemd160

/-- RIPEMD-160 of a byte string. -/
def ripemd160 (message : Bytes) : Hash160 :=
  ⟨Digest.wordBytes .little (Digest.Ripemd160.finish message).words, by
    rw [Digest.length_wordBytes]
    rfl⟩

/-- RIPEMD-160 of the SHA-256 of a byte string: the hash in pay-to-key and pay-to-script locks. -/
def hash160 (message : Bytes) : Hash160 := ripemd160 (sha256 message).bytes

end CoinScript
