import CoinScript.Bytes.Basic

/-!
# Bit strings

A byte string read as one string of bits, the highest bit of the first byte first.  Shifts keep
the length: bits that leave at one end are lost, and zeros come in at the other.
-/

namespace CoinScript.Bytes

/-- Every byte together with the part of the byte after it that moves into it, for a shift to the
left by less than eight bits. -/
def shiftLeftBits (bits : Nat) : Bytes → Bytes
  | [] => []
  | b :: bs =>
    let next := (bs.head?.getD 0).toNat
    UInt8.ofNat ((256 * b.toNat + next) <<< bits / 256) :: shiftLeftBits bits bs

/-- Every byte together with the part of the byte before it that moves into it, for a shift to the
right by less than eight bits; `before` is the byte before the first. -/
def shiftRightBits (bits : Nat) (before : UInt8) : Bytes → Bytes
  | [] => []
  | b :: bs =>
    UInt8.ofNat ((256 * before.toNat + b.toNat) >>> bits) :: shiftRightBits bits b bs

/-- The bit string shifted to the left by `n` bits. -/
def shiftLeft (b : Bytes) (n : Nat) : Bytes :=
  let whole := min (n / 8) b.length
  shiftLeftBits (n % 8) (b.drop whole) ++ List.replicate whole 0

/-- The bit string shifted to the right by `n` bits. -/
def shiftRight (b : Bytes) (n : Nat) : Bytes :=
  let whole := min (n / 8) b.length
  List.replicate whole 0 ++ shiftRightBits (n % 8) 0 (b.take (b.length - whole))

theorem length_shiftLeftBits (bits : Nat) (b : Bytes) :
    (shiftLeftBits bits b).length = b.length := by
  induction b with
  | nil => rfl
  | cons x xs ih => simp [shiftLeftBits, ih]

theorem length_shiftRightBits (bits : Nat) (before : UInt8) (b : Bytes) :
    (shiftRightBits bits before b).length = b.length := by
  induction b generalizing before with
  | nil => rfl
  | cons x xs ih => simp [shiftRightBits, ih]

@[simp] theorem length_shiftLeft (b : Bytes) (n : Nat) : (shiftLeft b n).length = b.length := by
  simp only [shiftLeft, List.length_append, length_shiftLeftBits, List.length_drop,
    List.length_replicate]
  omega

@[simp] theorem length_shiftRight (b : Bytes) (n : Nat) :
    (shiftRight b n).length = b.length := by
  simp only [shiftRight, List.length_append, length_shiftRightBits, List.length_take,
    List.length_replicate]
  omega

end CoinScript.Bytes
