import CoinScript.Bytes.Endian

/-!
# Long numbers as byte strings

Operands may have hundreds of thousands of bytes.  Taken byte by byte, the work of reading or
writing a number grows with the square of its length; here the bytes are halved until they are
few, and the halves are put together by shifts.

`longValue` is the same function as `toNatLE`, and `longDigits` the same as `digitsLE`.
-/

namespace CoinScript.Bytes

/-- How often a number of bytes is halved before the rest is taken byte by byte. -/
def halvings (count : Nat) : Nat := Nat.log2 (count / 32)

/-- The value of little-endian bytes that are halved `rounds` times. -/
def valueByHalves : (rounds : Nat) → Bytes → Nat
  | 0, b => toNatLE b
  | rounds + 1, b =>
    let half := b.length / 2
    valueByHalves rounds (b.take half) + valueByHalves rounds (b.drop half) <<< (8 * half)

/-- The number with the given little-endian bytes. -/
def longValue (b : Bytes) : Nat := valueByHalves (halvings b.length) b

/-- The `w` little-endian bytes of `n`, halved `rounds` times. -/
def bytesByHalves : (rounds : Nat) → (w n : Nat) → Bytes
  | 0, w, n => ofNatLE w n
  | rounds + 1, w, n =>
    let half := w / 2
    let high := n >>> (8 * half)
    bytesByHalves rounds half (n - high <<< (8 * half)) ++ bytesByHalves rounds (w - half) high

/-- Number of bytes of the shortest form. -/
def byteCount (n : Nat) : Nat := if n = 0 then 0 else Nat.log2 n / 8 + 1

/-- The shortest little-endian form of `n`. -/
def longDigits (n : Nat) : Bytes := bytesByHalves (halvings (byteCount n)) (byteCount n) n

end CoinScript.Bytes
