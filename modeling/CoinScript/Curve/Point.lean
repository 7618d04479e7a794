import CoinScript.Curve.Modular

/-!
# The curve secp256k1

The curve `y² = x³ + 7` over the integers modulo `prime`, with the base point of order `order`.
Sums are computed on Jacobian coordinates `(X, Y, Z)`, which stand for the point `(X/Z², Y/Z³)`, so
that a multiple of a point takes one inversion at the end; `Z = 0` is the neutral point.
-/

namespace CoinScript.Secp256k1

/-- The prime of the field of coordinates. -/
def prime : Nat := 0xfffffffffffffffffffffffffffffffffffffffffffffffffffffffefffffc2f

/-- The order of the base point. -/
def order : Nat := 0xfffffffffffffffffffffffffffffffebaaedce6af48a03bbfd25e8cd0364141

/-- Half of the order, rounded down. -/
def halfOrder : Nat := 0x7fffffffffffffffffffffffffffffff5d576e7357a4501ddfe92f46681b20a0

theorem halfOrder_eq : halfOrder = order / 2 := by decide

/-- A point other than the neutral one. -/
structure Affine where
  x : Nat
  y : Nat
deriving DecidableEq, Repr

/-- The base point. -/
def base : Affine where
  x := 0x79be667ef9dcbbac55a06295ce870b07029bfcdb2dce28d959f2815b16f81798
  y := 0x483ada7726a3c4655da4fbfc0e1108a8fd17b448a68554199c47d08ffb10d4b8

/-- The right-hand side of the curve equation. -/
def cubic (x : Nat) : Nat := (x * x % prime * x + 7) % prime

/-- Whether two coordinates lie on the curve. -/
def onCurve (x y : Nat) : Bool := y * y % prime == cubic x

/-- A square root modulo the prime, if there is one. -/
def sqrt? (a : Nat) : Option Nat :=
  let root := Modular.pow prime a ((prime + 1) / 4)
  if root * root % prime = a then some root else none

/-- A point in Jacobian coordinates. -/
structure Jacobian where
  x : Nat
  y : Nat
  z : Nat
deriving DecidableEq, Repr

namespace Jacobian

/-- The neutral point. -/
def neutral : Jacobian := ⟨1, 1, 0⟩

/-- A point given by its affine coordinates. -/
def ofAffine (a : Affine) : Jacobian := ⟨a.x, a.y, 1⟩

/-- The affine coordinates; the neutral point has none. -/
def toAffine? (p : Jacobian) : Option Affine :=
  if p.z = 0 then none
  else
    let w := Modular.inverse prime p.z
    let w2 := w * w % prime
    some ⟨p.x * w2 % prime, p.y * (w2 * w % prime) % prime⟩

/-- Twice a point. -/
def double (p : Jacobian) : Jacobian :=
  let a := p.x * p.x % prime
  let b := p.y * p.y % prime
  let c := b * b % prime
  let d := 2 * Modular.sub prime ((p.x + b) * (p.x + b) % prime) ((a + c) % prime) % prime
  let e := 3 * a % prime
  let x := Modular.sub prime (e * e % prime) (2 * d % prime)
  let y := Modular.sub prime (e * Modular.sub prime d x % prime) (8 * c % prime)
  ⟨x, y, 2 * p.y * p.z % prime⟩

/-- The sum of two points. -/
def add (p q : Jacobian) : Jacobian :=
  if p.z = 0 then q
  else if q.z = 0 then p
  else
    let pz2 := p.z * p.z % prime
    let qz2 := q.z * q.z % prime
    let u1 := p.x * qz2 % prime
    let u2 := q.x * pz2 % prime
    let s1 := p.y * (qz2 * q.z % prime) % prime
    let s2 := q.y * (pz2 * p.z % prime) % prime
    if u1 = u2 then
      if s1 = s2 then p.double else neutral
    else
      let h := Modular.sub prime u2 u1
      let r := Modular.sub prime s2 s1
      let h2 := h * h % prime
      let h3 := h2 * h % prime
      let v := u1 * h2 % prime
      let x := Modular.sub prime (r * r % prime) ((h3 + 2 * v) % prime)
      let y := Modular.sub prime (r * Modular.sub prime v x % prime) (s1 * h3 % prime)
      ⟨x, y, p.z * q.z % prime * h % prime⟩

/-- The multiple of a point by the lowest `k` bits of `n`. -/
def mulBits (p : Jacobian) : (k n : Nat) → Jacobian
  | 0, _ => neutral
  | k + 1, n =>
    let twice := (p.mulBits k (n / 2)).double
    if n % 2 = 1 then twice.add p else twice

/-- The multiple `n · p`. -/
def mul (n : Nat) (p : Jacobian) : Jacobian := p.mulBits (n.log2 + 1) n

end Jacobian

end CoinScript.Secp256k1
