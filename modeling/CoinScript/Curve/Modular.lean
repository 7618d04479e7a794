/-!
# Arithmetic modulo a number

Powers by repeated squaring, and differences that stay natural numbers.  The inverse modulo a prime
is the power `m - 2`.
-/

namespace CoinScript.Modular

/-- The power `b ^ e` modulo `m`, reading the lowest `k` bits of `e`. -/
def powBits (m : Nat) : (k b e : Nat) → Nat
  | 0, _, _ => 1 % m
  | k + 1, b, e =>
    let rest := powBits m k (b * b % m) (e / 2)
    if e % 2 = 1 then b * rest % m else rest

/-- The power `b ^ e` modulo `m`. -/
def pow (m b e : Nat) : Nat := powBits m (e.log2 + 1) b e

/-- The difference `a - b` modulo `m`, for `b` below `m`. -/
def sub (m a b : Nat) : Nat := (a + (m - b)) % m

/-- The inverse of `a` modulo a prime `m`; zero for zero. -/
def inverse (m a : Nat) : Nat := pow m a (m - 2)

end CoinScript.Modular
