import CoinScript.Curve.Modular
import Mathlib.Algebra.Order.Ring.Nat

/-!
# Arithmetic modulo a number: the laws

`Modular.pow_eq`: repeated squaring computes the power modulo the number.
-/

namespace CoinScript.Modular

/-- Repeated squaring computes the power, if all bits of the exponent are read. -/
theorem powBits_eq {m : Nat} : ∀ (k b e : Nat), e < 2 ^ k → powBits m k b e = b ^ e % m
  | 0, b, e, h => by
    obtain rfl : e = 0 := by omega
    simp [powBits]
  | k + 1, b, e, h => by
    have hrest := powBits_eq (m := m) k (b * b % m) (e / 2) (by rw [Nat.pow_succ] at h; omega)
    have hpow : (b * b % m) ^ (e / 2) % m = b ^ (2 * (e / 2)) % m := by
      rw [← Nat.pow_mod, Nat.pow_mul, Nat.pow_two]
    simp only [powBits]
    split
    · next hodd =>
      have he : e = 2 * (e / 2) + 1 := by omega
      conv => rhs; rw [he, Nat.pow_succ, Nat.mul_comm]
      rw [hrest, hpow, Nat.mul_mod, Nat.mod_mod, ← Nat.mul_mod]
    · next heven =>
      have he : e = 2 * (e / 2) := by omega
      conv => rhs; rw [he]
      rw [hrest, hpow]

/-- **`pow` is the power modulo `m`.** -/
theorem pow_eq (m b e : Nat) : pow m b e = b ^ e % m :=
  powBits_eq _ b e Nat.lt_log2_self

end CoinScript.Modular
