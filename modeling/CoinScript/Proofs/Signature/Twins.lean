import CoinScript.Proofs.Checked.Canonical

/-!
# A signature and its twin

The twin of a signature has the order less its second number.  With a second number between 1 and the
order less 1 a signature and its twin are a pair: each is the twin of the other, one of them is low,
and `toCanonical` takes both to that one.  A second number outside that range names nothing, and such
a signature stays as it is, so passing to the canonical twin never brings a signature into range
(`inRange_toCanonical_iff`).

Verification looks at the canonical twin only, so it does not tell the two apart (`verify_congr`).
-/

namespace CoinScript

namespace Signature

open Secp256k1 (order halfOrder)

variable {sig sig' : Signature} {scheme : Scheme} {key : PrivateKey} {digest : Hash256}

/-- The signature with the order less the second number. -/
def twin (sig : Signature) : Signature :=
  { sig with s := BitVec.ofNat 256 (order - sig.s.toNat) }

/-! ## The pair -/

@[simp] theorem r_twin (sig : Signature) : sig.twin.r = sig.r := rfl

@[simp] theorem toNat_s_twin (sig : Signature) : sig.twin.s.toNat = order - sig.s.toNat :=
  toNat_twin sig

/-- The twin of the twin is the signature itself. -/
theorem twin_twin (h : sig.s.toNat ≤ order) : sig.twin.twin = sig := by
  have hs : sig.twin.twin.s = sig.s := by
    apply BitVec.eq_of_toNat_eq
    rw [toNat_s_twin, toNat_s_twin]
    omega
  exact congrArg (Signature.mk sig.r) hs

theorem toCanonical_of_high (h : halfOrder < sig.s.toNat) (hlt : sig.s.toNat < order) :
    sig.toCanonical = sig.twin := if_pos ⟨decide_eq_true h, hlt⟩

theorem toCanonical_of_le (h : sig.s.toNat ≤ halfOrder) : sig.toCanonical = sig :=
  toCanonical_of_low (hasHighS_eq_false_iff.mpr h)

/-- A second number that is not below the order stays. -/
theorem toCanonical_of_not_lt (h : ¬sig.s.toNat < order) : sig.toCanonical = sig :=
  if_neg fun hhigh => h hhigh.2

/-- **One of the pair is low**, and both have it as their canonical twin. -/
theorem exists_low (hpos : 0 < sig.s.toNat) (hlt : sig.s.toNat < order) :
    ∃ low high, (low = sig ∧ high = sig.twin ∨ low = sig.twin ∧ high = sig) ∧
      low.s.toNat ≤ halfOrder ∧ halfOrder < high.s.toNat ∧
      low.toCanonical = low ∧ high.toCanonical = low := by
  have horder := order_eq
  have htwin := toNat_s_twin sig
  by_cases hlow : sig.s.toNat ≤ halfOrder
  · have hhigh : halfOrder < sig.twin.s.toNat := by omega
    refine ⟨sig, sig.twin, .inl ⟨rfl, rfl⟩, hlow, hhigh, toCanonical_of_le hlow, ?_⟩
    rw [toCanonical_of_high hhigh (by omega), twin_twin (Nat.le_of_lt hlt)]
  · have hhigh : halfOrder < sig.s.toNat := Nat.not_le.mp hlow
    have htwinLow : sig.twin.s.toNat ≤ halfOrder := by omega
    exact ⟨sig.twin, sig, .inr ⟨rfl, rfl⟩, htwinLow, hhigh, toCanonical_of_le htwinLow,
      toCanonical_of_high hhigh hlt⟩

theorem toCanonical_twin (hpos : 0 < sig.s.toNat) (hlt : sig.s.toNat < order) :
    sig.twin.toCanonical = sig.toCanonical := by
  obtain ⟨low, high, ⟨rfl, rfl⟩ | ⟨rfl, rfl⟩, -, -, hlow, hhigh⟩ := exists_low hpos hlt
  · rw [hlow, hhigh]
  · rw [hlow, hhigh]

/-! ## Any signature -/

/-- **Passing to the canonical twin twice is passing to it once.** -/
theorem toCanonical_toCanonical (sig : Signature) :
    sig.toCanonical.toCanonical = sig.toCanonical := by
  by_cases hlow : sig.s.toNat ≤ halfOrder
  · rw [toCanonical_of_le hlow, toCanonical_of_le hlow]
  by_cases hlt : sig.s.toNat < order
  · have hhigh : halfOrder < sig.s.toNat := Nat.not_le.mp hlow
    rw [toCanonical_of_high hhigh hlt, toCanonical_twin (Nat.zero_lt_of_lt hhigh) hlt,
      toCanonical_of_high hhigh hlt]
  · rw [toCanonical_of_not_lt hlt, toCanonical_of_not_lt hlt]

/-- Passing to the canonical twin neither brings a signature into range nor out of it. -/
theorem inRange_toCanonical_iff : sig.toCanonical.InRange ↔ sig.InRange := by
  by_cases hlow : sig.s.toNat ≤ halfOrder
  · rw [toCanonical_of_le hlow]
  by_cases hlt : sig.s.toNat < order
  · rw [toCanonical_of_high (Nat.not_le.mp hlow) hlt]
    simp only [InRange, r_twin, toNat_s_twin]
    omega
  · rw [toCanonical_of_not_lt hlt]

/-- **The canonical twin is canonical exactly if the signature is in range.** -/
theorem isCanonical_toCanonical_iff : sig.toCanonical.isCanonical = true ↔ sig.InRange :=
  ⟨fun h => inRange_toCanonical_iff.mp (isCanonical_iff.mp h).1, isCanonical_toCanonical⟩

/-! ## Verifying and signing -/

/-- Verification sees nothing but the canonical twin. -/
theorem verify_congr (h : sig.toCanonical = sig'.toCanonical) (publicKey : PublicKey) :
    verify scheme publicKey digest sig = verify scheme publicKey digest sig' := by
  rw [verify, verify, h]

theorem verify_of_not_inRange (h : ¬sig.InRange) (publicKey : PublicKey) :
    verify scheme publicKey digest sig = false := by
  have hrefused : scheme.admits sig.toCanonical = false := by
    rw [Bool.eq_false_iff, Ne, scheme.admits_iff, inRange_toCanonical_iff]
    exact h
  rw [verify, hrefused, Bool.false_and]

/-- What is signed is canonical, if the scheme keeps to the range. -/
theorem isCanonical_of_sign (hscheme : ∀ raw, scheme.sign key digest = some raw → raw.InRange)
    (h : sign scheme key digest = .ok sig) : sig.isCanonical = true := by
  rw [sign] at h
  split at h
  · next raw hraw =>
    cases h
    exact isCanonical_toCanonical (hscheme raw hraw)
  · cases h

/-- **Low second numbers are found exactly, and verification does not tell twins apart.**  Passing to
the canonical twin is idempotent, and what it gives is canonical exactly if both numbers are in range;
on 32 bytes each it is the same as on numbers.  Of a signature whose second number is between 1 and
the order less 1 and its twin, one is low, and both have that one as canonical twin; the borrow loop
finds the bytes of the twin.  The two verify alike, and a signature that is out of range does not
verify.  Of a scheme that keeps to the range every signature is canonical. -/
theorem low_second_number_exact (sig : Signature) :
    (sig.toCanonical.toCanonical = sig.toCanonical ∧
      (sig.toCanonical.isCanonical = true ↔ sig.InRange)) ∧
    ((Checked.canonicalBytes (scalarBytes sig.r) (scalarBytes sig.s) : Checked Empty _) =
        .ok (scalarBytes sig.toCanonical.r, scalarBytes sig.toCanonical.s) ∧
      Checked.isCanonicalBytes (scalarBytes sig.r) (scalarBytes sig.s) = sig.isCanonical) ∧
    (0 < sig.s.toNat → sig.s.toNat < order →
      (∃ low high, (low = sig ∧ high = sig.twin ∨ low = sig.twin ∧ high = sig) ∧
        low.s.toNat ≤ halfOrder ∧ halfOrder < high.s.toNat ∧
        low.toCanonical = low ∧ high.toCanonical = low) ∧
      (Checked.subtractFromOrder (scalarBytes sig.s) : Checked Empty _) =
        .ok (Bytes.ofNatBE 32 (order - sig.s.toNat)) ∧
      ∀ scheme publicKey digest,
        verify scheme publicKey digest sig.twin = verify scheme publicKey digest sig) ∧
    (∀ scheme publicKey digest,
      verify scheme publicKey digest sig.toCanonical = verify scheme publicKey digest sig ∧
      (¬sig.InRange → verify scheme publicKey digest sig = false)) ∧
    ∀ scheme key digest, (∀ raw, scheme.sign key digest = some raw → raw.InRange) →
      ∀ result, sign scheme key digest = .ok result → result.isCanonical = true := by
  refine ⟨⟨toCanonical_toCanonical sig, isCanonical_toCanonical_iff⟩,
    ⟨Checked.canonicalBytes_eq sig, Checked.isCanonicalBytes_eq sig⟩, fun hpos hlt => ?_,
    fun scheme publicKey digest => ⟨?_, ?_⟩, fun scheme key digest hscheme result => ?_⟩
  · refine ⟨exists_low hpos hlt, ?_, fun scheme publicKey digest => ?_⟩
    · have hle : Bytes.toNatBE (scalarBytes sig.s) ≤ order := by
        rw [Checked.toNatBE_scalarBytes]
        exact Nat.le_of_lt hlt
      rw [Checked.subtractFromOrder_eq (Checked.length_scalarBytes _) hle,
        Checked.toNatBE_scalarBytes]
    · exact verify_congr (toCanonical_twin hpos hlt) publicKey
  · exact verify_congr (toCanonical_toCanonical sig) publicKey
  · exact fun h => verify_of_not_inRange h publicKey
  · exact isCanonical_of_sign hscheme

end Signature

namespace Ecdsa

open Secp256k1 (order)

variable {key : PrivateKey} {digest : Hash256} {nonce : Nat} {sig : Signature}

/-- The curve keeps to the range. -/
theorem inRange_of_signWith (h : signWith key digest nonce = some sig) : sig.InRange := by
  rw [signWith] at h
  split at h
  · cases h
  next point hpoint =>
  dsimp only at h
  split at h
  · cases h
  next hzero =>
  obtain rfl := Option.some.inj h
  have horder : order < 2 ^ 256 := Signature.order_lt
  have hbound (n : Nat) : n % order < order := Nat.mod_lt n (by decide)
  have htoNat (n : Nat) : (BitVec.ofNat 256 (n % order)).toNat = n % order := by
    rw [BitVec.toNat_ofNat, Nat.mod_eq_of_lt (Nat.lt_trans (hbound n) horder)]
  rw [not_or] at hzero
  simp only [Signature.InRange, htoNat]
  exact ⟨⟨Nat.pos_of_ne_zero hzero.1, hbound _⟩, Nat.pos_of_ne_zero hzero.2, hbound _⟩

theorem inRange_of_sign (h : sign key digest = some sig) : sig.InRange := by
  obtain ⟨nonce, -, hsign⟩ := Option.bind_eq_some_iff.mp h
  exact inRange_of_signWith hsign

theorem sign_secp256k1 : Scheme.secp256k1.sign = sign := by simp only [Scheme.secp256k1]

end Ecdsa

namespace Signature.SmallestKey

/-- The smallest key. -/
def key : PrivateKey := ⟨1, Nat.one_pos, one_lt_order⟩

theorem length_digest : (1 :: List.replicate 31 0 : Bytes).length = 32 := rfl

/-- A digest. -/
def digest : Hash256 := ⟨1 :: List.replicate 31 0, length_digest⟩

/-- What the curve signs it with before the canonical twin is taken.  The second number is high. -/
def raw : Signature :=
  ⟨14295053964488743090340009838833186193957205491298546148700052350175735655842,
    62089862098763908163877965248475044962873364237870286138157982427847308119957⟩

/-- The signature that the smallest key makes of the digest is the twin of what the curve gives, and
it is canonical; a signature whose second number is zero does not verify. -/
theorem low_second_number_smallest :
    (∃ low high, (low = raw ∧ high = raw.twin ∨ low = raw.twin ∧ high = raw) ∧
      low.s.toNat ≤ Secp256k1.halfOrder ∧ Secp256k1.halfOrder < high.s.toNat ∧
      low.toCanonical = low ∧ high.toCanonical = low) ∧
    (Checked.subtractFromOrder (scalarBytes raw.s) : Checked Empty _) =
      .ok (Bytes.ofNatBE 32 (Secp256k1.order - raw.s.toNat)) ∧
    sign .secp256k1 key digest = .ok raw.twin ∧ raw.twin.isCanonical = true ∧
    verify .secp256k1 (Scheme.secp256k1.publicKey key) digest ⟨1, 0⟩ = false := by
  have hraw : Scheme.secp256k1.sign key digest = some raw := by decide +kernel
  have hsign : sign .secp256k1 key digest = .ok raw.twin := by
    rw [sign, hraw]
    exact congrArg Except.ok (toCanonical_of_high (by decide) (by decide))
  have hrange : ∀ sig, Scheme.secp256k1.sign key digest = some sig → sig.InRange := by
    intro sig h
    rw [Ecdsa.sign_secp256k1] at h
    exact Ecdsa.inRange_of_sign h
  obtain ⟨-, -, hpair, -, hsigned⟩ := low_second_number_exact raw
  obtain ⟨hlow, hloop, -⟩ := hpair (by decide) (by decide)
  obtain ⟨-, -, -, hverify, -⟩ := low_second_number_exact ⟨1, 0⟩
  exact ⟨hlow, hloop, hsign,
    hsigned .secp256k1 key digest hrange raw.twin hsign,
    (hverify .secp256k1 (Scheme.secp256k1.publicKey key) digest).2 (by decide)⟩

end Signature.SmallestKey

end CoinScript
