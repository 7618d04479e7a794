import CoinScript.Proofs.Signature.StrictForm

/-!
# What the strict reader accepts

`Der.Strict b r s` says byte for byte what it means that `b` is the strict form of two integers with
the bytes `r` and `s`: the bounds on its length, the place of every tag and every length, and that
both integers are in shortest form.  It does not mention how the form is read or written.

* `check_eq_ok_iff`: the check lets a byte string through exactly if it is a strict form, of whatever
  values.
* `ofDer_eq_ok_iff`: the reader also asks for values between 1 and the order less 1, and gives them.

That a signature is read exactly from what it is written as (`strict_reading_exact`) follows, because
a byte string in shortest form is the one that its value is written as.
-/

namespace CoinScript

open Secp256k1 (order)

namespace Der

variable {b r s r' s' : Bytes}

/-- The byte string is the strict form of the integers with the given bytes. -/
structure Strict (b r s : Bytes) : Prop where
  least : 8 ≤ b.length
  greatest : b.length ≤ 72
  first : Minimal r
  second : Minimal s
  layout : b = [0x30, UInt8.ofNat (b.length - 2), 0x02, UInt8.ofNat r.length] ++ r ++
    [0x02, UInt8.ofNat s.length] ++ s

/-- In a frame the outer length is that of the whole less two. -/
theorem frame_eq (r s : Bytes) :
    frame r s = [0x30, UInt8.ofNat ((frame r s).length - 2), 0x02, UInt8.ofNat r.length] ++ r ++
      [0x02, UInt8.ofNat s.length] ++ s := by
  have hlength : (frame r s).length - 2 = (tagged r ++ tagged s).length := rfl
  rw [hlength]
  simp only [frame, tagged, sequenceTag, integerTag, List.cons_append, List.nil_append,
    List.append_assoc]

theorem split_eq_ok_iff_strict : split b = .ok (r, s) ↔ Strict b r s := by
  rw [split_eq_ok_iff]
  constructor
  · rintro ⟨hr, hs, rfl, hlength⟩
    have hframe := length_frame r s
    have hrpos := List.length_pos_iff.mpr hr.nonempty
    have hspos := List.length_pos_iff.mpr hs.nonempty
    exact ⟨by omega, by omega, hr, hs, frame_eq r s⟩
  · intro h
    have hframe := length_frame r s
    have hgreatest := h.greatest
    have hlength : b.length = (frame r s).length := by
      have hcount := congrArg List.length h.layout
      simp only [List.length_append, List.length_cons, List.length_nil] at hcount
      omega
    refine ⟨h.first, h.second, ?_, by omega⟩
    rw [frame_eq, ← hlength]
    exact h.layout

/-- The bytes of the two integers are found in one way. -/
theorem Strict.unique (h : Strict b r s) (h' : Strict b r' s') : r' = r ∧ s' = s := by
  have hsplit := split_eq_ok_iff_strict.mpr h
  rw [split_eq_ok_iff_strict.mpr h'] at hsplit
  exact Prod.mk.inj (Except.ok.inj hsplit)

/-- **The check lets strict forms through and nothing else.** -/
theorem check_eq_ok_iff : check b = .ok () ↔ ∃ r s, Strict b r s := by
  unfold check
  constructor
  · intro h
    cases hsplit : split b with
    | error cause =>
      rw [hsplit] at h
      cases h
    | ok parts => exact ⟨parts.1, parts.2, split_eq_ok_iff_strict.mp hsplit⟩
  · rintro ⟨r, s, h⟩
    rw [split_eq_ok_iff_strict.mpr h]
    rfl

theorem checkScalar_eq_ok_iff (which : Component) {n : BitVec 256} :
    checkScalar which n = .ok () ↔ 0 < n.toNat ∧ n.toNat < order := by
  unfold checkScalar
  split
  · next hzero => simp [hzero]
  · next hne =>
    split
    · next hlarge => simp [Nat.not_lt.mpr hlarge]
    · next hsmall => simp [Nat.pos_of_ne_zero hne, Nat.not_le.mp hsmall]

end Der

namespace Signature

open Der

variable {b r s : Bytes} {sig : Signature}

/-- What the reader makes of a strict form. -/
theorem ofDer_of_strict (h : Strict b r s) :
    ofDer b = .ok sig ↔
      (Bytes.toNatBE r = sig.r.toNat ∧ Bytes.toNatBE s = sig.s.toNat) ∧ sig.InRange := by
  rw [← value_eq_ok_iff .r, ← value_eq_ok_iff .s, InRange, ← checkScalar_eq_ok_iff .r,
    ← checkScalar_eq_ok_iff .s]
  simp only [ofDer, split_eq_ok_iff_strict.mpr h, bind, Except.bind, pure, Except.pure]
  constructor
  · intro hok
    split at hok
    · cases hok
    next n hn =>
    split at hok
    · cases hok
    next k hk =>
    split at hok
    · cases hok
    next hfirst =>
    split at hok
    · cases hok
    next hsecond =>
    cases hok
    exact ⟨⟨hn, hk⟩, hfirst, hsecond⟩
  · rintro ⟨⟨hn, hk⟩, hfirst, hsecond⟩
    simp only [hn, hk, hfirst, hsecond]

/-- What is accepted is a strict form. -/
theorem exists_strict_of_ofDer (h : ofDer b = .ok sig) : ∃ r s, Strict b r s := by
  cases hsplit : split b with
  | error cause =>
    rw [ofDer, hsplit] at h
    cases h
  | ok parts => exact ⟨parts.1, parts.2, split_eq_ok_iff_strict.mp hsplit⟩

/-- **A signature is read from a strict form of its two values, if these are in range.** -/
theorem ofDer_eq_ok_iff :
    ofDer b = .ok sig ↔
      (∃ r s, Strict b r s ∧ Bytes.toNatBE r = sig.r.toNat ∧ Bytes.toNatBE s = sig.s.toNat) ∧
        sig.InRange := by
  constructor
  · intro h
    obtain ⟨r, s, hstrict⟩ := exists_strict_of_ofDer h
    obtain ⟨hvalues, hrange⟩ := (ofDer_of_strict hstrict).mp h
    exact ⟨⟨r, s, hstrict, hvalues⟩, hrange⟩
  · rintro ⟨⟨r, s, hstrict, hvalues⟩, hrange⟩
    exact (ofDer_of_strict hstrict).mpr ⟨hvalues, hrange⟩

/-- What a signature is written as is the strict form of its values. -/
theorem strict_toDer (sig : Signature) :
    Strict sig.toDer (integerBody sig.r.toNat) (integerBody sig.s.toNat) := by
  rw [← split_eq_ok_iff_strict, split_eq_ok_iff]
  exact ⟨minimal_integerBody _, minimal_integerBody _, sig.toDer_eq, sig.length_bodies_le⟩

/-- The strict form of the values of a signature is what it is written as. -/
theorem toDer_of_strict (h : Strict b r s) (hr : Bytes.toNatBE r = sig.r.toNat)
    (hs : Bytes.toNatBE s = sig.s.toNat) : sig.toDer = b := by
  obtain ⟨hfirst, hsecond, rfl, -⟩ := split_eq_ok_iff.mp (split_eq_ok_iff_strict.mpr h)
  rw [toDer_eq, ← hr, ← hs, integerBody_toNatBE hfirst, integerBody_toNatBE hsecond]

/-- **The strict form and the signatures in range correspond one to one.**  A signature is read from
a byte string exactly if it is in range and the byte string is what it is written as.  The check of
the form lets through the strict forms, whatever they are the forms of, and so all that is written;
the reader accepts of these the ones whose two values are between 1 and the order less 1. -/
theorem strict_reading_exact (b : Bytes) :
    (∀ sig, ofDer b = .ok sig ↔ sig.InRange ∧ sig.toDer = b) ∧
    (Der.check b = .ok () ↔ ∃ r s, Strict b r s) ∧
    (∀ sig : Signature, b = sig.toDer → Der.check b = .ok ()) ∧
    ((∃ sig, ofDer b = .ok sig) ↔ Der.check b = .ok () ∧ ∀ r s, Strict b r s →
      (0 < Bytes.toNatBE r ∧ Bytes.toNatBE r < order) ∧
        0 < Bytes.toNatBE s ∧ Bytes.toNatBE s < order) := by
  refine ⟨fun sig => ⟨fun h => ?_, ?_⟩, check_eq_ok_iff, ?_, ?_, fun ⟨hcheck, hvalues⟩ => ?_⟩
  · obtain ⟨⟨r, s, hstrict, hr, hs⟩, hrange⟩ := ofDer_eq_ok_iff.mp h
    exact ⟨hrange, toDer_of_strict hstrict hr hs⟩
  · rintro ⟨hrange, rfl⟩
    exact (ofDer_of_strict (strict_toDer sig)).mpr
      ⟨⟨toNatBE_integerBody _, toNatBE_integerBody _⟩, hrange⟩
  · rintro sig rfl
    exact check_toDer sig
  · rintro ⟨sig, h⟩
    obtain ⟨⟨r, s, hstrict, hr, hs⟩, hrange⟩ := ofDer_eq_ok_iff.mp h
    refine ⟨check_eq_ok_iff.mpr ⟨r, s, hstrict⟩, fun r' s' hstrict' => ?_⟩
    obtain ⟨rfl, rfl⟩ := hstrict.unique hstrict'
    rw [hr, hs]
    exact hrange
  · obtain ⟨r, s, hstrict⟩ := check_eq_ok_iff.mp hcheck
    obtain ⟨hr, hs⟩ := hvalues r s hstrict
    have htoNat : ∀ n, n < order → (BitVec.ofNat 256 n).toNat = n := by
      intro n hn
      rw [BitVec.toNat_ofNat, Nat.mod_eq_of_lt (Nat.lt_trans hn (by decide))]
    have hr' := htoNat _ hr.2
    have hs' := htoNat _ hs.2
    refine ⟨⟨BitVec.ofNat 256 (Bytes.toNatBE r), BitVec.ofNat 256 (Bytes.toNatBE s)⟩,
      (ofDer_of_strict hstrict).mpr ⟨⟨hr'.symm, hs'.symm⟩, ?_, ?_⟩⟩
    · rw [hr']
      exact hr
    · rw [hs']
      exact hs

/-- The signature of two ones is read from its eight bytes and from no others; two zeros are written
in a strict form too, which is let through and not read. -/
theorem strict_reading_smallest :
    ofDer [0x30, 6, 2, 1, 1, 2, 1, 1] = .ok ⟨1, 1⟩ ∧
      (∀ b, ofDer b = .ok ⟨1, 1⟩ → b = [0x30, 6, 2, 1, 1, 2, 1, 1]) ∧
      Der.check [0x30, 6, 2, 1, 0, 2, 1, 0] = .ok () ∧
      ¬∃ sig, ofDer [0x30, 6, 2, 1, 0, 2, 1, 0] = .ok sig := by
  obtain ⟨hread, -⟩ := strict_reading_exact [0x30, 6, 2, 1, 1, 2, 1, 1]
  obtain ⟨-, -, hwritten, hvalues⟩ := strict_reading_exact [0x30, 6, 2, 1, 0, 2, 1, 0]
  have hzero : [0x30, 6, 2, 1, 0, 2, 1, 0] = (⟨0, 0⟩ : Signature).toDer := by decide +kernel
  have hbytes : (⟨1, 1⟩ : Signature).toDer = [0x30, 6, 2, 1, 1, 2, 1, 1] := by decide +kernel
  refine ⟨(hread ⟨1, 1⟩).mpr ⟨by decide, hbytes⟩, fun b hb => ?_, hwritten _ hzero, fun h => ?_⟩
  · rw [← hbytes]
    exact (((strict_reading_exact b).1 ⟨1, 1⟩).mp hb).2.symm
  · have hstrict : Strict [0x30, 6, 2, 1, 0, 2, 1, 0] [0] [0] :=
      split_eq_ok_iff_strict.mp (by decide +kernel)
    exact absurd ((hvalues.mp h).2 [0] [0] hstrict).1.1 (by decide)

end Signature

end CoinScript
