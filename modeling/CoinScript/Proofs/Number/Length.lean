import CoinScript.Bytes.Lemmas
import CoinScript.Number.Basic
import Mathlib.Tactic.Ring

/-!
# The length of a number

One bit of the last byte is the sign, so the numbers that `k` bytes can stand for are those whose
double is in absolute value below `256 ^ k` (`Number.Fits`).  `fits_value` says that a byte string
stands for a number that fits its length, and `length_encode_le` that the shortest form of a number
is no longer than what it fits; it is no shorter either (`fits_length_encode`).

Between the two, the results of arithmetic are bounded by their operands: a sum needs one byte more
than the longer operand (`Fits.add`), a product as many as both (`Fits.mul`), and what is no greater
than an operand no more than that (`Fits.of_natAbs_le`).  The product of the largest operands does
need so many (`le_length_encode_square`).
-/

namespace CoinScript.Number

/-- The number can be written in `k` bytes. -/
def Fits (k : Nat) (n : Int) : Prop := 2 * n.natAbs < 256 ^ k

variable {j k : Nat} {a b n : Int}

theorem fits_zero (k : Nat) : Fits k 0 := Nat.pow_pos (by decide)

/-! ## Forms -/

/-- A byte string in which the last byte is below half of its range, as a number. -/
theorem two_mul_toNatLE_concat_lt (init : Bytes) {last : UInt8} (h : last.toNat < 0x80) :
    2 * Bytes.toNatLE (init ++ [last]) < 256 ^ (init ++ [last]).length := by
  have hlow : Bytes.toNatLE init < 256 ^ init.length := Bytes.toNatLE_lt init
  have hhigh := Nat.mul_le_mul_left (256 ^ init.length) (Nat.le_of_lt_succ h)
  rw [Bytes.toNatLE_append, List.length_append, List.length_singleton, Nat.pow_succ]
  simp only [Bytes.toNatLE, Nat.mul_zero, Nat.add_zero]
  omega

/-- A byte string in which the last byte is in the upper half of its range, as a number. -/
theorem le_two_mul_toNatLE_concat (init : Bytes) {last : UInt8} (h : 0x80 ≤ last.toNat) :
    256 ^ (init ++ [last]).length ≤ 2 * Bytes.toNatLE (init ++ [last]) := by
  have hhigh := Nat.mul_le_mul_left (256 ^ init.length) h
  rw [Bytes.toNatLE_append, List.length_append, List.length_singleton, Nat.pow_succ]
  simp only [Bytes.toNatLE, Nat.mul_zero, Nat.add_zero]
  omega

/-- **A byte string stands for a number that can be written in its length.** -/
theorem fits_value (b : Bytes) : Fits b.length (value b) := by
  unfold value
  cases hlast : b.getLast? with
  | none => exact fits_zero _
  | some last =>
    obtain ⟨init, rfl⟩ := List.getLast?_eq_some_iff.mp hlast
    -- the sign is not part of the magnitude, which leaves seven bits of the last byte
    have hseven : (last &&& 0x7f).toNat < 0x80 := by
      rw [UInt8.toNat_and]
      exact Nat.lt_of_le_of_lt Nat.and_le_right (by decide)
    have hmagnitude := two_mul_toNatLE_concat_lt init hseven
    rw [List.length_append, List.length_singleton] at hmagnitude ⊢
    unfold Fits
    dsimp only
    rw [Bytes.longValue_eq, List.dropLast_concat]
    split
    · rwa [Int.natAbs_natCast]
    · rwa [Int.natAbs_neg, Int.natAbs_natCast]

/-- An operand that is read is not too long, and stands for its number. -/
theorem decode_eq_ok {format : Format} {b : Bytes} (h : decode format b = .ok n) :
    b.length ≤ format.maxLength ∧ n = value b := by
  unfold decode at h
  split at h
  · cases h
  · next hlength =>
    split at h
    · cases h
    · cases h
      exact ⟨Nat.le_of_not_lt hlength, rfl⟩

/-- Where forms that are not the shortest are accepted, every short operand is read. -/
theorem decode_of_length_le {format : Format} {b : Bytes} (hminimal : format.minimal = false)
    (h : b.length ≤ format.maxLength) : decode format b = .ok (value b) := by
  unfold decode
  rw [if_neg (Nat.not_lt.mpr h), hminimal]
  rfl

/-- **The shortest form of a number has no more bytes than the number fits.** -/
theorem length_encode_le (h : Fits k n) : (encode n).length ≤ k := by
  unfold Fits at h
  unfold encode
  rw [Bytes.longDigits_eq]
  have hdigits : (Bytes.digitsLE n.natAbs).length ≤ k := Bytes.length_digitsLE_le (by omega)
  have hvalue : Bytes.toNatLE (Bytes.digitsLE n.natAbs) = n.natAbs := Bytes.toNatLE_digitsLE _
  generalize Bytes.digitsLE n.natAbs = digits at hdigits hvalue
  dsimp only
  cases hlast : digits.getLast? with
  | none => exact Nat.zero_le k
  | some last =>
    obtain ⟨init, rfl⟩ := List.getLast?_eq_some_iff.mp hlast
    dsimp only
    split
    · next hfull =>
      -- the sign needs a byte of its own, but then the digits are one byte short of `k`
      have hlarge := le_two_mul_toNatLE_concat init (UInt8.le_iff_toNat_le.mp hfull)
      rw [hvalue] at hlarge
      rw [List.length_append, List.length_singleton]
      exact (Nat.pow_lt_pow_iff_right (by decide)).mp (Nat.lt_of_le_of_lt hlarge h)
    · split
      · rw [List.dropLast_concat]
        rwa [List.length_append, List.length_singleton] at hdigits ⊢
      · exact hdigits

/-- A number fits the length of its shortest form. -/
theorem fits_length_encode (n : Int) : Fits (encode n).length n := by
  have hvalue : Bytes.toNatLE (Bytes.digitsLE n.natAbs) = n.natAbs := Bytes.toNatLE_digitsLE _
  unfold Fits encode
  rw [Bytes.longDigits_eq]
  generalize Bytes.digitsLE n.natAbs = digits at hvalue
  rw [← hvalue]
  dsimp only
  cases hlast : digits.getLast? with
  | none =>
    rw [List.getLast?_eq_none_iff.mp hlast]
    exact fits_zero 0
  | some last =>
    obtain ⟨init, rfl⟩ := List.getLast?_eq_some_iff.mp hlast
    dsimp only
    split
    · have hlt := Bytes.toNatLE_lt (init ++ [last])
      rw [List.length_append, List.length_singleton, Nat.pow_succ]
      omega
    · next hsmall =>
      have hlow := two_mul_toNatLE_concat_lt init
        (Nat.not_le.mp fun h => hsmall (UInt8.le_iff_toNat_le.mpr h))
      split
      · rwa [List.dropLast_concat, List.length_append, List.length_singleton,
          ← List.length_singleton (a := last), ← List.length_append]
      · exact hlow

/-! ## Results -/

theorem Fits.mono (h : Fits j n) (hle : j ≤ k) : Fits k n :=
  Nat.lt_of_lt_of_le h (Nat.pow_le_pow_right (by decide) hle)

theorem Fits.of_natAbs_le (h : Fits k n) (hle : a.natAbs ≤ n.natAbs) : Fits k a :=
  Nat.lt_of_le_of_lt (Nat.mul_le_mul_left 2 hle) h

/-- One byte more has room for the next number. -/
theorem Fits.next (h : Fits k n) (hle : a.natAbs ≤ n.natAbs + 1) : Fits (k + 1) a := by
  have hone : 256 ^ 1 ≤ 256 ^ (k + 1) := Nat.pow_le_pow_right (by decide) (Nat.le_add_left 1 k)
  unfold Fits at h ⊢
  rw [Nat.pow_succ] at hone ⊢
  omega

/-- A sum needs one byte more than its terms. -/
theorem Fits.add (ha : Fits k a) (hb : Fits k b) : Fits (k + 1) (a + b) := by
  unfold Fits at ha hb ⊢
  have hsum := Int.natAbs_add_le a b
  rw [Nat.pow_succ]
  omega

/-- A product needs as many bytes as its factors together. -/
theorem Fits.mul (ha : Fits j a) (hb : Fits k b) : Fits (j + k) (a * b) := by
  unfold Fits at ha hb ⊢
  rw [Int.natAbs_mul, Nat.pow_add]
  have hproduct := Nat.mul_lt_mul'' ha hb
  have hfour : 2 * a.natAbs * (2 * b.natAbs) = 4 * (a.natAbs * b.natAbs) := by ring
  omega

/-- The number that is written as so many bytes with all bits set, without its sign. -/
theorem natAbs_value_replicate (k : Nat) :
    127 * 256 ^ k ≤ (value (List.replicate (k + 1) 0xff)).natAbs := by
  have hmagnitude : 127 * 256 ^ k ≤
      Bytes.longValue (List.replicate k 0xff ++ [(0xff : UInt8) &&& 0x7f]) := by
    rw [Bytes.longValue_eq, Bytes.toNatLE_append, List.length_replicate]
    have hlast : Bytes.toNatLE [(0xff : UInt8) &&& 0x7f] = 127 := by decide
    rw [hlast, Nat.mul_comm]
    exact Nat.le_add_left _ _
  unfold value
  rw [List.replicate_succ', List.getLast?_concat, List.dropLast_concat]
  dsimp only
  rw [if_neg (by decide), Int.natAbs_neg, Int.natAbs_natCast]
  exact hmagnitude

/-- Its square needs as many bytes as both factors. -/
theorem le_length_encode_square (k : Nat) :
    2 * (k + 1) ≤ (encode (value (List.replicate (k + 1) 0xff) *
      value (List.replicate (k + 1) 0xff))).length := by
  refine Nat.not_lt.mp fun hshort => ?_
  have hfits := (fits_length_encode _).mono (k := 2 * k + 1) (Nat.le_of_lt_succ hshort)
  have hfactor := natAbs_value_replicate k
  have hsquare := Nat.mul_le_mul hfactor hfactor
  have hpow : 127 * 256 ^ k * (127 * 256 ^ k) = 16129 * 256 ^ (2 * k) := by
    rw [Nat.two_mul, Nat.pow_add]
    ring
  unfold Fits at hfits
  rw [Int.natAbs_mul, Nat.pow_succ] at hfits
  omega

/-- A length can be written in as many bytes as it counts. -/
theorem fits_length {n : Nat} (h : n ≤ k) (hk : 0 < k) : Fits k n := by
  have hlt : k < 2 ^ k := Nat.lt_two_pow_self
  have hpow : 256 ^ k = 2 ^ k * 128 ^ k := by rw [← Nat.mul_pow]
  have hbase : 128 ^ 1 ≤ 128 ^ k := Nat.pow_le_pow_right (by decide) hk
  have hlarge := Nat.mul_le_mul_left (2 ^ k) hbase
  unfold Fits
  rw [Int.natAbs_natCast]
  omega

theorem length_widen {size : Nat} {b : Bytes} (h : b.length < size) :
    (widen size b).length = size := by
  unfold widen
  cases hlast : b.getLast? with
  | none => exact List.length_replicate ..
  | some last =>
    obtain ⟨init, rfl⟩ := List.getLast?_eq_some_iff.mp hlast
    simp only [List.dropLast_concat, List.length_append, List.length_cons, List.length_replicate,
      List.length_nil] at h ⊢
    omega

theorem clamp_natCast {k : Nat} (h : k < 2 ^ 63) : clamp 64 (k : Int) = k := by
  have hbound : ((1 <<< (64 - 1) : Nat) : Int) = 2 ^ 63 := by decide
  unfold clamp
  dsimp only
  rw [hbound]
  omega

theorem clamp_nonneg {n : Int} (h : 0 ≤ n) : 0 ≤ clamp 64 n := by
  have hbound : ((1 <<< (64 - 1) : Nat) : Int) = 2 ^ 63 := by decide
  unfold clamp
  dsimp only
  rw [hbound]
  omega

/-- What a size or an amount that is not negative comes to where it has to fit into a word. -/
theorem toNat_clamp (n : Nat) : (clamp 64 (n : Int)).toNat = min n (2 ^ 63 - 1) := by
  have hbound : ((1 <<< (64 - 1) : Nat) : Int) = 2 ^ 63 := by decide
  unfold clamp
  dsimp only
  rw [hbound]
  omega

end CoinScript.Number
