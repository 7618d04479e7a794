import CoinScript.Proofs.Number.Length
import Mathlib.Data.List.Basic
import Mathlib.Data.Nat.Bitwise

/-!
# Shortest forms

A number has many forms: zeros may stand between its digits and its sign, and zero itself may carry
a sign.  One form is shorter than all others, and it is the one that is written.  Two descriptions of
it meet here.  `Number.encode` makes it from the digits of the number, with one more byte where the
highest digit leaves no room for the sign.  `Number.isPadded` looks at the last two bytes of a form
and says whether it could do with fewer.

* `value_encode` and `isPadded_encode`: what is written stands for its number and is not padded;
* `encode_value`: a form that is not padded is what its number is written as;
* `length_encode_lt`: a padded form is longer than that.
-/

namespace CoinScript

namespace Number

variable {init b : Bytes} {last : UInt8} {n : Int} {maxLength : Nat}

/-! ## The last byte

A byte is a sign and seven binary digits: `x.toNat / 128` and `x.toNat % 128`. -/

theorem lt_sign_iff {x : UInt8} : x < 0x80 ↔ x.toNat < 128 := UInt8.lt_iff_toNat_lt

theorem sign_le_iff {x : UInt8} : 0x80 ≤ x ↔ 128 ≤ x.toNat := UInt8.le_iff_toNat_le

theorem toNat_and_digits (x : UInt8) : (x &&& 0x7f).toNat = x.toNat % 128 :=
  Nat.and_two_pow_sub_one_eq_mod x.toNat 7

theorem toNat_and_sign (x : UInt8) : (x &&& 0x80).toNat = 128 * (x.toNat / 128) := by
  have hx : x.toNat < 256 := x.toNat_lt
  have hbit : x.toNat &&& 2 ^ 7 = x.toNat / 2 ^ 7 % 2 * 2 ^ 7 := by
    rw [Nat.and_two_pow, Nat.toNat_testBit]
  have hand : (x &&& 0x80).toNat = x.toNat &&& 2 ^ 7 := UInt8.toNat_and x 0x80
  omega

theorem toNat_or_sign (x : UInt8) : (x ||| 0x80).toNat = 128 + x.toNat % 128 := by
  have hx : x.toNat < 256 := x.toNat_lt
  have hdigits : x.toNat % 128 < 2 ^ 7 := Nat.mod_lt _ (by decide)
  -- the sign is set already, or stands above all that is there
  have hsplit : 2 ^ 7 * 1 ||| x.toNat % 128 = 128 + x.toNat % 128 :=
    (Nat.two_pow_add_eq_or_of_lt hdigits 1).symm
  have hor : (x ||| 0x80).toNat = x.toNat ||| 2 ^ 7 * 1 := UInt8.toNat_or x 0x80
  rw [hor, ← hsplit]
  rcases Nat.lt_or_ge x.toNat 128 with hlt | hge
  · rw [Nat.mod_eq_of_lt hlt, Nat.or_comm]
  · have hself : x.toNat = 2 ^ 7 * 1 ||| x.toNat % 128 := by
      rw [hsplit]
      omega
    conv => lhs; rw [hself, Nat.or_right_comm, Nat.or_self]

/-- A byte without its sign. -/
theorem and_of_lt (h : last < 0x80) : last &&& 0x7f = last := by
  rw [← UInt8.toNat_inj, toNat_and_digits]
  exact Nat.mod_eq_of_lt (lt_sign_iff.mp h)

/-- The sign that is put on a byte can be taken off again. -/
theorem and_or_of_lt (h : last < 0x80) : (last ||| 0x80) &&& 0x7f = last := by
  have hlt := lt_sign_iff.mp h
  rw [← UInt8.toNat_inj, toNat_and_digits, toNat_or_sign]
  omega

/-- The sign that is taken off a byte can be put on again. -/
theorem or_and_of_le (h : 0x80 ≤ last) : (last &&& 0x7f) ||| 0x80 = last := by
  have hle := sign_le_iff.mp h
  have hlast : last.toNat < 256 := last.toNat_lt
  rw [← UInt8.toNat_inj, toNat_or_sign, toNat_and_digits]
  omega

theorem le_or (last : UInt8) : 0x80 ≤ last ||| 0x80 := by
  rw [sign_le_iff, toNat_or_sign]
  exact Nat.le_add_right _ _

theorem and_lt (last : UInt8) : last &&& 0x7f < 0x80 := by
  rw [lt_sign_iff, toNat_and_digits]
  exact Nat.mod_lt _ (by decide)

/-- Nothing but the sign is in the byte. -/
theorem eq_of_and_eq_zero (h : last &&& 0x7f = 0) : last = 0 ∨ last = 0x80 := by
  have hlast : last.toNat < 256 := last.toNat_lt
  have hdigits : last.toNat % 128 = 0 := by
    rw [← toNat_and_digits, h]
    rfl
  have hnumber : last.toNat = 0 ∨ last.toNat = 128 := by omega
  exact hnumber.imp UInt8.toNat_inj.mp UInt8.toNat_inj.mp

/-! ## Forms by their last byte -/

/-- The bytes without the sign. -/
def magnitude (init : Bytes) (last : UInt8) : Nat := Bytes.toNatLE (init ++ [last &&& 0x7f])

theorem value_concat (init : Bytes) (last : UInt8) :
    value (init ++ [last]) =
      if last < 0x80 then (magnitude init last : Int) else -(magnitude init last : Int) := by
  unfold value magnitude
  simp only [List.getLast?_concat, List.dropLast_concat, Bytes.longValue_eq]

theorem natAbs_value_concat (init : Bytes) (last : UInt8) :
    (value (init ++ [last])).natAbs = magnitude init last := by
  rw [value_concat]
  split <;> omega

/-- A byte with nothing but a sign adds nothing. -/
theorem magnitude_of_and_eq_zero (h : last &&& 0x7f = 0) :
    magnitude init last = Bytes.toNatLE init := by
  unfold magnitude
  rw [h, Bytes.toNatLE_append]
  simp [Bytes.toNatLE]

@[simp] theorem encode_zero : encode 0 = [] := by
  unfold encode
  simp

/-- **How a number is written**, from its digits. -/
theorem encode_of_digits (h : Bytes.digitsLE n.natAbs = init ++ [last]) :
    encode n =
      if 0x80 ≤ last then init ++ [last] ++ [if n < 0 then 0x80 else 0x00]
      else if n < 0 then init ++ [last ||| 0x80]
      else init ++ [last] := by
  unfold encode
  simp only [Bytes.longDigits_eq, h, List.getLast?_concat, List.dropLast_concat]

/-- What it means for a form to be padded. -/
theorem isPadded_concat (init : Bytes) (last : UInt8) :
    isPadded (init ++ [last]) = true ↔
      last &&& 0x7f = 0 ∧ ∀ before ∈ init.getLast?, before < 0x80 := by
  rcases List.eq_nil_or_concat' init with rfl | ⟨init, before, rfl⟩
  · simp [isPadded]
  · simp [isPadded]

/-! ## What is written -/

/-- **What is written stands for its number.** -/
theorem value_encode (n : Int) : value (encode n) = n := by
  have hdigits : Bytes.toNatLE (Bytes.digitsLE n.natAbs) = n.natAbs := Bytes.toNatLE_digitsLE _
  rcases List.eq_nil_or_concat' (Bytes.digitsLE n.natAbs) with hnil | ⟨init, last, hconcat⟩
  · rw [hnil, Bytes.toNatLE] at hdigits
    obtain rfl : n = 0 := by omega
    rfl
  · rw [encode_of_digits hconcat]
    rw [hconcat] at hdigits
    split
    · -- the digits are full, and the sign stands behind them
      by_cases hneg : n < 0
      · rw [if_pos hneg, value_concat, if_neg (by decide),
          magnitude_of_and_eq_zero (by decide), hdigits]
        omega
      · rw [if_neg hneg, value_concat, if_pos (by decide),
          magnitude_of_and_eq_zero (by decide), hdigits]
        omega
    · next hroom =>
      have hlast : last < 0x80 := UInt8.not_le.mp hroom
      split
      · rw [value_concat, if_neg (UInt8.not_lt.mpr (le_or last)), magnitude, and_or_of_lt hlast,
          hdigits]
        omega
      · rw [value_concat, if_pos hlast, magnitude, and_of_lt hlast, hdigits]
        omega

/-- **What is written is not padded.** -/
theorem isPadded_encode (n : Int) : isPadded (encode n) = false := by
  have hend := Bytes.getLast?_digitsLE n.natAbs
  rw [← Bool.not_eq_true]
  intro hpadded
  rcases List.eq_nil_or_concat' (Bytes.digitsLE n.natAbs) with hnil | ⟨init, last, hconcat⟩
  · have hdigits : Bytes.toNatLE (Bytes.digitsLE n.natAbs) = n.natAbs := Bytes.toNatLE_digitsLE _
    rw [hnil, Bytes.toNatLE] at hdigits
    obtain rfl : n = 0 := by omega
    rw [encode_zero] at hpadded
    cases hpadded
  · rw [hconcat, List.getLast?_concat] at hend
    have hne : last ≠ 0 := fun hzero => hend (congrArg some hzero)
    rw [encode_of_digits hconcat] at hpadded
    split at hpadded
    · next hfull =>
      obtain ⟨-, hbefore⟩ := (isPadded_concat _ _).mp hpadded
      exact UInt8.not_lt.mpr hfull (hbefore last (List.getLast?_concat ..))
    · next hroom =>
      have hlast : last < 0x80 := UInt8.not_le.mp hroom
      split at hpadded
      · obtain ⟨hzero, -⟩ := (isPadded_concat _ _).mp hpadded
        exact hne (by rwa [and_or_of_lt hlast] at hzero)
      · obtain ⟨hzero, -⟩ := (isPadded_concat _ _).mp hpadded
        exact hne (by rwa [and_of_lt hlast] at hzero)

/-! ## What is read -/

/-- The sign of a form whose number is not zero. -/
theorem value_neg_iff (h : 0 < magnitude init last) :
    value (init ++ [last]) < 0 ↔ 0x80 ≤ last := by
  rw [value_concat]
  split
  · next hlast => exact ⟨fun hneg => by omega, fun hle => absurd hlast (UInt8.not_lt.mpr hle)⟩
  · next hlast => exact ⟨fun _ => UInt8.not_lt.mp hlast, fun _ => by omega⟩

/-- A byte string whose last byte is not zero stands for a positive number. -/
theorem toNatLE_concat_pos (init : Bytes) (h : last ≠ 0) : 0 < Bytes.toNatLE (init ++ [last]) := by
  have hbyte : 0 < last.toNat := Nat.pos_of_ne_zero fun hzero => h (UInt8.toNat_inj.mp hzero)
  rw [Bytes.toNatLE_append]
  have hhigh : 0 < 256 ^ init.length * Bytes.toNatLE [last] :=
    Nat.mul_pos (Nat.pow_pos (by decide)) (by simpa [Bytes.toNatLE] using hbyte)
  omega

theorem digitsLE_concat (init : Bytes) (h : last ≠ 0) :
    Bytes.digitsLE (Bytes.toNatLE (init ++ [last])) = init ++ [last] := by
  refine Bytes.digitsLE_toNatLE fun hzero => ?_
  rw [List.getLast?_concat] at hzero
  exact h (Option.some.inj hzero)

/-- **A form that is not padded is what its number is written as.** -/
theorem encode_value (h : isPadded b = false) : encode (value b) = b := by
  rcases List.eq_nil_or_concat' b with rfl | ⟨init, last, rfl⟩
  · exact encode_zero
  · have hnot : ¬(last &&& 0x7f = 0 ∧ ∀ before ∈ init.getLast?, before < 0x80) := by
      rw [← isPadded_concat, h]
      exact Bool.false_ne_true
    by_cases hseven : last &&& 0x7f = 0
    · -- the last byte is nothing but the sign, and the digits before it are full
      obtain ⟨before, hbefore, hfull⟩ : ∃ before ∈ init.getLast?, ¬before < 0x80 := by
        simpa [hseven] using hnot
      obtain ⟨front, rfl⟩ := List.getLast?_eq_some_iff.mp hbefore
      have hle : 0x80 ≤ before := UInt8.not_lt.mp hfull
      have hne : before ≠ 0 := by
        rintro rfl
        exact absurd hle (by decide)
      have hmagnitude : magnitude (front ++ [before]) last = Bytes.toNatLE (front ++ [before]) :=
        magnitude_of_and_eq_zero hseven
      have hpos : 0 < magnitude (front ++ [before]) last := by
        rw [hmagnitude]
        exact toNatLE_concat_pos front hne
      have hdigits : Bytes.digitsLE (value (front ++ [before] ++ [last])).natAbs =
          front ++ [before] := by
        rw [natAbs_value_concat, hmagnitude]
        exact digitsLE_concat front hne
      have hneg := value_neg_iff hpos
      rw [encode_of_digits hdigits, if_pos hle]
      rcases eq_of_and_eq_zero hseven with rfl | rfl
      · rw [if_neg fun hlt => absurd (hneg.mp hlt) (by decide)]
      · rw [if_pos (hneg.mpr (by decide))]
    · have hpos : 0 < magnitude init last := toNatLE_concat_pos init hseven
      have hdigits : Bytes.digitsLE (value (init ++ [last])).natAbs =
          init ++ [last &&& 0x7f] := by
        rw [natAbs_value_concat]
        exact digitsLE_concat init hseven
      rw [encode_of_digits hdigits, if_neg (UInt8.not_le.mpr (and_lt last))]
      split
      · next hneg => rw [or_and_of_le ((value_neg_iff hpos).mp hneg)]
      · next hnonneg =>
        rw [and_of_lt (UInt8.not_le.mp fun hle => hnonneg ((value_neg_iff hpos).mpr hle))]

/-- **A padded form is longer than what its number is written as**: its last byte can go. -/
theorem length_encode_lt (h : isPadded b = true) : (encode (value b)).length < b.length := by
  rcases List.eq_nil_or_concat' b with rfl | ⟨init, last, rfl⟩
  · cases h
  · obtain ⟨hseven, hbefore⟩ := (isPadded_concat init last).mp h
    rw [List.length_append, List.length_singleton]
    refine Nat.lt_succ_of_le (length_encode_le ?_)
    unfold Fits
    rw [natAbs_value_concat, magnitude_of_and_eq_zero hseven]
    rcases List.eq_nil_or_concat' init with rfl | ⟨front, before, rfl⟩
    · decide
    · exact two_mul_toNatLE_concat_lt front
        (UInt8.lt_iff_toNat_lt.mp (hbefore before (List.getLast?_concat ..)))

/-! ## Operands -/

/-- Where shortest forms are asked for, the operands are the forms that are written. -/
theorem decode_minimal_eq_ok_iff :
    decode ⟨maxLength, true⟩ b = .ok n ↔ b.length ≤ maxLength ∧ encode n = b := by
  unfold decode
  dsimp only
  constructor
  · intro h
    split at h
    · cases h
    next hlength =>
    split at h
    · cases h
    next hpadded =>
    cases h
    exact ⟨Nat.not_lt.mp hlength, encode_value (by simpa using hpadded)⟩
  · rintro ⟨hlength, rfl⟩
    rw [if_neg (Nat.not_lt.mpr hlength), isPadded_encode, value_encode]
    rfl

/-- Where they are not, every byte string that is not too long is an operand. -/
theorem decode_eq_ok_iff :
    decode ⟨maxLength, false⟩ b = .ok n ↔ b.length ≤ maxLength ∧ value b = n := by
  constructor
  · intro h
    obtain ⟨hlength, hvalue⟩ := decode_eq_ok h
    exact ⟨hlength, hvalue.symm⟩
  · rintro ⟨hlength, rfl⟩
    exact decode_of_length_le rfl hlength

/-- **Numbers and shortest forms correspond one to one.**  Where shortest forms are asked for, a
number is read from what it is written as and from nothing else.  Otherwise every byte string within
the limit is read, as one number; of those that are read as the same number, the one that is written
is shorter than all others. -/
theorem shortest_forms_exact (n : Int) :
    (∀ maxLength, (encode n).length ≤ maxLength →
      decode ⟨maxLength, true⟩ (encode n) = .ok n ∧
      decode ⟨maxLength, false⟩ (encode n) = .ok n) ∧
    (∀ b maxLength, decode ⟨maxLength, true⟩ b = .ok n ↔ b.length ≤ maxLength ∧ encode n = b) ∧
    (∀ b maxLength, b.length ≤ maxLength → ∃ k, decode ⟨maxLength, false⟩ b = .ok k) ∧
    (∀ b maxLength, decode ⟨maxLength, false⟩ b = .ok n →
      b = encode n ∨ (encode n).length < b.length) := by
  refine ⟨fun maxLength hlength => ⟨?_, ?_⟩, fun b maxLength => decode_minimal_eq_ok_iff,
    fun b maxLength hlength => ⟨value b, decode_eq_ok_iff.mpr ⟨hlength, rfl⟩⟩,
    fun b maxLength hread => ?_⟩
  · exact decode_minimal_eq_ok_iff.mpr ⟨hlength, rfl⟩
  · exact decode_eq_ok_iff.mpr ⟨hlength, value_encode n⟩
  · obtain ⟨-, rfl⟩ := decode_eq_ok_iff.mp hread
    cases hpadded : isPadded b with
    | false => exact .inl (encode_value hpadded).symm
    | true => exact .inr (length_encode_lt hpadded)

/-- The number -255 is written as two bytes, needs the second one for its sign, and has a form of
three bytes that is read only where shortest forms are not asked for. -/
theorem shortest_forms_minus255 :
    decode ⟨2, true⟩ (encode (-255)) = .ok (-255) ∧ encode (-255) = [0xff, 0x80] ∧
      decode ⟨4, true⟩ [0xff, 0x00, 0x80] ≠ .ok (-255) ∧
      ([0xff, 0x00, 0x80] = encode (-255) ∨
        (encode (-255)).length < [(0xff : UInt8), 0x00, 0x80].length) := by
  obtain ⟨hwritten, hminimal, -, hshortest⟩ := shortest_forms_exact (-255)
  have hbytes : encode (-255) = [0xff, 0x80] := by decide +kernel
  refine ⟨(hwritten 2 (by rw [hbytes]; decide)).1, hbytes, fun hread => ?_, ?_⟩
  · obtain ⟨-, heq⟩ := (hminimal _ _).mp hread
    rw [hbytes] at heq
    exact absurd heq (by decide)
  · exact hshortest [0xff, 0x00, 0x80] 3 (by decide +kernel)

end Number

end CoinScript
