import CoinScript.Proofs.Checked.Number

/-!
# Forms without numbers

Shortening, the check for shortest forms and the reading of truth values look at bytes only, so that
an element of any length is handled without making the number that it stands for.  The number is the
specification of all three: shortening gives what the number is written as, the check lets exactly the
results of shortening pass, and a truth value is whether the number is not zero.

Shortening never looks at the number, so its result is first shown to have the same value
(`value_minimize`) and not to be padded (`isPadded_minimize`).  A form with these two properties is what
its number is written as, and that it is the shortest follows (`minimize_eq_encode`).

Widening goes the other way, from a shorter form to a longer one of the same number
(`value_widen`).
-/

namespace CoinScript

namespace Number

variable {b init : Bytes} {last : UInt8}

/-! ## Moving the sign -/

/-- The sign is the highest bit of the last byte, whatever the rest of that byte. -/
theorem and_sign_lt_iff (last : UInt8) : last &&& 0x80 < 0x80 ↔ last < 0x80 := by
  rw [lt_sign_iff, lt_sign_iff, toNat_and_sign]
  omega

theorem and_sign_and (last : UInt8) : (last &&& 0x80) &&& 0x7f = 0 := by
  rw [← UInt8.toNat_inj, toNat_and_digits, toNat_and_sign, Nat.mul_mod_right]
  rfl

/-- A sign behind a byte with room for it can as well stand in that byte. -/
theorem value_concat_or (front : Bytes) {x : UInt8} (hx : x < 0x80) (h : last &&& 0x7f = 0) :
    value (front ++ [x ||| last]) = value (front ++ [x] ++ [last]) := by
  rcases eq_of_and_eq_zero h with rfl | rfl
  · rw [UInt8.or_zero, value_concat, value_concat, if_pos hx, if_pos (by decide),
      magnitude_of_and_eq_zero h, magnitude, and_of_lt hx]
  · rw [value_concat, value_concat, if_neg (UInt8.not_lt.mpr (le_or x)), if_neg (by decide),
      magnitude_of_and_eq_zero h, magnitude, and_or_of_lt hx]

/-- A zero in front of a byte that is nothing but a sign can go. -/
theorem value_concat_zero (front : Bytes) (h : last &&& 0x7f = 0) :
    value (front ++ [0] ++ [last]) = value (front ++ [last]) := by
  have hzero : Bytes.toNatLE (front ++ [0]) = Bytes.toNatLE front :=
    Bytes.toNatLE_append_replicate front 1
  rw [value_concat, value_concat, magnitude_of_and_eq_zero h, magnitude_of_and_eq_zero h, hzero]

/-! ## Shortening -/

/-- The digits below a sign, taken from the top down, keep their value when the sign moves down. -/
theorem value_signedDigits (h : last &&& 0x7f = 0) (digits : Bytes) :
    value (Checked.signedDigits last digits) = value (digits.reverse ++ [last]) := by
  induction digits with
  | nil => rcases eq_of_and_eq_zero h with rfl | rfl <;> rfl
  | cons x digits ih =>
    rw [List.reverse_cons]
    by_cases hx : x = 0
    · rw [hx, Checked.signedDigits_zero, ih, value_concat_zero _ h]
    · rw [Checked.signedDigits_cons hx]
      split
      · rw [List.reverse_cons]
      · next hroom => exact value_concat_or _ (UInt8.not_le.mp hroom) h

theorem isPadded_signedDigits (h : last &&& 0x7f = 0) (digits : Bytes) :
    isPadded (Checked.signedDigits last digits) = false := by
  induction digits with
  | nil => rfl
  | cons x digits ih =>
    by_cases hx : x = 0
    · rw [hx, Checked.signedDigits_zero, ih]
    · rw [Checked.signedDigits_cons hx, ← Bool.not_eq_true]
      intro hpadded
      split at hpadded
      · next hfull =>
        obtain ⟨-, hbefore⟩ := (isPadded_concat _ _).mp hpadded
        rw [List.reverse_cons] at hbefore
        exact UInt8.not_lt.mpr hfull (hbefore x (List.getLast?_concat ..))
      · next hroom =>
        -- the byte that takes the sign has other bits, and they stay
        have hlt : x < 0x80 := UInt8.not_le.mp hroom
        obtain ⟨hseven, -⟩ := (isPadded_concat _ _).mp hpadded
        rcases eq_of_and_eq_zero h with rfl | rfl
        · rw [UInt8.or_zero, and_of_lt hlt] at hseven
          exact hx hseven
        · rw [and_or_of_lt hlt] at hseven
          exact hx hseven

/-- Shortening keeps the number. -/
theorem value_minimize (b : Bytes) : value (minimize b) = value b := by
  rcases List.eq_nil_or_concat' b with rfl | ⟨init, last, rfl⟩
  · rfl
  · rw [Checked.minimize_concat]
    split
    · rfl
    · next hseven => rw [value_signedDigits (not_not.mp hseven), List.reverse_reverse]

theorem isPadded_minimize (b : Bytes) : isPadded (minimize b) = false := by
  rcases List.eq_nil_or_concat' b with rfl | ⟨init, last, rfl⟩
  · rfl
  · rw [Checked.minimize_concat]
    split
    · next hseven =>
      rw [← Bool.not_eq_true]
      exact fun hpadded => hseven ((isPadded_concat _ _).mp hpadded).1
    · next hseven => exact isPadded_signedDigits (not_not.mp hseven) _

/-- **Shortening gives what the number is written as.** -/
theorem minimize_eq_encode (b : Bytes) : minimize b = encode (value b) := by
  rw [← value_minimize b, encode_value (isPadded_minimize b)]

theorem minimize_encode (n : Int) : minimize (encode n) = encode n := by
  rw [minimize_eq_encode, value_encode]

/-- The forms that shortening leaves alone are the ones that are not padded. -/
theorem minimize_eq_self_iff : minimize b = b ↔ isPadded b = false := by
  constructor
  · intro h
    rw [← h]
    exact isPadded_minimize b
  · intro h
    rw [minimize_eq_encode, encode_value h]

theorem checkMinimal_eq_ok_iff : checkMinimal b = .ok () ↔ isPadded b = false := by
  unfold checkMinimal
  cases isPadded b <;> simp

/-! ## Truth values -/

/-- A byte below others is a digit of the number, without its sign. -/
theorem natAbs_value_cons (x : UInt8) (h : b ≠ []) :
    (value (x :: b)).natAbs = x.toNat + 256 * (value b).natAbs := by
  obtain ⟨init, last, rfl⟩ := (List.eq_nil_or_concat' b).resolve_left h
  rw [← List.cons_append, natAbs_value_concat, natAbs_value_concat]
  rfl

theorem natAbs_value_singleton (last : UInt8) :
    (value [last]).natAbs = last.toNat % 128 := by
  have h := natAbs_value_concat [] last
  have hdigits : magnitude [] last = (last &&& 0x7f).toNat := rfl
  rwa [List.nil_append, hdigits, toNat_and_digits] at h

/-- **An element is true if and only if its number is not zero.** -/
theorem truth_eq_true_iff (b : Bytes) : truth b = true ↔ value b ≠ 0 := by
  rw [← Int.natAbs_ne_zero]
  induction b with
  | nil => simp [truth, value]
  | cons x b ih =>
    cases b with
    | nil =>
      have hx : x.toNat < 256 := x.toNat_lt
      have htruth : truth [x] = true ↔ x.toNat ≠ 0 ∧ x.toNat ≠ 128 := by
        rw [truth, Bool.and_eq_true, bne_iff_ne, bne_iff_ne, ne_eq, ne_eq, ← UInt8.toNat_inj,
          ← UInt8.toNat_inj]
        rfl
      rw [htruth, natAbs_value_singleton]
      omega
    | cons y b =>
      have hx : (x != 0) = true ↔ x.toNat ≠ 0 := by
        rw [bne_iff_ne, ne_eq, ← UInt8.toNat_inj]
        rfl
      rw [truth, Bool.or_eq_true, ih, hx, natAbs_value_cons x (List.cons_ne_nil y b)]
      · omega
      · exact List.cons_ne_nil y b

/-! ## Widening -/

/-- **Widening keeps the number.** -/
theorem value_widen (size : Nat) (b : Bytes) : value (widen size b) = value b := by
  rcases List.eq_nil_or_concat' b with rfl | ⟨init, last, rfl⟩
  · have hzero : (value (List.replicate size 0)).natAbs = 0 := by
      rcases Nat.eq_zero_or_pos size with rfl | hpos
      · rfl
      · obtain ⟨count, rfl⟩ := Nat.exists_eq_succ_of_ne_zero (Nat.ne_of_gt hpos)
        rw [Nat.succ_eq_add_one, List.replicate_succ', natAbs_value_concat,
          magnitude_of_and_eq_zero (by decide)]
        exact Bytes.toNatLE_append_replicate [] count
    exact Int.natAbs_eq_zero.mp hzero
  · have hform : widen size (init ++ [last]) =
        (init ++ [last &&& 0x7f] ++ List.replicate (size - 1 - (init ++ [last]).length) 0) ++
          [last &&& 0x80] := by
      unfold widen
      simp only [List.getLast?_concat, List.dropLast_concat, List.append_assoc, List.cons_append,
        List.nil_append]
    rw [hform, value_concat, value_concat, magnitude_of_and_eq_zero (and_sign_and last),
      Bytes.toNatLE_append_replicate]
    simp only [and_sign_lt_iff, magnitude]

/-! ## The three together -/

/-- **What is done on bytes agrees with what would be done on numbers**, for every byte string, of
whatever length.  Shortening, also by the scan from the last byte on that an array is shortened with,
gives what the number is written as; so done again it changes nothing, it never lengthens and it keeps
the number.  The check for shortest forms passes for the forms that shortening leaves alone, and the
truth value, also by the scan from the first byte on, is whether the number is not zero. -/
theorem bytewise_exact (b : Bytes) :
    ∃ n, (∀ maxLength, b.length ≤ maxLength → decode ⟨maxLength, false⟩ b = .ok n) ∧
      minimize b = encode n ∧
      (Checked.minimize b : Checked NumberError Bytes) = .ok (encode n) ∧
      minimize (minimize b) = minimize b ∧
      (minimize b).length ≤ b.length ∧
      (∀ maxLength, b.length ≤ maxLength → decode ⟨maxLength, false⟩ (minimize b) = .ok n) ∧
      (checkMinimal b = .ok () ↔ minimize b = b) ∧
      (truth b = true ↔ n ≠ 0) ∧
      (Checked.truth b : Checked NumberError Bool) = .ok (decide (n ≠ 0)) := by
  have hlength : (minimize b).length ≤ b.length := by
    rw [minimize_eq_encode]
    exact length_encode_le (fits_value b)
  have htruth : truth b = decide (value b ≠ 0) :=
    Bool.eq_iff_iff.mpr ((truth_eq_true_iff b).trans decide_eq_true_iff.symm)
  refine ⟨value b, fun maxLength h => decode_of_length_le rfl h, minimize_eq_encode b, ?_, ?_,
    hlength, fun maxLength h => ?_, ?_, truth_eq_true_iff b, ?_⟩
  · rw [Checked.minimize_eq, minimize_eq_encode]
  · rw [minimize_eq_encode b, minimize_encode]
  · rw [decode_of_length_le rfl (Nat.le_trans hlength h), value_minimize]
  · rw [checkMinimal_eq_ok_iff, minimize_eq_self_iff]
  · rw [Checked.truth_eq, htruth]

/-- A form of -128 with two zeros between its digit and its sign: one of them can go, the other byte
cannot, for the digit has no room for the sign. -/
theorem bytewise_minus128 :
    decode ⟨4, false⟩ [0x80, 0x00, 0x00, 0x80] = .ok (-128) ∧
      minimize [0x80, 0x00, 0x00, 0x80] = encode (-128) ∧ encode (-128) = [0x80, 0x80] ∧
      truth [0x80, 0x00, 0x00, 0x80] = true ∧ checkMinimal [0x80, 0x00, 0x00, 0x80] ≠ .ok () := by
  obtain ⟨n, hread, hshort, -, -, -, -, hcheck, htruth, -⟩ :=
    bytewise_exact [0x80, 0x00, 0x00, 0x80]
  have hread := hread 4 (by decide)
  have hnumber : decode ⟨4, false⟩ [0x80, 0x00, 0x00, 0x80] = .ok (-128) := by decide +kernel
  have hbytes : encode (-128) = [0x80, 0x80] := by decide +kernel
  obtain rfl : n = -128 := Except.ok.inj (hread.symm.trans hnumber)
  refine ⟨hread, hshort, hbytes, htruth.mpr (by decide), fun hpasses => ?_⟩
  have hsame := hcheck.mp hpasses
  rw [hshort, hbytes] at hsame
  exact absurd hsame (by decide)

end Number

end CoinScript
