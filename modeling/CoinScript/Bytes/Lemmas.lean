import CoinScript.Bytes.Long
import Mathlib.Algebra.Order.Ring.Nat

/-!
# Numbers as byte strings: the laws

* `toNatLE_ofNatLE` and `toNatBE_ofNatBE`: a number below `256 ^ w` is read back from its `w` bytes.
* `toNatLE_append` and `ofNatLE_add`: both directions, for a byte string in two parts.
* `longValue_eq` and `longDigits_eq`: halving changes nothing.
* `digitsLE_toNatLE` and `digitsBE_toNatBE`: a byte string without a zero at its high end is the
  shortest form of its value.
-/

namespace CoinScript.Bytes

/-- What holds of the bytes of the numbers below 256 holds of all bytes. -/
theorem forall_byte {p : UInt8 → Prop} (h : ∀ n : Fin 256, p (UInt8.ofNat n)) (x : UInt8) :
    p x := by
  have hx := h ⟨x.toNat, x.toNat_lt⟩
  rwa [UInt8.ofNat_toNat] at hx

/-! ## Reading undoes writing -/

theorem toNatLE_lt (b : Bytes) : toNatLE b < 256 ^ b.length := by
  induction b with
  | nil => simp [toNatLE]
  | cons x xs ih =>
    have hx : x.toNat < 256 := x.toNat_lt
    simp only [toNatLE, List.length_cons, Nat.pow_succ]
    omega

theorem toNatLE_ofNatLE_mod (w n : Nat) : toNatLE (ofNatLE w n) = n % 256 ^ w := by
  induction w generalizing n with
  | zero => simp [ofNatLE, toNatLE, Nat.mod_one]
  | succ w ih =>
    have hb : (UInt8.ofNat n).toNat = n % 256 := UInt8.toNat_ofNat'
    rw [ofNatLE, toNatLE, ih, hb, Nat.pow_succ, Nat.mul_comm, Nat.mul_comm (256 ^ w) 256,
      Nat.mod_mul, Nat.mul_comm]

/-- **A number that fits is read back.** -/
theorem toNatLE_ofNatLE {w n : Nat} (h : n < 256 ^ w) : toNatLE (ofNatLE w n) = n := by
  rw [toNatLE_ofNatLE_mod, Nat.mod_eq_of_lt h]

theorem toNatBE_lt (b : Bytes) : toNatBE b < 256 ^ b.length := by
  simpa [toNatBE] using toNatLE_lt b.reverse

theorem toNatBE_ofNatBE {w n : Nat} (h : n < 256 ^ w) : toNatBE (ofNatBE w n) = n := by
  simp [toNatBE, ofNatBE, toNatLE_ofNatLE h]

/-! ## Reading in two parts -/

theorem pow_two_eight_mul (k : Nat) : 2 ^ (8 * k) = 256 ^ k := by
  rw [Nat.pow_mul]

theorem toNatLE_append (a b : Bytes) :
    toNatLE (a ++ b) = toNatLE a + 256 ^ a.length * toNatLE b := by
  induction a with
  | nil => simp [toNatLE]
  | cons x xs ih =>
    rw [List.cons_append, toNatLE, toNatLE, ih, List.length_cons, Nat.pow_succ', Nat.mul_add,
      Nat.mul_assoc, Nat.add_assoc]

theorem valueByHalves_eq (rounds : Nat) (b : Bytes) : valueByHalves rounds b = toNatLE b := by
  induction rounds generalizing b with
  | zero => rfl
  | succ rounds ih =>
    have hlen : (b.take (b.length / 2)).length = b.length / 2 := by
      rw [List.length_take]
      omega
    rw [valueByHalves, ih, ih, Nat.shiftLeft_eq, pow_two_eight_mul, Nat.mul_comm]
    conv => rhs; rw [← List.take_append_drop (b.length / 2) b, toNatLE_append, hlen]

@[simp] theorem longValue_eq (b : Bytes) : longValue b = toNatLE b := valueByHalves_eq _ b

/-! ## Writing in two parts -/

theorem ofNatLE_add (v w n : Nat) :
    ofNatLE (v + w) n = ofNatLE v n ++ ofNatLE w (n / 256 ^ v) := by
  induction v generalizing n with
  | zero => simp [ofNatLE]
  | succ v ih =>
    rw [Nat.add_right_comm, ofNatLE, ofNatLE, ih, Nat.div_div_eq_div_mul, Nat.pow_succ',
      List.cons_append]

theorem ofNatLE_mod (w n : Nat) : ofNatLE w (n % 256 ^ w) = ofNatLE w n := by
  have h := ofNatLE_toNatLE (ofNatLE w n)
  rwa [length_ofNatLE, toNatLE_ofNatLE_mod] at h

theorem bytesByHalves_eq (rounds w n : Nat) : bytesByHalves rounds w n = ofNatLE w n := by
  induction rounds generalizing w n with
  | zero => rfl
  | succ rounds ih =>
    have hlow : n - n / 256 ^ (w / 2) * 256 ^ (w / 2) = n % 256 ^ (w / 2) := by
      have h := Nat.div_add_mod n (256 ^ (w / 2))
      rw [Nat.mul_comm] at h
      omega
    have hw : w / 2 + (w - w / 2) = w := by omega
    rw [bytesByHalves, ih, ih, Nat.shiftLeft_eq, Nat.shiftRight_eq_div_pow, pow_two_eight_mul,
      hlow, ofNatLE_mod, ← ofNatLE_add, hw]

theorem byteCount_of_pos {n : Nat} (h : 0 < n) : byteCount n = byteCount (n / 256) + 1 := by
  have hn : n ≠ 0 := by omega
  by_cases hd : n / 256 = 0
  · have hlt : Nat.log2 n < 8 := (Nat.log2_lt hn).mpr (by omega)
    simp only [byteCount, hn, hd, if_true, if_false]
    omega
  · have hlog : Nat.log2 n = Nat.log2 (n / 256) + 8 := by
      have hlow : 2 ^ Nat.log2 (n / 256) ≤ n / 256 := Nat.log2_self_le hd
      have hhigh : n / 256 < 2 ^ (Nat.log2 (n / 256) + 1) := Nat.lt_log2_self
      have hle : Nat.log2 (n / 256) + 8 ≤ Nat.log2 n := by
        rw [Nat.le_log2 hn, Nat.pow_add]
        omega
      have hlt : Nat.log2 n < Nat.log2 (n / 256) + 9 := by
        rw [Nat.log2_lt hn, Nat.pow_add]
        rw [Nat.pow_add] at hhigh
        omega
      omega
    simp only [byteCount, hn, hd, if_false, hlog]
    omega

theorem ofNatLE_byteCount (n : Nat) : ofNatLE (byteCount n) n = digitsLE n := by
  induction n using Nat.strongRecOn with
  | ind n ih =>
    by_cases h : n = 0
    · subst h
      simp [byteCount, ofNatLE]
    · rw [byteCount_of_pos (by omega), ofNatLE, digitsLE_of_pos (by omega), ih (n / 256) (by omega)]

@[simp] theorem longDigits_eq (n : Nat) : longDigits n = digitsLE n := by
  rw [longDigits, bytesByHalves_eq, ofNatLE_byteCount]

/-! ## The shortest form -/

theorem length_digitsLE_le {w n : Nat} (h : n < 256 ^ w) : (digitsLE n).length ≤ w := by
  induction w generalizing n with
  | zero =>
    obtain rfl : n = 0 := by omega
    simp
  | succ w ih =>
    by_cases hn : n = 0
    · simp [hn]
    · rw [digitsLE_of_pos (by omega), List.length_cons]
      have hdiv : n / 256 < 256 ^ w := by
        rw [Nat.pow_succ] at h
        omega
      exact Nat.succ_le_succ (ih hdiv)

/-- **A byte string that does not end in a zero byte is the shortest form of its value.** -/
theorem digitsLE_toNatLE {b : Bytes} (h : b.getLast? ≠ some 0) : digitsLE (toNatLE b) = b := by
  induction b with
  | nil => simp [toNatLE]
  | cons x xs ih =>
    have hrest : digitsLE (toNatLE xs) = xs := by
      cases xs with
      | nil => simp [toNatLE]
      | cons y ys => exact ih (by simpa using h)
    have hx : x.toNat < 256 := x.toNat_lt
    have hpos : 0 < x.toNat + 256 * toNatLE xs := by
      by_contra hzero
      obtain ⟨hx0, hxs0⟩ : x.toNat = 0 ∧ toNatLE xs = 0 := by omega
      rw [hxs0, digitsLE_zero] at hrest
      rw [← hrest, List.getLast?_singleton] at h
      exact h (congrArg some (UInt8.toNat_inj.mp hx0))
    have hdiv : (x.toNat + 256 * toNatLE xs) / 256 = toNatLE xs := by omega
    have hhead : UInt8.ofNat (x.toNat + 256 * toNatLE xs) = x := by
      apply UInt8.toNat_inj.mp
      rw [UInt8.toNat_ofNat']
      omega
    rw [toNatLE, digitsLE_of_pos hpos, hdiv, hrest, hhead]

theorem getLast?_digitsLE (n : Nat) : (digitsLE n).getLast? ≠ some 0 := by
  induction n using Nat.strongRecOn with
  | ind n ih =>
    by_cases hn : n = 0
    · simp [hn]
    · rw [digitsLE_of_pos (by omega)]
      have hrest := ih (n / 256) (by omega)
      cases hd : digitsLE (n / 256) with
      | nil =>
        have hzero : n / 256 = 0 := by
          rw [← toNatLE_digitsLE (n / 256), hd]
          rfl
        rw [List.getLast?_singleton]
        intro h
        have hbyte : (UInt8.ofNat n).toNat = 0 := by
          rw [Option.some.inj h]
          rfl
        rw [UInt8.toNat_ofNat'] at hbyte
        omega
      | cons y ys =>
        rw [List.getLast?_cons_cons, ← hd]
        exact hrest

theorem toNatBE_cons (x : UInt8) (b : Bytes) :
    toNatBE (x :: b) = toNatBE b + 256 ^ b.length * x.toNat := by
  simp [toNatBE, toNatLE_append, toNatLE]

theorem toNatBE_append (a b : Bytes) :
    toNatBE (a ++ b) = toNatBE b + 256 ^ b.length * toNatBE a := by
  rw [toNatBE, List.reverse_append, toNatLE_append, List.length_reverse]
  rfl

/-- Zero bytes at the high end do not count. -/
theorem toNatLE_append_replicate (b : Bytes) (count : Nat) :
    toNatLE (b ++ List.replicate count 0) = toNatLE b := by
  induction count with
  | zero => rw [List.replicate_zero, List.append_nil]
  | succ count ih =>
    rw [List.replicate_succ', ← List.append_assoc, toNatLE_append, ih]
    simp [toNatLE]

theorem toNatBE_replicate_append (count : Nat) (b : Bytes) :
    toNatBE (List.replicate count 0 ++ b) = toNatBE b := by
  rw [toNatBE, List.reverse_append, List.reverse_replicate, toNatLE_append_replicate]
  rfl

/-- Zero bytes in front do not count. -/
theorem toNatBE_dropWhile (b : Bytes) : toNatBE (b.dropWhile (· == 0)) = toNatBE b := by
  induction b with
  | nil => rfl
  | cons x xs ih =>
    rw [List.dropWhile_cons]
    split
    · next h =>
      obtain rfl : x = 0 := by simpa using h
      rw [ih, toNatBE_cons]
      simp
    · rfl

theorem digitsBE_toNatBE {b : Bytes} (h : b.head? ≠ some 0) :
    (digitsLE (toNatBE b)).reverse = b := by
  rw [toNatBE, digitsLE_toNatLE (by rwa [List.getLast?_reverse]), List.reverse_reverse]

/-- The bytes that count are as many as the value needs. -/
theorem length_dropWhile_le_iff {b : Bytes} {w : Nat} :
    (b.dropWhile (· == 0)).length ≤ w ↔ toNatBE b < 256 ^ w := by
  have hhead : (b.dropWhile (· == 0)).head? ≠ some 0 := by
    intro h
    have hnot := List.head?_dropWhile_not (· == 0) b
    rw [h] at hnot
    simp at hnot
  rw [← toNatBE_dropWhile]
  constructor
  · intro h
    exact Nat.lt_of_lt_of_le (toNatBE_lt _) (Nat.pow_le_pow_right (by decide) h)
  · intro h
    have hlength := length_digitsLE_le h
    rwa [← List.length_reverse, digitsBE_toNatBE hhead] at hlength

end CoinScript.Bytes
