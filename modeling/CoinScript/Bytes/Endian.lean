import CoinScript.Bytes.Basic

/-!
# Numbers as byte strings

A natural number below `256 ^ w` has one little-endian and one big-endian form of `w` bytes.
Wire fields, push headers and script numbers are little-endian; curve scalars, coordinates and
DER integers are big-endian.

* `ofNatLE` / `toNatLE` and `ofNatBE` / `toNatBE`: a byte string is the form of its own value
  (`ofNatLE_toNatLE`, `ofNatBE_toNatBE`);
* `digitsLE`, the shortest little-endian form, which ends in a byte other than zero.
-/

namespace CoinScript.Bytes

/-- The `w` little-endian bytes of `n`; what does not fit is dropped. -/
def ofNatLE : (w : Nat) → (n : Nat) → Bytes
  | 0, _ => []
  | w + 1, n => UInt8.ofNat n :: ofNatLE w (n / 256)

/-- The number with the given little-endian bytes. -/
def toNatLE : Bytes → Nat
  | [] => 0
  | b :: bs => b.toNat + 256 * toNatLE bs

/-- The `w` big-endian bytes of `n`; what does not fit is dropped. -/
def ofNatBE (w n : Nat) : Bytes := (ofNatLE w n).reverse

/-- The number with the given big-endian bytes. -/
def toNatBE (b : Bytes) : Nat := toNatLE b.reverse

/-- The shortest little-endian form of `n`: empty for zero, and otherwise ending in a byte that
is not zero. -/
def digitsLE (n : Nat) : Bytes :=
  if n = 0 then [] else UInt8.ofNat n :: digitsLE (n / 256)
decreasing_by omega

/-! ## Lengths -/

@[simp] theorem length_ofNatLE (w n : Nat) : (ofNatLE w n).length = w := by
  induction w generalizing n with
  | zero => rfl
  | succ w ih => simp [ofNatLE, ih]

@[simp] theorem length_ofNatBE (w n : Nat) : (ofNatBE w n).length = w := by
  simp [ofNatBE]

/-! ## Writing undoes reading -/

/-- **Every byte string is the fixed-width form of its own value.** -/
theorem ofNatLE_toNatLE (b : Bytes) : ofNatLE b.length (toNatLE b) = b := by
  induction b with
  | nil => rfl
  | cons x xs ih =>
    have hx : x.toNat < 256 := x.toNat_lt
    have hdiv : (x.toNat + 256 * toNatLE xs) / 256 = toNatLE xs := by omega
    have hhead : UInt8.ofNat (x.toNat + 256 * toNatLE xs) = x := by
      apply UInt8.toNat_inj.mp
      rw [UInt8.toNat_ofNat']
      omega
    rw [List.length_cons, toNatLE, ofNatLE, hdiv, ih, hhead]

theorem ofNatBE_toNatBE (b : Bytes) : ofNatBE b.length (toNatBE b) = b := by
  have h := ofNatLE_toNatLE b.reverse
  rw [List.length_reverse] at h
  rw [ofNatBE, toNatBE, h, List.reverse_reverse]

/-! ## The shortest form -/

@[simp] theorem digitsLE_zero : digitsLE 0 = [] := by
  unfold digitsLE
  rfl

theorem digitsLE_of_pos {n : Nat} (h : 0 < n) :
    digitsLE n = UInt8.ofNat n :: digitsLE (n / 256) := by
  rw [digitsLE, if_neg (by omega)]

@[simp] theorem toNatLE_digitsLE (n : Nat) : toNatLE (digitsLE n) = n := by
  induction n using Nat.strongRecOn with
  | ind n ih =>
    by_cases h : n = 0
    · subst h
      simp [toNatLE]
    · have hb : (UInt8.ofNat n).toNat = n % 256 := UInt8.toNat_ofNat'
      rw [digitsLE_of_pos (by omega), toNatLE, ih (n / 256) (by omega), hb]
      omega

end CoinScript.Bytes
