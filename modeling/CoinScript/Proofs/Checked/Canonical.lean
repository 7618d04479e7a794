import CoinScript.Bytes.Lemmas
import CoinScript.Proofs.Checked.Basic
import CoinScript.Proofs.Signature.Canonical
import Mathlib.Tactic.Ring
import Mathlib.Tactic.LinearCombination

/-!
# The canonical twin on byte strings

The two numbers of a signature as 32 big-endian bytes each.  Numbers are compared as byte strings,
from the first byte on, and the order less a number is found byte by byte from the last one, with a
borrow.

* `lt_iff_toNatBE_lt`: byte strings of one length are ordered as the numbers they stand for.
* `subtractFromOrder_eq`: the loop computes the difference.  Its invariant is that the bytes found so
  far are the difference of the ends of the two numbers, up to the borrow that is still to be paid;
  at the first byte nothing is left to be borrowed, because the number is not above the order.
* `canonicalBytes_eq` and `isCanonicalBytes_eq`: passing to the canonical twin and asking for it are
  the same on the bytes and on the numbers.
-/

namespace CoinScript.Checked

open Secp256k1 (order halfOrder)

variable {ε : Type} {a b minuend subtrahend : Bytes}

/-- The order of the curve. -/
def orderBytes : Bytes :=
  [0xff, 0xff, 0xff, 0xff, 0xff, 0xff, 0xff, 0xff, 0xff, 0xff, 0xff, 0xff, 0xff, 0xff, 0xff, 0xfe,
    0xba, 0xae, 0xdc, 0xe6, 0xaf, 0x48, 0xa0, 0x3b, 0xbf, 0xd2, 0x5e, 0x8c, 0xd0, 0x36, 0x41, 0x41]

/-- Half of the order. -/
def halfOrderBytes : Bytes :=
  [0x7f, 0xff, 0xff, 0xff, 0xff, 0xff, 0xff, 0xff, 0xff, 0xff, 0xff, 0xff, 0xff, 0xff, 0xff, 0xff,
    0x5d, 0x57, 0x6e, 0x73, 0x57, 0xa4, 0x50, 0x1d, 0xdf, 0xe9, 0x2f, 0x46, 0x68, 0x1b, 0x20, 0xa0]

/-- All bytes are zero. -/
def isZeroBytes (b : Bytes) : Bool := b.all (· == 0)

/-! ## The borrow loop -/

/-- The bytes of a difference before index `count`, from the last one down; `borrow` is what the bytes
after them have borrowed. -/
def subtractBytes (minuend subtrahend : Bytes) :
    (count : Nat) → (result : Bytes) → (borrow : Int) → Checked ε Bytes
  | 0, result, _ => return result
  | i + 1, result, borrow => do
    let x ← index minuend i
    let y ← index subtrahend i
    let diff ← short ((x.toNat : Int) - y.toNat)
    let diff ← short (diff - borrow)
    if diff < 0 then
      let diff ← short (diff + 256)
      subtractBytes minuend subtrahend i (← store result i (UInt8.ofInt diff)) 1
    else
      subtractBytes minuend subtrahend i (← store result i (UInt8.ofInt diff)) 0

/-- The order less a number. -/
def subtractFromOrder (b : Bytes) : Checked ε Bytes :=
  subtractBytes orderBytes b 32 (List.replicate 32 0) 0

/-! ## The canonical twin -/

/-- The twin with the smaller second number. -/
def canonicalBytes (r s : Bytes) : Checked ε (Bytes × Bytes) := do
  if halfOrderBytes < s ∧ s < orderBytes then return (r, ← subtractFromOrder s)
  else return (r, s)

/-- Both numbers are in range and the second is at most half the order. -/
def isCanonicalBytes (r s : Bytes) : Bool :=
  !isZeroBytes r && !isZeroBytes s && decide (r < orderBytes) && decide (s < orderBytes) &&
    !decide (halfOrderBytes < s)

/-! ## Comparing bytes -/

/-- **Byte strings of one length are ordered as the numbers they stand for.** -/
theorem lt_iff_toNatBE_lt (h : a.length = b.length) :
    a < b ↔ Bytes.toNatBE a < Bytes.toNatBE b := by
  induction a generalizing b with
  | nil =>
    obtain rfl : b = [] := List.length_eq_zero_iff.mp h.symm
    simp
  | cons x a ih =>
    match b, h with
    | y :: b, h =>
      have hlength : a.length = b.length := Nat.succ.inj h
      have ha := Bytes.toNatBE_lt a
      have hb := Bytes.toNatBE_lt b
      rw [List.cons_lt_cons_iff, ih hlength, Bytes.toNatBE_cons, Bytes.toNatBE_cons,
        UInt8.lt_iff_toNat_lt, ← UInt8.toNat_inj]
      rw [hlength] at ha ⊢
      -- the first bytes decide, because what follows them is below one unit of them
      rcases Nat.lt_trichotomy x.toNat y.toNat with hlt | heq | hgt
      · have hstep : 256 ^ b.length * (x.toNat + 1) ≤ 256 ^ b.length * y.toNat :=
          Nat.mul_le_mul_left _ hlt
        rw [Nat.mul_add, Nat.mul_one] at hstep
        exact iff_of_true (.inl hlt) (by omega)
      · rw [heq]
        simp
      · have hstep : 256 ^ b.length * (y.toNat + 1) ≤ 256 ^ b.length * x.toNat :=
          Nat.mul_le_mul_left _ hgt
        rw [Nat.mul_add, Nat.mul_one] at hstep
        exact iff_of_false (by omega) (by omega)

theorem isZeroBytes_iff : isZeroBytes b = true ↔ Bytes.toNatBE b = 0 := by
  induction b with
  | nil => exact iff_of_true rfl rfl
  | cons x b ih =>
    have hpow : 0 < 256 ^ b.length := Nat.pow_pos (by decide)
    rw [isZeroBytes, List.all_cons, Bool.and_eq_true, beq_iff_eq, Bytes.toNatBE_cons,
      Nat.add_eq_zero_iff, Nat.mul_eq_zero, ← UInt8.toNat_inj]
    rw [isZeroBytes] at ih
    rw [ih]
    constructor
    · rintro ⟨hx, hb⟩
      exact ⟨hb, .inr hx⟩
    · rintro ⟨hb, hx⟩
      exact ⟨hx.resolve_left (Nat.ne_of_gt hpow), hb⟩

/-! ## The difference -/

/-- The bytes from index `count` on are the difference of the ends of two numbers, if what has been
borrowed is paid. -/
structure Borrowing (minuend subtrahend result : Bytes) (count : Nat) (borrow : Int) : Prop where
  within : count ≤ result.length
  first : minuend.length = result.length
  second : subtrahend.length = result.length
  unit : borrow = 0 ∨ borrow = 1
  value : (Bytes.toNatBE (result.drop count) : Int) + Bytes.toNatBE (subtrahend.drop count) =
    Bytes.toNatBE (minuend.drop count) + borrow * 256 ^ (result.length - count)

variable {result : Bytes} {count i : Nat} {borrow borrow' : Int} {x y d : UInt8}

theorem toNatBE_drop (h : b[i]? = some x) :
    Bytes.toNatBE (b.drop i) =
      Bytes.toNatBE (b.drop (i + 1)) + 256 ^ (b.length - (i + 1)) * x.toNat := by
  obtain ⟨hi, hx⟩ := List.getElem?_eq_some_iff.mp h
  rw [List.drop_eq_getElem_cons hi, hx, Bytes.toNatBE_cons, List.length_drop]

/-- **One more byte of the difference**: the two bytes, less what was borrowed for the bytes after
them, more what is borrowed now. -/
theorem Borrowing.next (h : Borrowing minuend subtrahend result (i + 1) borrow)
    (hx : minuend[i]? = some x) (hy : subtrahend[i]? = some y)
    (hunit : borrow' = 0 ∨ borrow' = 1)
    (hd : (d.toNat : Int) = x.toNat - y.toNat - borrow + 256 * borrow') :
    Borrowing minuend subtrahend (result.set i d) i borrow' := by
  have hi : i < result.length := h.within
  have hset : (result.set i d)[i]? = some d := by
    rw [List.getElem?_set_self hi]
  have hrest : (result.set i d).drop (i + 1) = result.drop (i + 1) :=
    List.drop_set_of_lt (Nat.lt_succ_self i)
  have hlength : (result.set i d).length = result.length := List.length_set
  have hwidth : result.length - i = (result.length - (i + 1)) + 1 := by omega
  have hvalue := h.value
  refine ⟨by omega, by rw [hlength, h.first], by rw [hlength, h.second], hunit, ?_⟩
  rw [toNatBE_drop hset, toNatBE_drop hx, toNatBE_drop hy, hrest, hlength, h.first, h.second,
    hwidth, pow_succ]
  push_cast
  rw [hd]
  linear_combination hvalue

theorem toNat_ofInt {n : Int} (hlow : 0 ≤ n) (hhigh : n < 256) :
    ((UInt8.ofInt n).toNat : Int) = n := by
  have hmod : n % 2 ^ 8 = n := Int.emod_eq_of_lt hlow hhigh
  rw [UInt8.ofInt, hmod, UInt8.toNat_ofNat']
  omega

/-- What the loop over the remaining bytes does. -/
theorem subtractBytes_eq (ε : Type) (h : Borrowing minuend subtrahend result count borrow) :
    ∃ out left, (subtractBytes minuend subtrahend count result borrow : Checked ε Bytes) = .ok out ∧
      Borrowing minuend subtrahend out 0 left := by
  induction count generalizing result borrow with
  | zero => exact ⟨result, borrow, rfl, h⟩
  | succ i ih =>
    have hi : i < result.length := h.within
    obtain ⟨x, hx⟩ : ∃ x, minuend[i]? = some x :=
      ⟨_, List.getElem?_eq_getElem (h.first ▸ hi)⟩
    obtain ⟨y, hy⟩ : ∃ y, subtrahend[i]? = some y :=
      ⟨_, List.getElem?_eq_getElem (h.second ▸ hi)⟩
    have hxlt : x.toNat < 256 := x.toNat_lt
    have hylt : y.toNat < 256 := y.toNat_lt
    have hunit := h.unit
    rw [subtractBytes, index_of_getElem? hx, ok_bind, index_of_getElem? hy, ok_bind,
      short_of_bounds (by omega) (by omega), ok_bind, short_of_bounds (by omega) (by omega),
      ok_bind]
    split
    · next hneg =>
      rw [short_of_bounds (by omega) (by omega), ok_bind, store_of_lt hi, ok_bind]
      exact ih (h.next hx hy (.inr rfl) (by rw [toNat_ofInt (by omega) (by omega)]; ring))
    · next hnonneg =>
      rw [store_of_lt hi, ok_bind]
      exact ih (h.next hx hy (.inl rfl) (by rw [toNat_ofInt (by omega) (by omega)]; ring))

/-- A difference that is not negative leaves nothing to be paid. -/
theorem Borrowing.toNatBE_eq (h : Borrowing minuend subtrahend result 0 borrow)
    (hle : Bytes.toNatBE subtrahend ≤ Bytes.toNatBE minuend) :
    Bytes.toNatBE result = Bytes.toNatBE minuend - Bytes.toNatBE subtrahend := by
  have hlt : (Bytes.toNatBE result : Int) < 256 ^ result.length := by
    exact_mod_cast Bytes.toNatBE_lt result
  have hvalue := h.value
  simp only [List.drop_zero, Nat.sub_zero] at hvalue
  rcases h.unit with rfl | rfl
  · omega
  · rw [one_mul] at hvalue
    omega

@[simp] theorem toNatBE_orderBytes : Bytes.toNatBE orderBytes = order := by decide +kernel

@[simp] theorem toNatBE_halfOrderBytes : Bytes.toNatBE halfOrderBytes = halfOrder := by
  decide +kernel

/-- **The loop computes the order less a number** that is not above it. -/
theorem subtractFromOrder_eq (hlength : b.length = 32) (hle : Bytes.toNatBE b ≤ order) :
    (subtractFromOrder b : Checked ε Bytes) =
      .ok (Bytes.ofNatBE 32 (order - Bytes.toNatBE b)) := by
  have hstart : Borrowing orderBytes b (List.replicate 32 0) 32 0 := by
    refine ⟨Nat.le_refl _, rfl, by rw [hlength]; rfl, .inl rfl, ?_⟩
    rw [List.drop_of_length_le (by decide), List.drop_of_length_le (Nat.le_of_eq hlength),
      List.drop_of_length_le (by decide)]
    simp [Bytes.toNatBE, Bytes.toNatLE]
  obtain ⟨out, left, hout, hdone⟩ := subtractBytes_eq ε hstart
  have hvalue := hdone.toNatBE_eq (by rwa [toNatBE_orderBytes])
  have hcount : out.length = 32 := hdone.first.symm
  have hbytes := Bytes.ofNatBE_toNatBE out
  rw [subtractFromOrder, hout, ← hbytes, hcount, hvalue, toNatBE_orderBytes]

/-! ## On the numbers -/

variable {sig : Signature}

@[simp] theorem length_scalarBytes (n : BitVec 256) : (Signature.scalarBytes n).length = 32 :=
  Bytes.length_ofNatBE 32 _

@[simp] theorem toNatBE_scalarBytes (n : BitVec 256) :
    Bytes.toNatBE (Signature.scalarBytes n) = n.toNat :=
  Bytes.toNatBE_ofNatBE n.isLt

theorem scalarBytes_lt_orderBytes_iff (n : BitVec 256) :
    Signature.scalarBytes n < orderBytes ↔ n.toNat < order := by
  have hlength : (Signature.scalarBytes n).length = orderBytes.length := length_scalarBytes n
  rw [lt_iff_toNatBE_lt hlength, toNatBE_scalarBytes, toNatBE_orderBytes]

theorem halfOrderBytes_lt_scalarBytes_iff (n : BitVec 256) :
    halfOrderBytes < Signature.scalarBytes n ↔ halfOrder < n.toNat := by
  have hlength : halfOrderBytes.length = (Signature.scalarBytes n).length :=
    (length_scalarBytes n).symm
  rw [lt_iff_toNatBE_lt hlength, toNatBE_scalarBytes, toNatBE_halfOrderBytes]

/-- **Passing to the canonical twin on the bytes** is passing to it on the numbers. -/
theorem canonicalBytes_eq (sig : Signature) :
    (canonicalBytes (Signature.scalarBytes sig.r) (Signature.scalarBytes sig.s) :
        Checked ε (Bytes × Bytes)) =
      .ok (Signature.scalarBytes sig.toCanonical.r, Signature.scalarBytes sig.toCanonical.s) := by
  simp only [canonicalBytes, Signature.toCanonical, halfOrderBytes_lt_scalarBytes_iff,
    scalarBytes_lt_orderBytes_iff, Signature.hasHighS, decide_eq_true_iff]
  split
  · next h =>
    rw [subtractFromOrder_eq (length_scalarBytes _) (by rw [toNatBE_scalarBytes]; omega), ok_bind,
      toNatBE_scalarBytes]
    rw [Signature.scalarBytes, Signature.scalarBytes, Signature.toNat_twin]
    rfl
  · rfl

/-- **Asking for the canonical form on the bytes** is asking for it on the numbers. -/
theorem isCanonicalBytes_eq (sig : Signature) :
    isCanonicalBytes (Signature.scalarBytes sig.r) (Signature.scalarBytes sig.s) =
      sig.isCanonical := by
  rw [Bool.eq_iff_iff, Signature.isCanonical_iff, Signature.InRange, Signature.hasHighS]
  simp only [isCanonicalBytes, Bool.and_eq_true, Bool.not_eq_true', decide_eq_true_eq,
    scalarBytes_lt_orderBytes_iff, halfOrderBytes_lt_scalarBytes_iff,
    ← Bool.not_eq_true, isZeroBytes_iff, toNatBE_scalarBytes, Nat.pos_iff_ne_zero]
  tauto

end CoinScript.Checked
