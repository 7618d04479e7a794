import CoinScript.Proofs.Checked.Position
import CoinScript.Proofs.Number.ShortestForm
import Mathlib.Data.List.Induction

/-!
# Numbers on arrays

Reading, writing and shortening numbers and truth values, with the bytes taken by their index.  The
indices count from the end of the byte string, so each of these has to know that it is not empty.
Shortening looks for the last significant byte from the end on, and stops at the first byte.

Each of them does what the program does, for every byte string and every number.
-/

namespace CoinScript.Checked

variable {ε : Type} {b rest : Bytes} {i : Nat} {last : UInt8}

/-! ## The computations -/

/-- Reads an operand. -/
def decode (format : Number.Format) (b : Bytes) : Checked NumberError Int :=
  if format.maxLength < b.length then refuse (.tooLong b format.maxLength)
  else if format.minimal && Number.isPadded b then refuse (.notMinimal b)
  else
    match b.getLast? with
    | none => return 0
    | some last => do
      let top ← sub b.length 1
      let magnitude ← store b top ((← index b top) &&& 0x7f)
      let n : Int := Bytes.toNatLE magnitude
      return if last &&& 0x80 = 0 then n else -n

/-- The shortest form of a number. -/
def encode (n : Int) : Checked ε Bytes :=
  if n = 0 then return []
  else do
    let digits := Bytes.digitsLE n.natAbs
    let top ← sub digits.length 1
    if (← index digits top) &&& 0x80 ≠ 0 then return digits ++ [if n < 0 then 0x80 else 0x00]
    else if n < 0 then
      let top ← sub digits.length 1
      store digits top ((← index digits top) ||| 0x80)
    else return digits

/-- Looks for the last byte below index `i` that is not zero, and puts the sign on it or behind it. -/
def shorten (data : Bytes) (last : UInt8) : (i : Nat) → Checked ε Bytes
  | 0 => return []
  | i + 1 => do
    let below ← sub (i + 1) 1
    let x ← index data below
    if x = 0 then shorten data last i
    else if x &&& 0x80 ≠ 0 then return (← store data (i + 1) last).take (i + 2)
    else return (← store data below (x ||| last)).take (i + 1)

/-- The shortest form of the number that a byte string stands for. -/
def minimize (data : Bytes) : Checked ε Bytes :=
  if data = [] then return []
  else do
    let last ← index data (← sub data.length 1)
    if last &&& 0x7f ≠ 0 then return data
    else if data.length = 1 then return []
    else if (← index data (← sub data.length 2)) &&& 0x80 ≠ 0 then return data
    else shorten data last (← sub data.length 1)

/-- The truth value of an element, of which the first `i` bytes are zero. -/
def truthFrom (b : Bytes) : (i : Nat) → (rest : Bytes) → Checked ε Bool
  | _, [] => return false
  | i, x :: rest =>
    if x = 0 then truthFrom b (i + 1) rest
    else do
      let top ← sub b.length 1
      return !(decide (i = top) && decide (x = 0x80))

/-- The truth value of an element. -/
def truth (b : Bytes) : Checked ε Bool := truthFrom b 0 b

/-! ## They do what the program does -/

theorem and_eq_zero_of_lt (h : last < 0x80) : last &&& 0x80 = 0 := by
  rw [← UInt8.toNat_inj, CoinScript.Number.toNat_and_sign,
    Nat.div_eq_of_lt (CoinScript.Number.lt_sign_iff.mp h)]
  rfl

theorem and_ne_zero_of_le (h : 0x80 ≤ last) : last &&& 0x80 ≠ 0 := by
  have hle := CoinScript.Number.sign_le_iff.mp h
  intro hzero
  have hsign : 128 * (last.toNat / 128) = 0 := by
    rw [← CoinScript.Number.toNat_and_sign, hzero]
    rfl
  omega

theorem getElem?_concat (init : Bytes) (last : UInt8) :
    (init ++ [last])[(init ++ [last]).length - 1]? = some last := by
  rw [List.length_append, List.length_singleton, Nat.add_sub_cancel, List.getElem?_concat_length]

theorem index_concat (init : Bytes) (last : UInt8) :
    (index (init ++ [last]) ((init ++ [last]).length - 1) : Checked ε UInt8) = .ok last :=
  index_of_getElem? (getElem?_concat init last)

theorem store_concat (init : Bytes) (last x : UInt8) :
    (store (init ++ [last]) ((init ++ [last]).length - 1) x : Checked ε Bytes) =
      .ok (init ++ [x]) := by
  rw [store_of_lt (by simp), List.length_append, List.length_singleton, Nat.add_sub_cancel,
    List.set_append_right _ _ (Nat.le_refl _), Nat.sub_self, List.set_cons_zero]

theorem sub_length_concat (init : Bytes) (last : UInt8) :
    (sub (init ++ [last]).length 1 : Checked ε Nat) = .ok ((init ++ [last]).length - 1) :=
  sub_of_le (by simp)

theorem decode_agrees (format : Number.Format) (b : Bytes) :
    decode format b = ofExcept (Number.decode format b) := by
  unfold decode Number.decode
  split
  · rfl
  split
  · rfl
  rcases List.eq_nil_or_concat' b with rfl | ⟨init, last, rfl⟩
  · rfl
  · rw [List.getLast?_concat, Number.value_concat]
    dsimp only
    rw [sub_length_concat, ok_bind, index_concat, ok_bind, store_concat, ok_bind]
    by_cases hlast : last < 0x80
    · rw [if_pos (and_eq_zero_of_lt hlast), if_pos hlast]
      rfl
    · rw [if_neg (and_ne_zero_of_le (UInt8.not_lt.mp hlast)), if_neg hlast]
      rfl

theorem encode_eq (n : Int) : (encode n : Checked ε Bytes) = .ok (Number.encode n) := by
  unfold encode
  split
  · next hzero =>
    rw [hzero, Number.encode_zero]
    rfl
  next hne =>
  rcases List.eq_nil_or_concat' (Bytes.digitsLE n.natAbs) with hnil | ⟨init, last, hconcat⟩
  · have hdigits : Bytes.toNatLE (Bytes.digitsLE n.natAbs) = n.natAbs := Bytes.toNatLE_digitsLE _
    rw [hnil, Bytes.toNatLE] at hdigits
    exact absurd hdigits.symm (Int.natAbs_ne_zero.mpr hne)
  · rw [Number.encode_of_digits hconcat, hconcat]
    dsimp only
    rw [sub_length_concat, ok_bind, index_concat, ok_bind]
    by_cases hlast : last < 0x80
    · rw [if_neg (not_not.mpr (and_eq_zero_of_lt hlast)), if_neg (UInt8.not_le.mpr hlast)]
      split
      · rw [ok_bind, index_concat, ok_bind, store_concat]
      · rfl
    · have hle : 0x80 ≤ last := UInt8.not_lt.mp hlast
      rw [if_pos (and_ne_zero_of_le hle), if_pos hle]
      rfl

/-- A number in shortest form, where the digits are given from the last one down and `last` is the
byte with its sign. -/
def signedDigits (last : UInt8) (digits : Bytes) : Bytes :=
  match digits.dropWhile (· == 0) with
  | [] => []
  | top :: below =>
    if 0x80 ≤ top then (top :: below).reverse ++ [last] else below.reverse ++ [top ||| last]

theorem minimize_concat (init : Bytes) (last : UInt8) :
    Number.minimize (init ++ [last]) =
      if last &&& 0x7f ≠ 0 then init ++ [last] else signedDigits last init.reverse := by
  unfold Number.minimize
  simp only [List.getLast?_concat, List.dropLast_concat]
  rfl

theorem signedDigits_zero (last : UInt8) (digits : Bytes) :
    signedDigits last (0 :: digits) = signedDigits last digits := rfl

theorem signedDigits_cons {x : UInt8} (hx : x ≠ 0) (last : UInt8) (digits : Bytes) :
    signedDigits last (x :: digits) =
      if 0x80 ≤ x then (x :: digits).reverse ++ [last] else digits.reverse ++ [x ||| last] := by
  rw [signedDigits, List.dropWhile_cons, if_neg (by simpa using hx)]

/-- What the loop makes of the bytes below those it has passed. -/
theorem shorten_eq (low high : Bytes) (y last : UInt8) :
    (shorten (low ++ y :: high) last low.length : Checked ε Bytes) =
      .ok (signedDigits last low.reverse) := by
  induction low using List.reverseRecOn generalizing y high with
  | nil => rfl
  | append_singleton low x ih =>
    have hdata : low ++ [x] ++ y :: high = low ++ x :: y :: high := List.append_assoc ..
    have hget : (low ++ x :: y :: high)[low.length]? = some x := by simp
    have hlength : (low ++ [x]).length = low.length + 1 := by simp
    rw [hdata, hlength, shorten, sub_of_le (Nat.le_add_left 1 _), ok_bind, Nat.add_sub_cancel,
      index_of_getElem? hget, ok_bind, List.reverse_append, List.reverse_singleton,
      List.singleton_append]
    by_cases hzero : x = 0
    · rw [if_pos hzero, hzero, signedDigits_zero]
      exact ih (y :: high) 0
    rw [if_neg hzero, signedDigits_cons hzero]
    by_cases hx : x < 0x80
    · rw [if_neg (not_not.mpr (and_eq_zero_of_lt hx)), if_neg (UInt8.not_le.mpr hx),
        store_of_lt (by simp), ok_bind, List.reverse_reverse]
      simp [List.take_append, List.take_of_length_le]
      rfl
    · have hx : 0x80 ≤ x := UInt8.not_lt.mp hx
      rw [if_pos (and_ne_zero_of_le hx), if_pos hx, store_of_lt (by simp), ok_bind]
      simp [List.take_append, List.take_of_length_le]
      rfl

theorem minimize_eq (b : Bytes) : (minimize b : Checked ε Bytes) = .ok (Number.minimize b) := by
  rcases List.eq_nil_or_concat' b with rfl | ⟨init, last, rfl⟩
  · rfl
  rw [minimize, if_neg (by simp), sub_length_concat, ok_bind, index_concat, ok_bind,
    minimize_concat]
  split
  · rfl
  rcases List.eq_nil_or_concat' init with rfl | ⟨init, x, rfl⟩
  · rfl
  have hlength : (init ++ [x] ++ [last]).length = init.length + 2 := by simp
  have hget : (init ++ [x] ++ [last])[init.length]? = some x := by simp
  have hshorten := shorten_eq (ε := ε) (init ++ [x]) [] last last
  rw [hlength, if_neg (by omega), sub_of_le (Nat.le_add_left 2 _), ok_bind, Nat.add_sub_cancel,
    index_of_getElem? hget, ok_bind]
  by_cases hx : x < 0x80
  · rw [if_neg (not_not.mpr (and_eq_zero_of_lt hx)), ok_bind, ← hshorten]
    simp
  · have hx : 0x80 ≤ x := UInt8.not_lt.mp hx
    have hzero : x ≠ 0 := by
      rintro rfl
      exact absurd hx (by decide)
    rw [if_pos (and_ne_zero_of_le hx), List.reverse_append, List.reverse_singleton,
      List.singleton_append, signedDigits_cons hzero, if_pos hx, List.reverse_cons,
      List.reverse_reverse]
    rfl

/-! ## Truth values -/

/-- The bytes that are zero do not count, and of the others the first one decides. -/
theorem truthFrom_eq (h : At b i rest) : (truthFrom b i rest : Checked ε Bool) =
    .ok (Number.truth rest) := by
  induction rest generalizing i with
  | nil => rfl
  | cons x rest ih =>
    have hlength := h.add_length
    rw [List.length_cons] at hlength
    rw [truthFrom]
    by_cases hzero : x = 0
    · rw [if_pos hzero, ih h.tail, hzero]
      cases rest <;> rfl
    · have hbyte : (x == 0) = false := by simpa using hzero
      rw [if_neg hzero, sub_of_le (by omega), ok_bind]
      cases rest with
      | nil =>
        rw [List.length_nil] at hlength
        have hi : i = b.length - 1 := by omega
        simp [Number.truth, hi, hbyte, pure, Except.pure, bne]
        rfl
      | cons y rest =>
        rw [List.length_cons] at hlength
        have hi : i ≠ b.length - 1 := by omega
        simp [Number.truth, hi, hbyte, pure, Except.pure, bne]

theorem truth_eq (b : Bytes) : (truth b : Checked ε Bool) = .ok (Number.truth b) :=
  truthFrom_eq (At.zero b)

end CoinScript.Checked
