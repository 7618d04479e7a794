import CoinScript.Bytes.Bits
import CoinScript.Proofs.Checked.Position

/-!
# Shifts on arrays

A shift by `n` bits is one by `n / 8` bytes and `n % 8` bits.  The bytes of the result are stored one
by one; each is put together from a byte and the part of its neighbour that moves into it.  How far a
byte is moved is below eight bits both times: the neighbour is only looked at if `n % 8` is not zero,
and then `8 - n % 8` is not eight.

Both loops compute the shift of the program (`shiftLeft_eq`, `shiftRight_eq`).  Their invariant is that
the bytes before the index are done, and that the others are still zero.
-/

namespace CoinScript.Checked

variable {ε : Type} {x rest : Bytes} {bits i k byteShift count zeros : Nat} {b before : UInt8}

/-! ## The computations -/

/-- A byte moved to the left, with what moves into it from the next one. -/
def leftByte (x : Bytes) (i bits : Nat) : Checked ε UInt8 := do
  let v ← shiftByteUp (← index x i) bits
  if 0 < bits then
    match x[← add i 1]? with
    | some next => return v ||| (← shiftByteDown next (← sub 8 bits))
    | none => return v
  else return v

/-- Stores the bytes from index `k` on, as long as they come from inside the byte string. -/
def shiftLeftFrom (x : Bytes) (byteShift bits : Nat) :
    (count k : Nat) → (result : Bytes) → Checked ε Bytes
  | 0, _, result => return result
  | count + 1, k, result =>
    if wordSize ≤ k + byteShift ∨ x.length ≤ k + byteShift then return result
    else do
      let v ← leftByte x (k + byteShift) bits
      shiftLeftFrom x byteShift bits count (k + 1) (← store result k v)

/-- The bit string shifted to the left. -/
def shiftLeft (x : Bytes) (n : Nat) : Checked ε Bytes :=
  shiftLeftFrom x (n / 8) (n % 8) x.length 0 (List.replicate x.length 0)

/-- A byte moved to the right, with what moves into it from the one before. -/
def rightByte (x : Bytes) (i bits : Nat) : Checked ε UInt8 := do
  let v ← shiftByteDown (← index x i) bits
  if 0 < bits ∧ 0 < i then
    return v ||| (← shiftByteUp (← index x (← sub i 1)) (← sub 8 bits))
  else return v

/-- Stores the bytes from index `k` on. -/
def shiftRightFrom (x : Bytes) (byteShift bits : Nat) :
    (count k : Nat) → (result : Bytes) → Checked ε Bytes
  | 0, _, result => return result
  | count + 1, k, result => do
    let v ← rightByte x (← sub k byteShift) bits
    shiftRightFrom x byteShift bits count (k + 1) (← store result k v)

/-- The bit string shifted to the right. -/
def shiftRight (x : Bytes) (n : Nat) : Checked ε Bytes :=
  let first := min (n / 8) x.length
  shiftRightFrom x (n / 8) (n % 8) (x.length - first) first (List.replicate x.length 0)

/-! ## One byte -/

theorem toNat_ofNat_of_lt (h : bits < 8) : (UInt8.ofNat bits).toNat % 8 = bits := by
  rw [UInt8.toNat_ofNat']
  omega

/-- What is above and what is below in two bytes next to each other. -/
theorem append_eq_or (above below : UInt8) :
    256 * above.toNat + below.toNat = above.toNat <<< 8 ||| below.toNat := by
  have hbelow : below.toNat < 2 ^ 8 := below.toNat_lt
  rw [← Nat.shiftLeft_add_eq_or_of_lt hbelow, Nat.shiftLeft_eq]
  omega

theorem testBit_toNat (b : UInt8) (h : 8 ≤ i) : b.toNat.testBit i = false :=
  Nat.testBit_lt_two_pow (Nat.lt_of_lt_of_le b.toNat_lt (Nat.pow_le_pow_right (by decide) h))

theorem up_or_down (h : 0 < bits) (hbits : bits < 8) (b next : UInt8) :
    (b <<< UInt8.ofNat bits) ||| (next >>> UInt8.ofNat (8 - bits)) =
      UInt8.ofNat ((256 * b.toNat + next.toNat) <<< bits / 256) := by
  have hdiv (n : Nat) : n / 256 = n >>> 8 := (Nat.shiftRight_eq_div_pow n 8).symm
  rw [← UInt8.toNat_inj, UInt8.toNat_or, UInt8.toNat_shiftLeft, UInt8.toNat_shiftRight,
    toNat_ofNat_of_lt hbits, toNat_ofNat_of_lt (by omega), UInt8.toNat_ofNat', append_eq_or, hdiv]
  refine Nat.eq_of_testBit_eq fun i => ?_
  simp only [Nat.testBit_or, Nat.testBit_mod_two_pow, Nat.testBit_shiftLeft, Nat.testBit_shiftRight]
  by_cases hi : i < 8
  · have hplace : 8 + i - bits - 8 = i - bits := by omega
    have hbelow : 8 - bits + i = 8 + i - bits := by omega
    by_cases hle : bits ≤ i
    · simp [hi, hle, hplace, hbelow, show bits ≤ 8 + i by omega, show 8 ≤ 8 + i - bits by omega]
    · simp [hi, hle, hplace, hbelow, show bits ≤ 8 + i by omega, show ¬8 ≤ 8 + i - bits by omega]
  · simp [hi, testBit_toNat next (i := 8 - bits + i) (by omega)]

theorem down_or_up (h : 0 < bits) (hbits : bits < 8) (before b : UInt8) :
    (b >>> UInt8.ofNat bits) ||| (before <<< UInt8.ofNat (8 - bits)) =
      UInt8.ofNat ((256 * before.toNat + b.toNat) >>> bits) := by
  rw [← UInt8.toNat_inj, UInt8.toNat_or, UInt8.toNat_shiftLeft, UInt8.toNat_shiftRight,
    toNat_ofNat_of_lt hbits, toNat_ofNat_of_lt (by omega), UInt8.toNat_ofNat', append_eq_or]
  refine Nat.eq_of_testBit_eq fun i => ?_
  simp only [Nat.testBit_or, Nat.testBit_mod_two_pow, Nat.testBit_shiftLeft, Nat.testBit_shiftRight]
  by_cases hi : i < 8
  · have hplace : bits + i - 8 = i - (8 - bits) := by omega
    by_cases hle : 8 - bits ≤ i
    · simp [hi, hle, hplace, show 8 ≤ bits + i by omega, Bool.or_comm]
    · simp [hi, hle, hplace, show ¬8 ≤ bits + i by omega]
  · simp [hi, testBit_toNat b (i := bits + i) (by omega)]

theorem up_zero (b next : UInt8) :
    b <<< UInt8.ofNat 0 = UInt8.ofNat ((256 * b.toNat + next.toNat) <<< 0 / 256) := by
  have hnext : next.toNat < 256 := next.toNat_lt
  have hb : (256 * b.toNat + next.toNat) / 256 = b.toNat := by omega
  rw [Nat.shiftLeft_zero, hb, UInt8.ofNat_toNat]
  exact UInt8.shiftLeft_zero

theorem down_zero (before b : UInt8) :
    b >>> UInt8.ofNat 0 = UInt8.ofNat ((256 * before.toNat + b.toNat) >>> 0) := by
  rw [Nat.shiftRight_zero, ← UInt8.toNat_inj, UInt8.toNat_ofNat']
  have hb : b.toNat < 256 := b.toNat_lt
  have hmod : (256 * before.toNat + b.toNat) % 2 ^ 8 = b.toNat := by omega
  rw [hmod]
  exact congrArg UInt8.toNat UInt8.shiftRight_zero

theorem leftByte_eq (h : At x i (b :: rest)) (hbits : bits < 8) (hword : x.length < wordSize) :
    (leftByte x i bits : Checked ε UInt8) =
      .ok (UInt8.ofNat ((256 * b.toNat + (rest.head?.getD 0).toNat) <<< bits / 256)) := by
  rw [leftByte, h.index_head, ok_bind, shiftByteUp_of_lt hbits, ok_bind]
  split
  · next hpos =>
    have hnext : (add i 1 : Checked ε Nat) = .ok (i + 1) :=
      h.add (by rw [List.length_cons]; omega) hword
    have hget : x[i + 1]? = rest.head? := by
      rw [h.getElem? 1, List.getElem?_cons_succ, List.head?_eq_getElem?]
    rw [hnext, ok_bind, hget]
    cases rest with
    | nil =>
      have hbyte := up_or_down hpos hbits b 0
      rw [UInt8.zero_shiftRight, UInt8.or_zero] at hbyte
      exact congrArg Except.ok hbyte
    | cons next rest =>
      dsimp only [List.head?_cons, Option.getD_some]
      rw [sub_of_le (Nat.le_of_lt hbits), ok_bind, shiftByteDown_of_lt (by omega), ok_bind,
        ← up_or_down hpos hbits]
      rfl
  · next hzero =>
    obtain rfl : bits = 0 := Nat.eq_zero_of_not_pos hzero
    exact congrArg Except.ok (up_zero b _)

/-- The byte before an index, zero if there is none. -/
def Before (x : Bytes) (i : Nat) (before : UInt8) : Prop :=
  if i = 0 then before = 0 else x[i - 1]? = some before

theorem Before.zero (x : Bytes) : Before x 0 0 := by
  rw [Before, if_pos rfl]

theorem Before.next (h : At x i (b :: rest)) : Before x (i + 1) b := by
  rw [Before, if_neg (Nat.succ_ne_zero i)]
  exact h.getElem?_head

theorem rightByte_eq (h : At x i (b :: rest)) (hbefore : Before x i before) (hbits : bits < 8) :
    (rightByte x i bits : Checked ε UInt8) =
      .ok (UInt8.ofNat ((256 * before.toNat + b.toNat) >>> bits)) := by
  rw [rightByte, h.index_head, ok_bind, shiftByteDown_of_lt hbits, ok_bind]
  rw [Before] at hbefore
  rcases Nat.eq_zero_or_pos bits with rfl | hpos
  · rw [if_neg (fun hboth => absurd hboth.1 (Nat.lt_irrefl 0))]
    exact congrArg Except.ok (down_zero before b)
  rw [← down_or_up hpos hbits]
  rcases Nat.eq_zero_or_pos i with rfl | hi
  · rw [if_pos rfl] at hbefore
    rw [if_neg (fun hboth => absurd hboth.2 (Nat.lt_irrefl 0)), hbefore, UInt8.zero_shiftLeft,
      UInt8.or_zero]
    rfl
  · rw [if_neg (Nat.ne_of_gt hi)] at hbefore
    rw [if_pos ⟨hpos, hi⟩, sub_of_le hi, ok_bind, index_of_getElem? hbefore, ok_bind,
      sub_of_le (Nat.le_of_lt hbits), ok_bind, shiftByteUp_of_lt (by omega)]
    rfl

/-! ## The loops -/

/-- Storing into the first of the bytes that are still zero. -/
theorem store_next (done : Bytes) (zeros : Nat) (v : UInt8) :
    (store (done ++ List.replicate (zeros + 1) 0) done.length v : Checked ε Bytes) =
      .ok (done ++ [v] ++ List.replicate zeros 0) := by
  rw [store_of_lt (by simp), List.set_append_right _ _ (Nat.le_refl _), Nat.sub_self,
    List.replicate_succ, List.set_cons_zero, List.append_assoc]
  rfl

theorem shiftLeftFrom_eq (done : Bytes) (h : At x (k + byteShift) rest) (hdone : done.length = k)
    (hbits : bits < 8) (hword : x.length < wordSize) (hzeros : rest.length ≤ zeros)
    (hcount : rest.length ≤ count) :
    (shiftLeftFrom x byteShift bits count k (done ++ List.replicate zeros 0) : Checked ε Bytes) =
      .ok (done ++ Bytes.shiftLeftBits bits rest ++ List.replicate (zeros - rest.length) 0) := by
  induction rest generalizing k done zeros count with
  | nil =>
    have hend : x.length ≤ k + byteShift := Nat.le_of_eq (h.eq_length_iff.mpr rfl).symm
    rw [Bytes.shiftLeftBits, List.append_nil, List.length_nil, Nat.sub_zero]
    cases count with
    | zero => rfl
    | succ count =>
      rw [shiftLeftFrom, if_pos (.inr hend)]
      rfl
  | cons b rest ih =>
    have hlength := h.add_length
    rw [List.length_cons] at hlength hzeros hcount
    obtain ⟨count, rfl⟩ : ∃ n, count = n + 1 := ⟨count - 1, by omega⟩
    obtain ⟨zeros, rfl⟩ : ∃ n, zeros = n + 1 := ⟨zeros - 1, by omega⟩
    have hinside : ¬(wordSize ≤ k + byteShift ∨ x.length ≤ k + byteShift) := by omega
    have hnext : At x (k + 1 + byteShift) rest := by
      rw [Nat.add_right_comm]
      exact h.tail
    subst hdone
    rw [shiftLeftFrom, if_neg hinside, leftByte_eq h hbits hword, ok_bind, store_next, ok_bind,
      ih _ hnext (by simp) (by omega) (by omega), Bytes.shiftLeftBits, List.length_cons,
      Nat.add_sub_add_right, List.append_assoc done]
    rfl

theorem shiftRightFrom_eq (done : Bytes) (h : At x i rest) (hbefore : Before x i before)
    (hk : k = i + byteShift) (hdone : done.length = k) (hbits : bits < 8) (hcount : count ≤ rest.length) :
    (shiftRightFrom x byteShift bits count k (done ++ List.replicate count 0) : Checked ε Bytes) =
      .ok (done ++ Bytes.shiftRightBits bits before (rest.take count)) := by
  induction count generalizing i k before done rest with
  | zero => rfl
  | succ count ih =>
    obtain ⟨b, rest, rfl⟩ : ∃ b r, rest = b :: r :=
      List.exists_cons_of_length_pos (Nat.lt_of_lt_of_le (Nat.succ_pos _) hcount)
    have hi : k - byteShift = i := by omega
    have hrest : count ≤ rest.length := Nat.le_of_succ_le_succ hcount
    subst hdone
    rw [shiftRightFrom, sub_of_le (by omega), ok_bind, hi, rightByte_eq h hbefore hbits, ok_bind,
      store_next, ok_bind, ih _ h.tail (.next h) (by omega) (by simp) hrest, List.take_succ_cons,
      Bytes.shiftRightBits, List.append_assoc]
    rfl

theorem shiftLeft_eq (hword : x.length < wordSize) (n : Nat) :
    (shiftLeft x n : Checked ε Bytes) = .ok (Bytes.shiftLeft x n) := by
  rw [shiftLeft, Bytes.shiftLeft]
  by_cases hle : n / 8 ≤ x.length
  · have hplace : At x (0 + n / 8) (x.drop (n / 8)) := (At.zero x).skip hle
    have hlength : (x.drop (n / 8)).length ≤ x.length := hplace.length_eq ▸ Nat.sub_le ..
    have hzeros : x.length - (x.drop (n / 8)).length = n / 8 := by
      rw [List.length_drop]
      omega
    have hloop := shiftLeftFrom_eq (ε := ε) [] hplace rfl (Nat.mod_lt n (by decide)) hword hlength
      hlength
    rw [List.nil_append, List.nil_append, hzeros] at hloop
    rw [hloop, Nat.min_eq_left hle]
  · have hle : x.length ≤ n / 8 := Nat.le_of_not_le hle
    rw [Nat.min_eq_right hle, List.drop_length]
    -- all bits leave
    cases hx : x.length with
    | zero => rfl
    | succ length =>
      rw [shiftLeftFrom, if_pos (.inr (by omega))]
      rfl

theorem shiftRight_eq (x : Bytes) (n : Nat) :
    (shiftRight x n : Checked ε Bytes) = .ok (Bytes.shiftRight x n) := by
  rw [shiftRight, Bytes.shiftRight]
  by_cases hle : n / 8 ≤ x.length
  · have hzeros : List.replicate x.length (0 : UInt8) =
        List.replicate (n / 8) 0 ++ List.replicate (x.length - n / 8) 0 := by
      rw [← List.replicate_add, Nat.add_sub_cancel' hle]
    rw [Nat.min_eq_left hle, hzeros]
    exact shiftRightFrom_eq _ (At.zero x) (.zero x) (Nat.zero_add _).symm (by simp)
      (Nat.mod_lt n (by decide)) (Nat.sub_le ..)
  · rw [Nat.min_eq_right (Nat.le_of_not_le hle), Nat.sub_self]
    simp [shiftRightFrom, Bytes.shiftRightBits, pure, Except.pure]

end CoinScript.Checked
