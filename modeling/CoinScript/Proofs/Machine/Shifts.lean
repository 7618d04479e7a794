import CoinScript.Proofs.Checked.Shift
import CoinScript.Proofs.Machine.Evaluation
import CoinScript.Proofs.Number.Length

/-!
# Shifts as arithmetic

The two shifts move an element as one string of bits and keep its length.  Read as a big-endian number,
a shift to the left by `n` bits multiplies by `2 ^ n` and drops what does not fit into the length, and
one to the right divides by `2 ^ n` and drops the remainder.

A shift is one by whole bytes and one by less than eight bits.  The second part is the one with an
argument: every byte of the result is put together from two bytes, and the equation for a string of
`k + 1` bytes comes from the one for `k` bytes and what is carried over the border.  To the left this is
`toNatBE_div_shift`: what `k` bytes carry out is seen from the first of them alone.  To the right the
byte before is an argument of the recursion, and counts as digits above the string.

The amount of a shift is an operand of any length, and is clamped to a word before the bits move.
Clamping shows in no result, unless the amount does not fit into a word and the element has as many bits
as that (`shiftLeft_clamp`, `shiftRight_clamp`).
-/

namespace CoinScript

namespace Bytes

variable {bits n : Nat} {b x : Bytes}

/-! ## Less than eight bits -/

/-- A byte made by shifts, as a number; the modulus stands as it does in the weights of the bytes. -/
theorem toNat_ofNat (n : Nat) : (UInt8.ofNat n).toNat = n % 256 := UInt8.toNat_ofNat'

/-- A part below one bit of the carry does not change what is carried over the border of a byte. -/
theorem add_mul_two_pow_div {t : Nat} (hbits : bits ≤ 8) (ht : t < 2 ^ bits) (y : Nat) :
    (t + y * 2 ^ bits) / 256 = y * 2 ^ bits / 256 := by
  have hbyte : 256 = 2 ^ bits * 2 ^ (8 - bits) := by
    rw [← Nat.pow_add, Nat.add_sub_cancel' hbits]
  have hpos : 0 < 2 ^ bits := Nat.two_pow_pos bits
  rw [hbyte, ← Nat.div_div_eq_div_mul, ← Nat.div_div_eq_div_mul, Nat.add_mul_div_right t y hpos,
    Nat.div_eq_of_lt ht, Nat.zero_add, Nat.mul_div_cancel y hpos]

/-- What a string carries out to the left is seen from its first byte. -/
theorem toNatBE_div_shift (hbits : bits ≤ 8) (b : Bytes) :
    toNatBE b * 2 ^ bits / 256 ^ b.length = (b.head?.getD 0).toNat * 2 ^ bits / 256 := by
  cases b with
  | nil => simp [toNatBE, toNatLE]
  | cons y b =>
    have hpos : 0 < 256 ^ b.length := Nat.pow_pos (by decide)
    have hbelow : toNatBE b * 2 ^ bits / 256 ^ b.length < 2 ^ bits :=
      Nat.div_lt_of_lt_mul (Nat.mul_lt_mul_of_pos_right (toNatBE_lt b) (Nat.two_pow_pos bits))
    have hsplit : (toNatBE b + 256 ^ b.length * y.toNat) * 2 ^ bits =
        toNatBE b * 2 ^ bits + y.toNat * 2 ^ bits * 256 ^ b.length := by
      ring
    rw [toNatBE_cons, List.length_cons, Nat.pow_succ, ← Nat.div_div_eq_div_mul, hsplit,
      Nat.add_mul_div_right _ _ hpos]
    exact add_mul_two_pow_div hbits hbelow y.toNat

/-- **A shift to the left by less than eight bits.** -/
theorem toNatBE_shiftLeftBits (hbits : bits ≤ 8) (b : Bytes) :
    toNatBE (shiftLeftBits bits b) = toNatBE b * 2 ^ bits % 256 ^ b.length := by
  induction b with
  | nil => simp [shiftLeftBits, toNatBE, toNatLE, Nat.mod_one]
  | cons y b ih =>
    have hpos : 0 < 256 ^ b.length := Nat.pow_pos (by decide)
    have hsplit : (toNatBE b + 256 ^ b.length * y.toNat) * 2 ^ bits =
        toNatBE b * 2 ^ bits + y.toNat * 2 ^ bits * 256 ^ b.length := by
      ring
    have hbyte : (256 * y.toNat + (b.head?.getD 0).toNat) <<< bits / 256 =
        toNatBE b * 2 ^ bits / 256 ^ b.length + y.toNat * 2 ^ bits := by
      have hmul : (256 * y.toNat + (b.head?.getD 0).toNat) * 2 ^ bits =
          (b.head?.getD 0).toNat * 2 ^ bits + y.toNat * 2 ^ bits * 256 := by
        ring
      rw [Nat.shiftLeft_eq, hmul, Nat.add_mul_div_right _ _ (by decide), toNatBE_div_shift hbits]
    rw [shiftLeftBits, toNatBE_cons, length_shiftLeftBits, toNat_ofNat, hbyte, ih, toNatBE_cons,
      List.length_cons, Nat.pow_succ, Nat.mod_mul, hsplit, Nat.add_mul_mod_self_right,
      Nat.add_mul_div_right _ _ hpos]

/-- **A shift to the right by less than eight bits**, with the byte before the string as digits above
it. -/
theorem toNatBE_shiftRightBits (hbits : bits ≤ 8) (before : UInt8) (b : Bytes) :
    toNatBE (shiftRightBits bits before b) =
      (before.toNat * 256 ^ b.length + toNatBE b) / 2 ^ bits % 256 ^ b.length := by
  induction b generalizing before with
  | nil => simp [shiftRightBits, toNatBE, toNatLE, Nat.mod_one]
  | cons y b ih =>
    have hpos : 0 < 256 ^ b.length := Nat.pow_pos (by decide)
    have hbits' : 2 ^ bits * 2 ^ (8 - bits) = 256 := by
      rw [← Nat.pow_add, Nat.add_sub_cancel' hbits]
    -- the digits above `y` are a multiple of what a string of this length counts up to
    have habove : before.toNat * (256 ^ b.length * 256) + (toNatBE b + 256 ^ b.length * y.toNat) =
        y.toNat * 256 ^ b.length + toNatBE b +
          2 ^ bits * (before.toNat * 2 ^ (8 - bits) * 256 ^ b.length) := by
      rw [← hbits']
      ring
    have hdigits : before.toNat * (256 ^ b.length * 256) + (toNatBE b + 256 ^ b.length * y.toNat) =
        toNatBE b + 256 ^ b.length * (256 * before.toNat + y.toNat) := by
      ring
    have hlow : (before.toNat * (256 ^ b.length * 256) +
        (toNatBE b + 256 ^ b.length * y.toNat)) / 2 ^ bits % 256 ^ b.length =
        (y.toNat * 256 ^ b.length + toNatBE b) / 2 ^ bits % 256 ^ b.length := by
      rw [habove, Nat.add_mul_div_left _ _ (Nat.two_pow_pos bits), Nat.add_mul_mod_self_right]
    have hhigh : (before.toNat * (256 ^ b.length * 256) +
        (toNatBE b + 256 ^ b.length * y.toNat)) / 2 ^ bits / 256 ^ b.length =
        (256 * before.toNat + y.toNat) / 2 ^ bits := by
      rw [hdigits, Nat.div_div_eq_div_mul, Nat.mul_comm (2 ^ bits), ← Nat.div_div_eq_div_mul,
        Nat.add_mul_div_left _ _ hpos, Nat.div_eq_of_lt (toNatBE_lt b), Nat.zero_add]
    rw [shiftRightBits, toNatBE_cons, length_shiftRightBits, toNat_ofNat, Nat.shiftRight_eq_div_pow,
      ih, toNatBE_cons, List.length_cons, Nat.pow_succ, Nat.mod_mul, hlow, hhigh]

/-! ## Any amount -/

/-- A string that is shifted by all its bits has none left. -/
theorem shiftLeft_of_le (h : 8 * b.length ≤ n) : shiftLeft b n = List.replicate b.length 0 := by
  have hwhole : min (n / 8) b.length = b.length := Nat.min_eq_right (by omega)
  simp only [shiftLeft, hwhole, List.drop_length]
  rfl

theorem shiftRight_of_le (h : 8 * b.length ≤ n) : shiftRight b n = List.replicate b.length 0 := by
  have hwhole : min (n / 8) b.length = b.length := Nat.min_eq_right (by omega)
  simp only [shiftRight, hwhole, Nat.sub_self, List.take_zero, shiftRightBits, List.append_nil]

/-- An amount in whole bytes and the bits that are left. -/
theorem two_pow_eq (n : Nat) : 2 ^ n = 2 ^ (n % 8) * 256 ^ (n / 8) := by
  rw [← pow_two_eight_mul, ← Nat.pow_add, Nat.mod_add_div]

/-- Everything is dropped. -/
theorem pow_length_dvd (h : 8 * b.length ≤ n) : 256 ^ b.length ∣ 2 ^ n := by
  rw [← pow_two_eight_mul]
  exact Nat.pow_dvd_pow 2 h

theorem toNatBE_replicate_zero (count : Nat) : toNatBE (List.replicate count 0) = 0 := by
  have h := toNatBE_replicate_append count []
  rwa [List.append_nil] at h

/-- **A shift to the left multiplies**, and drops what does not fit. -/
theorem toNatBE_shiftLeft (b : Bytes) (n : Nat) :
    toNatBE (shiftLeft b n) = toNatBE b * 2 ^ n % 256 ^ b.length := by
  rcases Nat.le_total (8 * b.length) n with hall | hpart
  · rw [shiftLeft_of_le hall, toNatBE_replicate_zero]
    exact (Nat.mod_eq_zero_of_dvd (Nat.dvd_mul_left_of_dvd (pow_length_dvd hall) _)).symm
  · have hwhole : n / 8 ≤ b.length := by omega
    have hrest : toNatBE b = toNatBE (b.drop (n / 8)) +
        256 ^ (b.length - n / 8) * toNatBE (b.take (n / 8)) := by
      conv => lhs; rw [← List.take_append_drop (n / 8) b, toNatBE_append, List.length_drop]
    have hlength : 256 ^ b.length = 256 ^ (b.length - n / 8) * 256 ^ (n / 8) := by
      rw [← Nat.pow_add, Nat.sub_add_cancel hwhole]
    -- the bytes in front are dropped, whatever they are
    have hfront : toNatBE b * 2 ^ (n % 8) % 256 ^ (b.length - n / 8) =
        toNatBE (b.drop (n / 8)) * 2 ^ (n % 8) % 256 ^ (b.length - n / 8) := by
      rw [hrest, Nat.add_mul, Nat.mul_assoc, Nat.add_mul_mod_self_left]
    unfold shiftLeft
    rw [Nat.min_eq_left hwhole, toNatBE_append, List.length_replicate, toNatBE_replicate_zero,
      Nat.zero_add, toNatBE_shiftLeftBits (Nat.le_of_lt (Nat.mod_lt n (by decide))),
      List.length_drop, two_pow_eq n, hlength, ← Nat.mul_assoc, Nat.mul_mod_mul_right, hfront,
      Nat.mul_comm]

/-- **A shift to the right divides**, and drops the remainder. -/
theorem toNatBE_shiftRight (b : Bytes) (n : Nat) :
    toNatBE (shiftRight b n) = toNatBE b / 2 ^ n := by
  rcases Nat.le_total (8 * b.length) n with hall | hpart
  · rw [shiftRight_of_le hall, toNatBE_replicate_zero]
    exact (Nat.div_eq_of_lt (Nat.lt_of_lt_of_le (toNatBE_lt b)
      (Nat.le_of_dvd (Nat.two_pow_pos n) (pow_length_dvd hall)))).symm
  · have hwhole : n / 8 ≤ b.length := by omega
    have hbytes : toNatBE b / 256 ^ (n / 8) = toNatBE (b.take (b.length - n / 8)) := by
      have hdrop : (b.drop (b.length - n / 8)).length = n / 8 := by
        rw [List.length_drop]
        omega
      have hlt := toNatBE_lt (b.drop (b.length - n / 8))
      conv => lhs; rw [← List.take_append_drop (b.length - n / 8) b, toNatBE_append]
      rw [hdrop] at hlt ⊢
      rw [Nat.add_mul_div_left _ _ (Nat.pow_pos (by decide)), Nat.div_eq_of_lt hlt, Nat.zero_add]
    have hsmall : toNatBE (b.take (b.length - n / 8)) / 2 ^ (n % 8) <
        256 ^ (b.take (b.length - n / 8)).length :=
      Nat.lt_of_le_of_lt (Nat.div_le_self _ _) (toNatBE_lt _)
    unfold shiftRight
    rw [Nat.min_eq_left hwhole, toNatBE_replicate_append,
      toNatBE_shiftRightBits (Nat.le_of_lt (Nat.mod_lt n (by decide))), UInt8.toNat_zero,
      Nat.zero_mul, Nat.zero_add, Nat.mod_eq_of_lt hsmall, two_pow_eq n,
      Nat.mul_comm (2 ^ (n % 8)), ← Nat.div_div_eq_div_mul, hbytes]

/-- What a shift to the left means for the numbers. -/
def IsShiftLeft (x : Bytes) (n : Nat) (y : Bytes) : Prop :=
  y.length = x.length ∧ toNatBE y = toNatBE x * 2 ^ n % 256 ^ x.length

/-- What a shift to the right means for the numbers. -/
def IsShiftRight (x : Bytes) (n : Nat) (y : Bytes) : Prop :=
  y.length = x.length ∧ toNatBE y = toNatBE x / 2 ^ n

theorem isShiftLeft_shiftLeft (x : Bytes) (n : Nat) : IsShiftLeft x n (shiftLeft x n) :=
  ⟨length_shiftLeft x n, toNatBE_shiftLeft x n⟩

theorem isShiftRight_shiftRight (x : Bytes) (n : Nat) : IsShiftRight x n (shiftRight x n) :=
  ⟨length_shiftRight x n, toNatBE_shiftRight x n⟩

/-! ## Amounts beyond a word -/

/-- An amount that fits into a word is kept, and one that does not is more than all bits of the string
before and after it is clamped. -/
theorem clamp_amount (h : n < 2 ^ 63 ∨ 8 * b.length < 2 ^ 63) :
    (Number.clamp 64 (n : Int)).toNat = n ∨
      8 * b.length ≤ (Number.clamp 64 (n : Int)).toNat ∧ 8 * b.length ≤ n := by
  rw [Number.toNat_clamp]
  omega

theorem shiftLeft_clamp (h : n < 2 ^ 63 ∨ 8 * b.length < 2 ^ 63) :
    shiftLeft b (Number.clamp 64 (n : Int)).toNat = shiftLeft b n := by
  rcases clamp_amount h with hsame | ⟨hclamped, hall⟩
  · rw [hsame]
  · rw [shiftLeft_of_le hclamped, shiftLeft_of_le hall]

theorem shiftRight_clamp (h : n < 2 ^ 63 ∨ 8 * b.length < 2 ^ 63) :
    shiftRight b (Number.clamp 64 (n : Int)).toNat = shiftRight b n := by
  rcases clamp_amount h with hsame | ⟨hclamped, hall⟩
  · rw [hsame]
  · rw [shiftRight_of_le hclamped, shiftRight_of_le hall]

end Bytes

namespace Run

variable {r : Rules} {m : Machine} {amount x : Bytes} {rest : Stack} {n : Int}

/-- A negative amount is refused before the element is taken. -/
theorem shift_of_neg (move : Bytes → Nat → Bytes) (hmain : m.main = amount :: rest)
    (hn : Number.decode r.numberFormat amount = .ok n) (hneg : n < 0) :
    shift r move m = .error (.negativeShift (Number.clamp 64 n)) { m with main := rest } := by
  unfold shift
  rw [bind_of_ok (popNumber_of_main hmain hn), decide_eq_false (Int.not_le.mpr hneg)]
  rfl

/-- Any other amount is clamped to a word. -/
theorem shift_of_nonneg (move : Bytes → Nat → Bytes) (hmain : m.main = amount :: x :: rest)
    (hn : Number.decode r.numberFormat amount = .ok n) (hnonneg : 0 ≤ n) :
    shift r move m = .ok () { m with main := move x (Number.clamp 64 n).toNat :: rest } := by
  unfold shift
  rw [bind_of_ok (popNumber_of_main hmain hn), require_bind_of_true (decide_eq_true hnonneg),
    bind_of_ok (pop_eq rfl)]
  rfl

/-- **The shifts are arithmetic on big-endian numbers.**  An amount that is negative is refused.  For
any other amount that is read as an operand, however large, both shifts replace the operands by an
element as long as the one that is shifted, `LSHIFT` by the one that stands for the product with the
power of two, as far as it fits, and `RSHIFT` by the one that stands for the quotient.  Clamping the
amount to a word does not change this, unless the amount is beyond a word and the element has more than
`2 ^ 63 - 1` bits, and then the clamped amount is what counts.  The loops over the bytes of an array
compute the same elements. -/
theorem shifts_exact (r : Rules) (script : List Instruction) (offset : Nat) (m : Machine)
    (amount x : Bytes) (rest : Stack) (n : Int)
    (hn : Number.decode r.numberFormat amount = .ok n) :
    let start : Machine := { m with main := amount :: x :: rest }
    let left := perform r script offset true ⟨0x98, none⟩ start
    let right := perform r script offset true ⟨0x99, none⟩ start
    let clamped := min n.toNat (2 ^ 63 - 1)
    (n < 0 →
      (∃ fault after, left = .error fault after ∧ fault.code = .numberTooSmall) ∧
      ∃ fault after, right = .error fault after ∧ fault.code = .numberTooSmall) ∧
    (0 ≤ n → ∃ y z,
      left = .ok () { m with main := y :: rest } ∧ right = .ok () { m with main := z :: rest } ∧
      (n.toNat < 2 ^ 63 ∨ 8 * x.length < 2 ^ 63 →
        (Bytes.IsShiftLeft x n.toNat y ∧ Bytes.IsShiftRight x n.toNat z) ∧
        y = Bytes.shiftLeft x n.toNat ∧ z = Bytes.shiftRight x n.toNat) ∧
      (Bytes.IsShiftLeft x clamped y ∧ Bytes.IsShiftRight x clamped z) ∧
      (x.length ≤ Checked.addressSpace →
        (Checked.shiftLeft x clamped : Checked Fault Bytes) = .ok y ∧
        (Checked.shiftRight x clamped : Checked Fault Bytes) = .ok z)) := by
  intro start left right clamped
  constructor
  · intro hneg
    have hleft := shift_of_neg (m := start) Bytes.shiftLeft rfl hn hneg
    have hright := shift_of_neg (m := start) Bytes.shiftRight rfl hn hneg
    exact ⟨⟨_, _, hleft, rfl⟩, ⟨_, _, hright, rfl⟩⟩
  · intro hnonneg
    obtain ⟨k, rfl⟩ := Int.eq_ofNat_of_zero_le hnonneg
    have hleft := shift_of_nonneg (m := start) Bytes.shiftLeft rfl hn hnonneg
    have hright := shift_of_nonneg (m := start) Bytes.shiftRight rfl hn hnonneg
    have hclamped : (Number.clamp 64 (k : Int)).toNat = clamped := Number.toNat_clamp k
    refine ⟨_, _, hleft, hright, fun hbits => ?_, ?_, fun hsize => ?_⟩
    · rw [Int.toNat_natCast] at hbits ⊢
      rw [Bytes.shiftLeft_clamp hbits, Bytes.shiftRight_clamp hbits]
      exact ⟨⟨Bytes.isShiftLeft_shiftLeft x k, Bytes.isShiftRight_shiftRight x k⟩, rfl, rfl⟩
    · rw [hclamped]
      exact ⟨Bytes.isShiftLeft_shiftLeft x clamped, Bytes.isShiftRight_shiftRight x clamped⟩
    · rw [hclamped]
      have hword : x.length < Checked.wordSize := Nat.lt_of_le_of_lt hsize (by decide)
      exact ⟨Checked.shiftLeft_eq hword clamped, Checked.shiftRight_eq x clamped⟩

/-- Four bytes are shifted by twelve bits both ways, and minus twelve is refused. -/
theorem shifts_by_twelve :
    let r : Rules := ⟨.consensus, .none, .secp256k1, none, 0⟩
    let start (amount : Bytes) : Machine :=
      { Machine.start with main := [amount, [0x9f, 0x11, 0xf5, 0x55]] }
    (∃ y z,
      perform r [] 0 true ⟨0x98, none⟩ (start [0x0c]) = .ok () { Machine.start with main := [y] } ∧
      perform r [] 0 true ⟨0x99, none⟩ (start [0x0c]) = .ok () { Machine.start with main := [z] } ∧
      y.length = 4 ∧ Bytes.toNatBE y = 0x1f555000 ∧ z.length = 4 ∧ Bytes.toNatBE z = 0x0009f11f) ∧
    ∃ fault after, perform r [] 0 true ⟨0x99, none⟩ (start [0x8c]) = .error fault after ∧
      fault.code = .numberTooSmall := by
  intro r start
  have htwelve : Number.decode r.numberFormat [0x0c] = .ok 12 := by decide +kernel
  have hminus : Number.decode r.numberFormat [0x8c] = .ok (-12) := by decide +kernel
  have hvalue : Bytes.toNatBE [0x9f, 0x11, 0xf5, 0x55] = 0x9f11f555 := by decide +kernel
  obtain ⟨-, hshifts⟩ :=
    shifts_exact r [] 0 .start [0x0c] [0x9f, 0x11, 0xf5, 0x55] [] 12 htwelve
  obtain ⟨hrefused, -⟩ :=
    shifts_exact r [] 0 .start [0x8c] [0x9f, 0x11, 0xf5, 0x55] [] (-12) hminus
  obtain ⟨y, z, hleft, hright, hexact, -, -⟩ := hshifts (by decide)
  obtain ⟨⟨⟨hylength, hy⟩, hzlength, hz⟩, -, -⟩ := hexact (.inl (by decide))
  rw [hvalue] at hy hz
  exact ⟨⟨y, z, hleft, hright, hylength, hy, hzlength, hz⟩, (hrefused (by decide)).2⟩

end Run

end CoinScript
