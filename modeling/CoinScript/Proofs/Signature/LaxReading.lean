import CoinScript.Proofs.Checked.Der
import CoinScript.Proofs.Signature.StrictReading

/-!
# What the lax reader accepts

`Der.Lax b r s` says what it means that `b` starts with the lax form of two integers with the bytes
`r` and `s`.  It is a grammar: a tag, a length that may say anything, two integers, each of them a
tag, the length of its bytes in one of two forms, and its bytes; whatever follows does not matter.

* `laxLength_eq_ok_iff`, `laxInteger_eq_ok_iff`, `laxBody_eq_ok_iff`: each part of the reader takes
  from the front of a byte string what the grammar says, and leaves what follows.
* `ofDerLax_eq_ok_iff`: so the whole reader reads exactly the byte strings of the grammar whose two
  values fit into 256 bits, and gives these values.

A strict form is a lax form (`Strict.lax`), so the lax reader reads everything that the strict one
does.
-/

namespace CoinScript

namespace Der

variable {b r s body rest : Bytes} {n : Nat}

/-- A length that says `n`: a byte below `0x80`, or a byte above it that counts the big-endian bytes
after it, of which no more than seven are left without the zeros in front. -/
inductive LaxLength (n : Nat) : Bytes → Prop
  | short (first : UInt8) (bound : first < 0x80) (value : first.toNat = n) : LaxLength n [first]
  | long (first : UInt8) (octets : Bytes) (counts : first.toNat = 0x80 + octets.length)
    (width : (octets.dropWhile (· == 0)).length ≤ 7) (value : Bytes.toNatBE octets = n) :
    LaxLength n (first :: octets)

/-- A length of either form, whatever it says. -/
inductive AnyLength : Bytes → Prop
  | short (first : UInt8) (bound : first < 0x80) : AnyLength [first]
  | long (first : UInt8) (octets : Bytes) (counts : first.toNat = 0x80 + octets.length) :
    AnyLength (first :: octets)

/-- The lax form of an integer with the given bytes. -/
def LaxInteger (body b : Bytes) : Prop :=
  ∃ length, LaxLength body.length length ∧ b = 0x02 :: (length ++ body)

/-- The byte string starts with the lax form of the integers with the given bytes. -/
def Lax (b r s : Bytes) : Prop :=
  ∃ length first second tail, AnyLength length ∧ LaxInteger r first ∧ LaxInteger s second ∧
    b = 0x30 :: (length ++ (first ++ (second ++ tail)))

/-! ## The parts of the reader -/

theorem highBit_eq_false_iff {x : UInt8} : highBit x = false ↔ x < 0x80 := by
  rw [highBit, decide_eq_false_iff_not, UInt8.not_le]

theorem le_toNat_of_highBit {x : UInt8} (h : ¬highBit x = false) : 0x80 ≤ x.toNat := by
  rw [highBit_eq_false_iff, UInt8.not_lt] at h
  exact UInt8.le_iff_toNat_le.mp h

theorem highBit_of_toNat {x : UInt8} (h : x.toNat = 0x80 + n) : ¬highBit x = false := by
  rw [highBit_eq_false_iff, UInt8.lt_iff_toNat_lt, h]
  exact Nat.not_lt.mpr (Nat.le_add_right _ _)

theorem laxLength_eq_ok_iff (which : Component) :
    laxLength which b = .ok (n, rest) ↔ ∃ length, LaxLength n length ∧ b = length ++ rest := by
  constructor
  · intro h
    match b, h with
    | first :: tail, h =>
      rw [laxLength] at h
      split at h
      · next hshort =>
        cases h
        exact ⟨[first], .short first (highBit_eq_false_iff.mp hshort) rfl, rfl⟩
      next hlong =>
      dsimp only at h
      split at h
      · cases h
      next hfits =>
      split at h
      · cases h
      next hwidth =>
      obtain ⟨rfl, rfl⟩ := Prod.mk.inj (Except.ok.inj h)
      have hle := le_toNat_of_highBit hlong
      have hlength : (tail.take (first.toNat - 0x80)).length = first.toNat - 0x80 :=
        List.length_take_of_le (Nat.not_lt.mp hfits)
      refine ⟨first :: tail.take (first.toNat - 0x80),
        .long first _ (by omega) (by omega) (Bytes.toNatBE_dropWhile _).symm, ?_⟩
      rw [List.cons_append, List.take_append_drop]
  · rintro ⟨length, h, rfl⟩
    cases h with
    | short first bound value =>
      rw [List.singleton_append, laxLength, if_pos (highBit_eq_false_iff.mpr bound), value]
    | long first octets counts width value =>
      have hcount : first.toNat - 0x80 = octets.length := by omega
      rw [List.cons_append, laxLength, if_neg (highBit_of_toNat counts)]
      dsimp only
      rw [hcount, if_neg (by simp), List.take_left, if_neg (by omega), List.drop_left,
        Bytes.toNatBE_dropWhile, value]

theorem laxInteger_eq_ok_iff (which : Component) :
    laxInteger which b = .ok (body, rest) ↔ ∃ field, LaxInteger body field ∧ b = field ++ rest := by
  constructor
  · intro h
    match b, h with
    | tag :: tail, h =>
      simp only [laxInteger, throw, throwThe, MonadExceptOf.throw, bind, Except.bind, pure,
        Except.pure] at h
      split at h
      · cases h
      next htag =>
      split at h
      · cases h
      next read hread =>
      split at h
      · cases h
      next hfits =>
      cases h
      obtain ⟨length, hlength, rfl⟩ := (laxLength_eq_ok_iff which).mp hread
      refine ⟨0x02 :: (length ++ read.2.take read.1), ⟨length, ?_, rfl⟩, ?_⟩
      · rwa [List.length_take_of_le (Nat.not_lt.mp hfits)]
      · rw [not_not.mp htag, List.cons_append, List.append_assoc, List.take_append_drop]
        rfl
  · rintro ⟨_, ⟨length, hlength, rfl⟩, rfl⟩
    have hread : laxLength which (length ++ (body ++ rest)) = .ok (body.length, body ++ rest) :=
      (laxLength_eq_ok_iff which).mpr ⟨length, hlength, rfl⟩
    have htag : (0x02 : UInt8) = integerTag := rfl
    rw [List.cons_append, List.append_assoc, laxInteger, if_neg (not_not.mpr htag), hread]
    simp [bind, Except.bind, pure, Except.pure]

theorem laxBody_eq_ok_iff :
    laxBody b = .ok rest ↔ ∃ length, AnyLength length ∧ b = 0x30 :: (length ++ rest) := by
  constructor
  · intro h
    match b, h with
    | tag :: tail, h =>
      simp only [laxBody] at h
      split at h
      · cases h
      next htag =>
      split at h
      · cases h
      next first body =>
      split at h
      · next hshort =>
        cases h
        exact ⟨[first], .short first (highBit_eq_false_iff.mp hshort), by rw [not_not.mp htag]; rfl⟩
      next hlong =>
      split at h
      · cases h
      next hfits =>
      obtain rfl := Except.ok.inj h
      have hle := le_toNat_of_highBit hlong
      have hlength : (body.take (first.toNat - 0x80)).length = first.toNat - 0x80 :=
        List.length_take_of_le (Nat.not_lt.mp hfits)
      refine ⟨first :: body.take (first.toNat - 0x80), .long first _ (by omega), ?_⟩
      rw [not_not.mp htag, List.cons_append, List.take_append_drop]
      rfl
  · rintro ⟨length, h, rfl⟩
    have hsequence : (0x30 : UInt8) = sequenceTag := rfl
    cases h with
    | short first bound =>
      rw [List.singleton_append, laxBody, if_neg (not_not.mpr hsequence),
        if_pos (highBit_eq_false_iff.mpr bound)]
    | long first octets counts =>
      have hcount : first.toNat - 0x80 = octets.length := by omega
      rw [List.cons_append, laxBody, if_neg (not_not.mpr hsequence), if_neg (highBit_of_toNat counts),
        hcount, if_neg (by simp), List.drop_left]

/-! ## Strict forms -/

/-- One byte is a length. -/
theorem LaxLength.ofLength (h : body.length < 0x80) :
    LaxLength body.length [UInt8.ofNat body.length] := by
  have hcount := toNat_ofNat_length (Nat.lt_trans h (by decide))
  exact .short _ (by rwa [UInt8.lt_iff_toNat_lt, hcount]) hcount

/-- **A strict form is a lax form**: all its lengths are below `0x80`. -/
theorem Strict.lax (h : Strict b r s) : Lax b r s := by
  have hgreatest := h.greatest
  have hlength := congrArg List.length h.layout
  simp only [List.length_append, List.length_cons, List.length_nil] at hlength
  have houter : (UInt8.ofNat (b.length - 2)).toNat = b.length - 2 := by
    rw [UInt8.toNat_ofNat']
    omega
  refine ⟨[UInt8.ofNat (b.length - 2)], 0x02 :: ([UInt8.ofNat r.length] ++ r),
    0x02 :: ([UInt8.ofNat s.length] ++ s), [], .short _ ?_, ⟨_, .ofLength (by omega), rfl⟩,
    ⟨_, .ofLength (by omega), rfl⟩, ?_⟩
  · rw [UInt8.lt_iff_toNat_lt, houter]
    exact Nat.lt_of_le_of_lt (by omega) (by decide : 70 < 0x80)
  · conv => lhs; rw [h.layout]
    simp

end Der

namespace Signature

open Der

variable {b : Bytes} {sig : Signature}

/-- **The lax reader reads the byte strings of the grammar whose values fit**, and gives the
values. -/
theorem ofDerLax_eq_ok_iff :
    ofDerLax b = .ok sig ↔
      ∃ r s, Lax b r s ∧ Bytes.toNatBE r = sig.r.toNat ∧ Bytes.toNatBE s = sig.s.toNat := by
  constructor
  · intro h
    simp only [ofDerLax, bind, Except.bind, pure, Except.pure] at h
    split at h
    · cases h
    next body hbody =>
    split at h
    · cases h
    next first hfirst =>
    split at h
    · cases h
    next second hsecond =>
    split at h
    · cases h
    next r hr =>
    split at h
    · cases h
    next s hs =>
    cases h
    obtain ⟨length, hlength, rfl⟩ := laxBody_eq_ok_iff.mp hbody
    obtain ⟨fieldR, hfieldR, rfl⟩ := (laxInteger_eq_ok_iff .r).mp hfirst
    obtain ⟨fieldS, hfieldS, htail⟩ := (laxInteger_eq_ok_iff .s).mp hsecond
    exact ⟨first.1, second.1, ⟨length, fieldR, fieldS, second.2, hlength, hfieldR, hfieldS,
      by rw [htail]⟩, (value_eq_ok_iff .r).mp hr, (value_eq_ok_iff .s).mp hs⟩
  · rintro ⟨r, s, ⟨length, fieldR, fieldS, tail, hlength, hfieldR, hfieldS, rfl⟩, hr, hs⟩
    rw [← value_eq_ok_iff .r] at hr
    rw [← value_eq_ok_iff .s] at hs
    have hbody : laxBody (0x30 :: (length ++ (fieldR ++ (fieldS ++ tail)))) =
        .ok (fieldR ++ (fieldS ++ tail)) := laxBody_eq_ok_iff.mpr ⟨length, hlength, rfl⟩
    have hfirst : laxInteger .r (fieldR ++ (fieldS ++ tail)) = .ok (r, fieldS ++ tail) :=
      (laxInteger_eq_ok_iff .r).mpr ⟨fieldR, hfieldR, rfl⟩
    have hsecond : laxInteger .s (fieldS ++ tail) = .ok (s, tail) :=
      (laxInteger_eq_ok_iff .s).mpr ⟨fieldS, hfieldS, rfl⟩
    simp only [ofDerLax, hbody, hfirst, hsecond, hr, hs, bind, Except.bind, pure, Except.pure]

/-- What the strict reader reads the lax one reads too, as the same signature. -/
theorem ofDerLax_of_ofDer (h : ofDer b = .ok sig) : ofDerLax b = .ok sig := by
  obtain ⟨⟨r, s, hstrict, hvalues⟩, -⟩ := ofDer_eq_ok_iff.mp h
  exact ofDerLax_eq_ok_iff.mpr ⟨r, s, hstrict.lax, hvalues⟩

/-- **The lax reader reads exactly its grammar.**  It reads a signature from a byte string if and only
if that starts with the lax form of two integers whose values fit into 256 bits, and the values of the
signature are theirs; it reads all that the strict reader does; and done by position on an array, as
long as an array can be, it reads the same, refuses for the same cause and does not crash. -/
theorem lax_reading_exact (b : Bytes) :
    (∀ sig, ofDerLax b = .ok sig ↔
      ∃ r s, Lax b r s ∧ (Bytes.toNatBE r < 2 ^ 256 ∧ Bytes.toNatBE s < 2 ^ 256) ∧
        Bytes.toNatBE r = sig.r.toNat ∧ Bytes.toNatBE s = sig.s.toNat) ∧
    (∀ sig, ofDer b = .ok sig → ofDerLax b = .ok sig) ∧
    (b.length ≤ Checked.addressSpace →
      Checked.Agrees (fun parts sig => parts = Checked.blocks sig) (Checked.readLax b) (ofDerLax b) ∧
        ∀ c, Checked.readLax b ≠ Checked.crash c) := by
  refine ⟨fun sig => ?_, fun sig => ofDerLax_of_ofDer, fun hsize => ?_⟩
  · rw [ofDerLax_eq_ok_iff]
    constructor
    · rintro ⟨r, s, hlax, hr, hs⟩
      exact ⟨r, s, hlax, ⟨hr ▸ sig.r.isLt, hs ▸ sig.s.isLt⟩, hr, hs⟩
    · rintro ⟨r, s, hlax, -, hvalues⟩
      exact ⟨r, s, hlax, hvalues⟩
  · have hword : b.length < Checked.wordSize := Nat.lt_of_le_of_lt hsize (by decide)
    exact ⟨Checked.readLax_agrees hword, (Checked.readLax_agrees hword).ne_crash⟩

/-- The numbers 5 and 7 in the strict form, and the number 5 with a long and padded length before an
empty integer. -/
theorem lax_reading_five :
    ofDerLax [0x30, 0x06, 0x02, 0x01, 0x05, 0x02, 0x01, 0x07] = .ok ⟨5, 7⟩ ∧
      (∃ r s, Lax [0x30, 0x81, 0xff, 0x02, 0x82, 0x00, 0x01, 0x05, 0x02, 0x80, 0xaa] r s ∧
        (Bytes.toNatBE r < 2 ^ 256 ∧ Bytes.toNatBE s < 2 ^ 256) ∧
        Bytes.toNatBE r = (5 : BitVec 256).toNat ∧ Bytes.toNatBE s = (0 : BitVec 256).toNat) ∧
      ∀ c, Checked.readLax [0x30, 0x81, 0xff, 0x02, 0x82, 0x00, 0x01, 0x05, 0x02, 0x80, 0xaa] ≠
        Checked.crash c :=
  ⟨(lax_reading_exact [0x30, 0x06, 0x02, 0x01, 0x05, 0x02, 0x01, 0x07]).2.1 ⟨5, 7⟩
      (by decide +kernel),
    ((lax_reading_exact _).1 ⟨5, 0⟩).mp (by decide +kernel),
    ((lax_reading_exact _).2.2 (by decide)).2⟩

end Signature

end CoinScript
