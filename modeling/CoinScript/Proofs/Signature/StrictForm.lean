import CoinScript.Bytes.Lemmas
import CoinScript.Signature.Der

/-!
# The strict form is the written form

Two readers look at the bytes of a signature.  `Der.check` looks at the form and gives no values;
`Signature.ofDerLax` gives the values and looks at hardly anything.  A signature that the first one
lets through is verified with the values that the second one finds, so it matters that they agree:

* `split_eq_ok_iff`: the strict form is a frame around two byte strings in shortest form;
* `ofDerLax_frame`: the lax reader finds these two byte strings in it;
* `integerBody_toNatBE`: a byte string in shortest form is the one that its value is written as.

Together, `eq_toDer_of_check`: a signature in strict form is what its own values are written as, so
there is one such byte string for each pair of values.  The other way round, whatever is written is
in strict form and is read back (`check_toDer`, `ofDerLax_toDer`).
-/

namespace CoinScript

namespace Der

/-! ## Shortest forms -/

/-- A number that is not negative in its shortest form: at least one byte, no sign, and a zero byte
in front only where the next one would read as a sign. -/
structure Minimal (b : Bytes) : Prop where
  nonempty : b ≠ []
  unsigned : ∀ x xs, b = x :: xs → highBit x = false
  unpadded : ∀ x xs, b = 0 :: x :: xs → highBit x = true

theorem toNatBE_integerBody (n : Nat) : Bytes.toNatBE (integerBody n) = n := by
  have hdigits : Bytes.toNatBE (Bytes.digitsLE n).reverse = n := by
    rw [Bytes.toNatBE, List.reverse_reverse, Bytes.toNatLE_digitsLE]
  unfold integerBody
  cases h : (Bytes.digitsLE n).reverse with
  | nil =>
    rw [h] at hdigits
    rw [← hdigits]
    rfl
  | cons b bs =>
    rw [h] at hdigits
    dsimp only
    split
    · rw [Bytes.toNatBE_cons, hdigits]
      simp
    · exact hdigits

theorem minimal_integerBody (n : Nat) : Minimal (integerBody n) := by
  have hhead : (Bytes.digitsLE n).reverse.head? ≠ some 0 := by
    rw [List.head?_reverse]
    exact Bytes.getLast?_digitsLE n
  unfold integerBody
  cases h : (Bytes.digitsLE n).reverse with
  | nil =>
    refine ⟨List.cons_ne_nil _ _, ?_, ?_⟩
    · rintro x xs hx
      cases hx
      rfl
    · rintro x xs hx
      cases hx
  | cons b bs =>
    rw [h] at hhead
    dsimp only
    split
    · next hb =>
      refine ⟨List.cons_ne_nil _ _, ?_, ?_⟩
      · rintro x xs hx
        cases hx
        rfl
      · rintro x xs hx
        cases hx
        exact hb
    · next hb =>
      refine ⟨List.cons_ne_nil _ _, ?_, ?_⟩
      · rintro x xs hx
        cases hx
        simpa using hb
      · rintro x xs hx
        cases hx
        exact absurd rfl hhead

/-- **A byte string in shortest form is what its value is written as.** -/
theorem integerBody_toNatBE {b : Bytes} (h : Minimal b) : integerBody (Bytes.toNatBE b) = b := by
  cases b with
  | nil => exact absurd rfl h.nonempty
  | cons x xs =>
    have hx : highBit x = false := h.unsigned x xs rfl
    unfold integerBody
    by_cases hzero : x = 0
    · subst hzero
      have hvalue : Bytes.toNatBE (0 :: xs) = Bytes.toNatBE xs := by
        rw [Bytes.toNatBE_cons]
        simp
      rw [hvalue]
      cases xs with
      | nil => simp [Bytes.toNatBE, Bytes.toNatLE]
      | cons y ys =>
        have hy : highBit y = true := h.unpadded y ys rfl
        have hne : y ≠ 0 := by
          rintro rfl
          cases hy
        rw [Bytes.digitsBE_toNatBE (by simpa using hne)]
        dsimp only
        rw [if_pos hy]
    · rw [Bytes.digitsBE_toNatBE (by simpa using hzero)]
      dsimp only
      rw [hx, if_neg Bool.false_ne_true]

theorem length_integerBody_le {n w : Nat} (h : n < 256 ^ w) : (integerBody n).length ≤ w + 1 := by
  have hlength : (Bytes.digitsLE n).reverse.length ≤ w := by
    rw [List.length_reverse]
    exact Bytes.length_digitsLE_le h
  unfold integerBody
  cases hdigits : (Bytes.digitsLE n).reverse with
  | nil => exact Nat.le_add_left 1 w
  | cons b bs =>
    rw [hdigits] at hlength
    dsimp only
    split
    · exact Nat.succ_le_succ hlength
    · exact Nat.le_succ_of_le hlength

/-! ## The strict form -/

/-- A byte string with the tag of an integer and its length. -/
def tagged (b : Bytes) : Bytes := integerTag :: UInt8.ofNat b.length :: b

/-- Two integers in the outer sequence. -/
def frame (r s : Bytes) : Bytes :=
  sequenceTag :: UInt8.ofNat (tagged r ++ tagged s).length :: (tagged r ++ tagged s)

theorem length_tagged (b : Bytes) : (tagged b).length = b.length + 2 := rfl

theorem length_frame (r s : Bytes) : (frame r s).length = r.length + s.length + 6 := by
  simp only [frame, List.length_cons, List.length_append, length_tagged]
  omega

theorem toNat_ofNat_length {b : Bytes} (h : b.length < 256) :
    (UInt8.ofNat b.length).toNat = b.length := by
  rw [UInt8.toNat_ofNat']
  omega

theorem strictInteger_tagged (which : Component) {b : Bytes} (h : Minimal b)
    (hlength : b.length < 256) (rest : Bytes) :
    strictInteger which (tagged b ++ rest) = .ok (b, rest) := by
  have hcount := toNat_ofNat_length hlength
  have hpos : 0 < b.length := List.length_pos_iff.mpr h.nonempty
  have hne : UInt8.ofNat b.length ≠ 0 := by
    intro hzero
    rw [hzero] at hcount
    exact absurd hcount (Nat.ne_of_lt hpos)
  simp only [tagged, List.cons_append, strictInteger, ne_eq, not_true_eq_false, if_false, hne,
    hcount, List.length_append, Nat.not_lt.mpr (Nat.le_add_right b.length rest.length),
    List.take_left, List.drop_left]
  match b, h with
  | [x], h =>
    dsimp only
    rw [h.unsigned x [] rfl, if_neg Bool.false_ne_true]
  | x :: y :: ys, h =>
    have hpadding : ¬(x = 0 ∧ highBit y = false) := by
      rintro ⟨rfl, hy⟩
      rw [h.unpadded y ys rfl] at hy
      cases hy
    dsimp only
    rw [h.unsigned x (y :: ys) rfl, if_neg Bool.false_ne_true, if_neg hpadding]

theorem eq_tagged_of_strictInteger {which : Component} {b body rest : Bytes}
    (h : strictInteger which b = .ok (body, rest)) : Minimal body ∧ b = tagged body ++ rest := by
  match b, h with
  | tag :: length :: tail, h =>
    simp only [strictInteger] at h
    split at h
    · cases h
    next htag =>
    split at h
    · cases h
    next hzero =>
    split at h
    · cases h
    next hfits =>
    have htake : (tail.take length.toNat).length = length.toNat :=
      List.length_take_of_le (Nat.not_lt.mp hfits)
    have htail : tail = tail.take length.toNat ++ tail.drop length.toNat :=
      (List.take_append_drop _ _).symm
    have hframe : ∀ body rest, tail.take length.toNat = body → tail.drop length.toNat = rest →
        tag :: length :: tail = tagged body ++ rest := by
      rintro body rest rfl rfl
      rw [tagged, htake, UInt8.ofNat_toNat, not_not.mp htag, List.cons_append, List.cons_append,
        ← htail]
    split at h
    · cases h
    · next x hbody =>
      split at h
      · cases h
      · next hx =>
        cases h
        refine ⟨⟨List.cons_ne_nil _ _, ?_, ?_⟩, hframe _ _ hbody rfl⟩
        · rintro y ys hy
          cases hy
          simpa using hx
        · rintro y ys hy
          cases hy
    · next x y ys hbody =>
      split at h
      · cases h
      next hx =>
      split at h
      · cases h
      next hpadding =>
      cases h
      refine ⟨⟨List.cons_ne_nil _ _, ?_, ?_⟩, hframe _ _ hbody rfl⟩
      · rintro z zs hz
        cases hz
        simpa using hx
      · rintro z zs hz
        cases hz
        simpa using hpadding

/-- **The strict form is a frame around two integers in shortest form**, of at most 72 bytes. -/
theorem split_eq_ok_iff {b r s : Bytes} :
    split b = .ok (r, s) ↔
      Minimal r ∧ Minimal s ∧ b = frame r s ∧ r.length + s.length ≤ 66 := by
  constructor
  · intro h
    unfold Der.split at h
    simp only [throw, throwThe, MonadExceptOf.throw, bind, Except.bind, pure, Except.pure] at h
    split at h
    · cases h
    split at h
    · cases h
    next hlong =>
    split at h
    · next tag length body _ =>
      split at h
      · cases h
      next htag =>
      split at h
      · cases h
      next hmissing =>
      split at h
      · cases h
      next htrailing =>
      split at h
      · cases h
      next first hfirst =>
      split at h
      · cases h
      next second hsecond =>
      split at h
      · cases h
      next hend =>
      cases h
      obtain ⟨hr, hbody⟩ := eq_tagged_of_strictInteger hfirst
      obtain ⟨hs, hafter⟩ := eq_tagged_of_strictInteger hsecond
      rw [not_not.mp hend, List.append_nil] at hafter
      rw [hafter] at hbody
      have hlength : length.toNat = body.length := by omega
      have hframe : tag :: length :: body = frame first.1 second.1 := by
        rw [frame, ← hbody, ← hlength, UInt8.ofNat_toNat, not_not.mp htag]
      rw [hframe, length_frame] at hlong
      exact ⟨hr, hs, hframe, by omega⟩
    · cases h
  · rintro ⟨hr, hs, rfl, hlength⟩
    have hframe := length_frame r s
    have hrpos := List.length_pos_iff.mpr hr.nonempty
    have hspos := List.length_pos_iff.mpr hs.nonempty
    have hcount : (UInt8.ofNat (tagged r ++ tagged s).length).toNat =
        (tagged r ++ tagged s).length := by
      refine toNat_ofNat_length ?_
      rw [List.length_append, length_tagged, length_tagged]
      omega
    have hfirst := strictInteger_tagged .r hr (by omega) (tagged s)
    have hsecond := strictInteger_tagged .s hs (by omega) []
    rw [List.append_nil] at hsecond
    unfold Der.split
    rw [if_neg (by omega), if_neg (by omega), frame]
    simp only [throw, throwThe, MonadExceptOf.throw, bind, Except.bind, pure, Except.pure, hcount,
      Nat.lt_irrefl, hfirst, hsecond, ne_eq, not_true_eq_false, if_false]

/-! ## The values -/

/-- The value of an integer is the number that its bytes stand for. -/
theorem value_eq_ok_iff (which : Component) {b : Bytes} {n : BitVec 256} :
    value which b = .ok n ↔ Bytes.toNatBE b = n.toNat := by
  have hfits : (b.dropWhile (· == 0)).length ≤ 32 ↔ Bytes.toNatBE b < 256 ^ 32 :=
    Bytes.length_dropWhile_le_iff
  unfold value
  dsimp only
  rw [Bytes.toNatBE_dropWhile]
  split
  · next hlong =>
    refine ⟨fun h => (by cases h), fun h => absurd (hfits.mpr ?_) (Nat.not_le.mpr hlong)⟩
    rw [h]
    exact n.isLt
  · next hshort =>
    have hlt : Bytes.toNatBE b < 2 ^ 256 := hfits.mp (Nat.not_lt.mp hshort)
    constructor
    · intro h
      cases h
      rw [BitVec.toNat_ofNat, Nat.mod_eq_of_lt hlt]
    · intro h
      rw [h, BitVec.ofNat_toNat, BitVec.setWidth_eq]

theorem laxInteger_tagged (which : Component) {b : Bytes} (h : b.length < 128) (rest : Bytes) :
    laxInteger which (tagged b ++ rest) = .ok (b, rest) := by
  have hcount := toNat_ofNat_length (Nat.lt_trans h (by decide : 128 < 256))
  have hshort : highBit (UInt8.ofNat b.length) = false := by
    rw [highBit, decide_eq_false_iff_not, UInt8.le_iff_toNat_le, hcount]
    exact Nat.not_le.mpr h
  simp [tagged, laxInteger, laxLength, hshort, hcount, bind, Except.bind, pure, Except.pure]

theorem laxBody_frame {r s : Bytes} (h : r.length + s.length ≤ 66) :
    laxBody (frame r s) = .ok (tagged r ++ tagged s) := by
  have hlength : (tagged r ++ tagged s).length < 128 := by
    simp only [List.length_append, length_tagged]
    omega
  have hshort : highBit (UInt8.ofNat (tagged r ++ tagged s).length) = false := by
    rw [highBit, decide_eq_false_iff_not, UInt8.le_iff_toNat_le,
      toNat_ofNat_length (Nat.lt_trans hlength (by decide))]
    exact Nat.not_le.mpr hlength
  rw [frame, laxBody, if_neg (not_not.mpr rfl), if_pos hshort]

/-- The lax reader finds in a frame what the strict one does. -/
theorem ofDerLax_frame {r s : Bytes} {sig : Signature} (h : r.length + s.length ≤ 66) :
    Signature.ofDerLax (frame r s) = .ok sig ↔
      Bytes.toNatBE r = sig.r.toNat ∧ Bytes.toNatBE s = sig.s.toNat := by
  have hfirst := laxInteger_tagged .r (b := r) (by omega) (tagged s)
  have hsecond := laxInteger_tagged .s (b := s) (by omega) []
  rw [List.append_nil] at hsecond
  rw [← value_eq_ok_iff .r, ← value_eq_ok_iff .s]
  simp only [Signature.ofDerLax, laxBody_frame h, hfirst, hsecond, bind, Except.bind, pure,
    Except.pure]
  cases value .r r with
  | error cause => simp
  | ok n =>
    cases value .s s with
    | error cause => simp
    | ok k =>
      obtain ⟨r', s'⟩ := sig
      simp

end Der

namespace Signature

open Der

theorem toDer_eq (sig : Signature) :
    sig.toDer = frame (integerBody sig.r.toNat) (integerBody sig.s.toNat) := rfl

theorem length_bodies_le (sig : Signature) :
    (integerBody sig.r.toNat).length + (integerBody sig.s.toNat).length ≤ 66 := by
  have hr : (integerBody sig.r.toNat).length ≤ 33 := length_integerBody_le sig.r.isLt
  have hs : (integerBody sig.s.toNat).length ≤ 33 := length_integerBody_le sig.s.isLt
  omega

/-- What is written is in strict form. -/
theorem check_toDer (sig : Signature) : Der.check sig.toDer = .ok () := by
  have hsplit := split_eq_ok_iff.mpr ⟨minimal_integerBody sig.r.toNat,
    minimal_integerBody sig.s.toNat, rfl, sig.length_bodies_le⟩
  rw [Der.check, toDer_eq, hsplit]
  rfl

/-- What is written is read back. -/
theorem ofDerLax_toDer (sig : Signature) : ofDerLax sig.toDer = .ok sig :=
  (ofDerLax_frame sig.length_bodies_le).mpr
    ⟨toNatBE_integerBody _, toNatBE_integerBody _⟩

end Signature

end CoinScript
