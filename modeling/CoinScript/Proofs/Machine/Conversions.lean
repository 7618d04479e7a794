import CoinScript.Proofs.Machine.Evaluation
import CoinScript.Proofs.Number.Bytewise

/-!
# Sizes of numbers

`NUM2BIN` writes a number in a given number of bytes and `BIN2NUM` writes it in as few as it needs.
Neither reads the number: both work on the bytes of its shortest form, and a form that is longer than
operands may be is converted like any other.  What they do is said by the number all the same, since
shortening and widening keep it: they succeed if and only if the result has room, and the result stands
for what the operand stood for.  So `BIN2NUM` does not notice that `NUM2BIN` went before it.

`numToBin_eq` and `binToNum_eq` give the whole outcome of both, with the fault and what is left on the
stack.  A requested size above the sizes that byte strings can have counts as the greatest of these.
-/

namespace CoinScript.Run

variable {r : Rules} {m after : Machine} {a size : Bytes} {rest : Stack} {n : Nat}

/-- The shortest form of a number, brought to a size that is not less than its own. -/
theorem exists_resized {width : Nat} (h : (Number.minimize a).length ≤ width) :
    ∃ b, (if (Number.minimize a).length = width then Number.minimize a
        else Number.widen width (Number.minimize a)) = b ∧
      b.length = width ∧ Number.value b = Number.value a := by
  split
  · next heq => exact ⟨_, rfl, heq, Number.value_minimize a⟩
  · next hne =>
    refine ⟨_, rfl, Number.length_widen (Nat.lt_of_le_of_ne h hne), ?_⟩
    rw [Number.value_widen, Number.value_minimize]

/-- **What `NUM2BIN` does**, for a size within the limit on elements. -/
theorem numToBin_eq (hmain : m.main = size :: a :: rest)
    (hsize : Number.decode r.numberFormat size = .ok (n : Int))
    (hlimit : n ≤ r.limits.maxElementSize) :
    let width := min n Checked.addressSpace
    let least := Number.encode (Number.value a)
    (least.length ≤ width ∧ ∃ b, numToBin r m = .ok () { m with main := b :: rest } ∧
      b.length = width ∧ Number.value b = Number.value a) ∨
    (width < least.length ∧
      numToBin r m = .error (.valueTooWide least.length width) { m with main := rest }) := by
  intro width least
  have hwidth : (Number.clamp 64 (n : Int)).toNat = width := Number.toNat_clamp n
  have hleast : Number.minimize a = least := Number.minimize_eq_encode a
  have hrun : numToBin r m =
      (require (decide (least.length ≤ width)) (.valueTooWide least.length width) >>= fun _ =>
        push (if least.length = width then least else Number.widen width least))
        { m with main := rest } := by
    unfold numToBin
    rw [bind_of_ok (popNumber_of_main hmain hsize), bind_of_ok (pop_eq rfl),
      require_bind_of_true (decide_eq_true (Int.natCast_nonneg n))]
    dsimp only
    rw [hwidth, hleast, require_bind_of_true
      (decide_eq_true (Nat.le_trans (Nat.min_le_left _ _) hlimit))]
  rw [hrun]
  rcases Nat.lt_or_ge width least.length with hwide | hroom
  · refine .inr ⟨hwide, ?_⟩
    rw [decide_eq_false (Nat.not_le.mpr hwide)]
    rfl
  · have hfits : (Number.minimize a).length ≤ width := by
      rw [hleast]
      exact hroom
    obtain ⟨b, hb, hlength, hvalue⟩ := exists_resized hfits
    rw [hleast] at hb
    refine .inl ⟨hroom, b, ?_, hlength, hvalue⟩
    rw [require_bind_of_true (decide_eq_true hroom), hb]
    rfl

/-- **What `BIN2NUM` does.**  The element counts through its number only. -/
theorem binToNum_eq (hmain : m.main = a :: rest) :
    binToNum r m =
      if (Number.encode (Number.value a)).length ≤ r.limits.maxNumberLength then
        .ok () { m with main := Number.encode (Number.value a) :: rest }
      else .error (.numberTooWide r.limits.maxNumberLength) { m with main := rest } := by
  unfold binToNum
  rw [bind_of_ok (pop_eq hmain), Number.minimize_eq_encode]
  by_cases hroom : (Number.encode (Number.value a)).length ≤ r.limits.maxNumberLength
  · rw [require_bind_of_true (decide_eq_true hroom), if_pos hroom]
    rfl
  · rw [decide_eq_false hroom, if_neg hroom]
    rfl

theorem binToNum_eq_ok_iff (hmain : m.main = a :: rest) :
    binToNum r m = .ok () after ↔
      (Number.encode (Number.value a)).length ≤ r.limits.maxNumberLength ∧
        after = { m with main := Number.encode (Number.value a) :: rest } := by
  rw [binToNum_eq hmain]
  split
  · next hroom =>
    constructor
    · intro h
      cases h
      exact ⟨hroom, rfl⟩
    · rintro ⟨-, rfl⟩
      rfl
  · next hwide => exact iff_of_false nofun fun h => hwide h.1

/-- **Conversions keep the number.**  On an element and a size that is read as an operand and is within
the limit on elements, `NUM2BIN` succeeds if and only if the size has room for the shortest form, and
then puts in the place of both an element of exactly that size that stands for the same number; no
element has more than `addressSpace` bytes.  On any element, `BIN2NUM` succeeds if and only if the
shortest form is within the limit on operands, and then puts that in its place.  It does the same after
`NUM2BIN` as without it, whether it succeeds or not. -/
theorem conversions_keep_number (r : Rules) (script : List Instruction) (offset : Nat) (m : Machine)
    (a : Bytes) (rest : Stack) :
    let toBin := perform r script offset true ⟨0x80, none⟩
    let toNum := perform r script offset true ⟨0x81, none⟩
    let least := Number.encode (Number.value a)
    (∀ (size : Bytes) (n : Nat), Number.decode r.numberFormat size = .ok (n : Int) →
      n ≤ r.limits.maxElementSize →
      let width := min n Checked.addressSpace
      ((∃ after, toBin { m with main := size :: a :: rest } = .ok () after) ↔
        least.length ≤ width) ∧
      ∀ after, toBin { m with main := size :: a :: rest } = .ok () after →
        (∃ b, after = { m with main := b :: rest } ∧ b.length = width ∧
          Number.value b = Number.value a) ∧
        toNum after = toNum { m with main := a :: rest }) ∧
    ((∃ after, toNum { m with main := a :: rest } = .ok () after) ↔
      least.length ≤ r.limits.maxNumberLength) ∧
    ∀ after, toNum { m with main := a :: rest } = .ok () after →
      after = { m with main := least :: rest } := by
  intro toBin toNum least
  have htoNum : ∀ {after}, toNum { m with main := a :: rest } = .ok () after ↔
      least.length ≤ r.limits.maxNumberLength ∧ after = { m with main := least :: rest } :=
    binToNum_eq_ok_iff (m := { m with main := a :: rest }) rfl
  refine ⟨?_, ⟨fun ⟨_, h⟩ => (htoNum.mp h).1, fun hroom => ⟨_, htoNum.mpr ⟨hroom, rfl⟩⟩⟩,
    fun after h => (htoNum.mp h).2⟩
  intro size n hsize hlimit width
  have htoBin := numToBin_eq (m := { m with main := size :: a :: rest }) rfl hsize hlimit
  rcases htoBin with ⟨hroom, b, hok, hlength, hvalue⟩ | ⟨hwide, herror⟩
  · refine ⟨iff_of_true ⟨_, hok⟩ hroom, fun after hafter => ?_⟩
    cases hok.symm.trans hafter
    -- `BIN2NUM` sees the number only, and that is the same
    have hfirst := binToNum_eq (r := r) (m := { m with main := b :: rest }) rfl
    have hdirect := binToNum_eq (r := r) (m := { m with main := a :: rest }) rfl
    rw [hvalue] at hfirst
    exact ⟨⟨b, rfl, hlength, hvalue⟩, hfirst.trans hdirect.symm⟩
  · refine ⟨iff_of_false ?_ (Nat.not_le.mpr hwide), fun after hafter => ?_⟩
    · rintro ⟨after, hafter⟩
      cases herror.symm.trans hafter
    · cases herror.symm.trans hafter

/-- Minus one with a zero between its digit and its sign, brought to four bytes and back to one. -/
theorem conversions_of_minusOne :
    let r : Rules := ⟨.consensus, .none, .secp256k1, none, 0⟩
    ∃ after b, perform r [] 0 true ⟨0x80, none⟩
        { Machine.start with main := [[0x04], [0x01, 0x00, 0x80]] } = .ok () after ∧
      after.main = [b] ∧ b.length = 4 ∧ Number.value b = -1 ∧
      perform r [] 0 true ⟨0x81, none⟩ after = .ok () { Machine.start with main := [[0x81]] } := by
  intro r
  have hsize : Number.decode r.numberFormat [0x04] = .ok ((4 : Nat) : Int) := by decide +kernel
  have hvalue : Number.value [0x01, 0x00, 0x80] = -1 := by decide +kernel
  have hleast : Number.encode (-1) = [0x81] := by decide +kernel
  obtain ⟨hbin, hnum, hresult⟩ := conversions_keep_number r [] 0 .start [0x01, 0x00, 0x80] []
  rw [hvalue, hleast] at hnum hresult
  obtain ⟨hiff, hkeeps⟩ := hbin [0x04] 4 hsize (by decide)
  rw [hvalue, hleast] at hiff
  obtain ⟨after, hafter⟩ := hiff.mpr (by decide)
  obtain ⟨⟨b, rfl, hlength, hnumber⟩, hsame⟩ := hkeeps after hafter
  obtain ⟨last, hlast⟩ := hnum.mpr (by decide)
  refine ⟨_, b, hafter, rfl, hlength, hnumber.trans hvalue, ?_⟩
  rw [hsame, hlast, hresult last hlast]

end CoinScript.Run
