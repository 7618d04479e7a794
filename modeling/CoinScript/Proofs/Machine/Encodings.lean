import CoinScript.Machine.Signatures

/-!
# What the checks of encodings require

The checks of a sighash byte, of a signature and of a key stop at the first breach.  Here each is
given as a condition: it passes exactly if the condition holds.
-/

namespace CoinScript.Rules

variable {r : Rules}

/-- The sighash byte is in order: under strict encoding the base is 1, 2 or 3, and the bit for the
amount is set exactly if its digest is in use. -/
theorem checkSighashByte_eq_ok_iff {b : UInt8} :
    r.checkSighashByte b = .ok () ↔
      (r.flags.has .strictEncoding = true →
        (1 ≤ (SighashFlag.ofByte b).strictBase ∧ (SighashFlag.ofByte b).strictBase ≤ 3) ∧
          (SighashFlag.ofByte b).hasForkId = r.flags.has .forkId) := by
  unfold checkSighashByte
  cases r.flags.has .strictEncoding with
  | false => simp [pure, Except.pure]
  | true =>
    have hrange : (1 ≤ (SighashFlag.ofByte b).strictBase ∧ (SighashFlag.ofByte b).strictBase ≤ 3) ↔
        ¬((SighashFlag.ofByte b).strictBase < 1 ∨ 3 < (SighashFlag.ofByte b).strictBase) := by
      rw [not_or, UInt32.not_lt, UInt32.not_lt]
    rw [hrange]
    by_cases hbase : (SighashFlag.ofByte b).strictBase < 1 ∨ 3 < (SighashFlag.ofByte b).strictBase
    · simp only [if_true, hbase]
      simp [throw, throwThe, MonadExceptOf.throw, bind, Except.bind]
    · simp only [if_true, hbase, if_false]
      cases (SighashFlag.ofByte b).hasForkId <;> cases r.flags.has .forkId <;>
        simp [throw, throwThe, MonadExceptOf.throw, pure, Except.pure, bind, Except.bind]

/-- The signature is in strict form, and low if that is asked for. -/
theorem checkDer_eq_ok_iff {der : Bytes} :
    r.checkDer der = .ok () ↔
      (r.flags.hasAny [.derSignatures, .lowS, .strictEncoding] = true →
        Der.check der = .ok () ∧
          (r.flags.has .lowS = true →
            ∃ sig, Signature.ofDerLax der = .ok sig ∧ sig.hasHighS = false)) := by
  unfold checkDer
  cases r.flags.hasAny [.derSignatures, .lowS, .strictEncoding] with
  | false => simp [pure, Except.pure]
  | true =>
    cases Der.check der with
    | error cause => simp [throw, throwThe, MonadExceptOf.throw, bind, Except.bind]
    | ok u =>
      cases r.flags.has .lowS with
      | false => simp [pure, Except.pure]
      | true =>
        cases Signature.ofDerLax der with
        | error cause => simp [throw, throwThe, MonadExceptOf.throw]
        | ok sig =>
          cases hs : sig.hasHighS <;>
            simp [hs, throw, throwThe, MonadExceptOf.throw, pure, Except.pure]

/-- An empty signature is in order; of another the last byte and what is before it have to be. -/
theorem checkSignature_eq_ok_iff {sig : Bytes} :
    r.checkSignature sig = .ok () ↔
      ∀ b, sig.getLast? = some b → r.checkSighashByte b = .ok () ∧
        r.checkDer sig.dropLast = .ok () := by
  unfold checkSignature
  cases sig.getLast? with
  | none => simp
  | some b =>
    cases h : r.checkSighashByte b with
    | error fault => simp [h, bind, Except.bind]
    | ok u => simp [h, bind, Except.bind]

theorem checkKey_eq_ok_iff {key : Bytes} :
    r.checkKey key = .ok () ↔
      (r.flags.has .strictEncoding = true →
        (key.length = 33 ∧ (key.head? = some 0x02 ∨ key.head? = some 0x03)) ∨
          (key.length = 65 ∧ key.head? = some 0x04)) := by
  unfold checkKey
  split
  · next h =>
    obtain ⟨hstrict, h33, h65⟩ := h
    refine ⟨fun hok => (by cases hok), fun hin => ?_⟩
    rcases hin hstrict with h | h
    · exact absurd h h33
    · exact absurd h h65
  · next h =>
    refine ⟨fun _ hstrict => ?_, fun _ => rfl⟩
    by_cases h33 : key.length = 33 ∧ (key.head? = some 0x02 ∨ key.head? = some 0x03)
    · exact .inl h33
    · by_cases h65 : key.length = 65 ∧ key.head? = some 0x04
      · exact .inr h65
      · exact absurd ⟨hstrict, h33, h65⟩ h

end CoinScript.Rules
