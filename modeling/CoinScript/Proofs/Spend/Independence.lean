import CoinScript.Proofs.Machine.Looser
import CoinScript.Spend.Verify

/-!
# Independence of the transaction

A run sees the transaction through a context, and asks it only in the checks of signatures and,
under their flags, in the checks of lock times.  Two runs can differ only if one of them asks.

Both statements compare runs under looser rules (`verdict_eq_or_excused_of_effective`):

* A run without a transaction that would have to ask stops with `missingContext`.  If it does not
  stop so it has never asked, and every transaction and every input leaves the verdict as it is.
* The amount that an input spends is part of a digest only under the flag for that.  Without the
  flag the contexts of an input with two amounts answer alike (`BoundInput.answersAlike`).
-/

namespace CoinScript

namespace Rules

/-- Rules with a transaction are looser than rules without one, if it is excused to stop for want of
one.  The input that is spent need not be the same. -/
theorem looser_of_context_none {r : Rules} (h : r.context = none) (context : Option Context)
    (input : Nat) :
    Looser (fun fault => fault.code = .missingTxContext) r { r with context, input } :=
  ⟨rfl, .told h fun _ => rfl, .inl rfl, .inl rfl⟩

end Rules

/-- Without the flag for it the amount is in no answer. -/
theorem BoundInput.answersAlike {r r' : Rules} (h : r.flags.has .forkId = false)
    (hinput : r'.input = r.input) (b : BoundInput) (amount : UInt64) :
    r.AnswersAlike r' b.context (context { b with amount }) := by
  refine ⟨hinput, rfl, rfl, rfl, fun code flag forkId hforkId => ?_⟩
  cases forkId with
  | false => rfl
  | true =>
    rw [h] at hforkId
    cases hforkId rfl

/-- **A script that needs no transaction does not depend on one.** -/
theorem verdict_of_context_none {r : Rules} (h : r.context = none) {unlocking locking : Script}
    (hasked : ∀ fault, (execute r unlocking locking).verdict = .error fault →
      fault.code ≠ .missingTxContext) (context : Option Context) (input : Nat) :
    (execute { r with context, input } unlocking locking).verdict =
      (execute r unlocking locking).verdict := by
  have hcases := verdict_eq_or_excused r { r with context, input } rfl
    (fun flags => Rules.looser_of_context_none (r := { r with flags }) h context input)
    unlocking locking
  rcases hcases with hsame | ⟨fault, hmissing, herror⟩
  · exact hsame.symm
  · exact absurd hmissing (hasked fault herror)

/-- **Without the flag for it the amount has no part in a verdict.** -/
theorem verdict_of_amounts (v : Verifier) {flags : Flags} (h : flags.has .forkId = false)
    (unlocking locking : Script) (b : BoundInput) (amount : UInt64) :
    (v.run b flags unlocking locking).verdict =
      (v.run { b with amount } flags unlocking locking).verdict := by
  let r : Rules := ⟨v.limits, flags, v.scheme, some b.context, b.index⟩
  let r' : Rules := { r with context := some (BoundInput.context { b with amount }) }
  have halike : Rules.AnswersAlike { r with flags := Rules.effectiveFlags flags }
      { r' with flags := Rules.effectiveFlags flags } b.context
      (BoundInput.context { b with amount }) := by
    refine BoundInput.answersAlike ?_ ?_ b amount
    · show (Rules.effectiveFlags flags).has .forkId = false
      rw [Rules.has_effectiveFlags, h]
      rfl
    · rfl
  have hlooser : Rules.Looser (fun _ => False) { r with flags := Rules.effectiveFlags flags }
      { r' with flags := Rules.effectiveFlags flags } :=
    ⟨rfl, .known rfl rfl halike, .inl rfl, .inl rfl⟩
  have hcases := verdict_eq_or_excused_of_effective r r' rfl hlooser unlocking locking
  rcases hcases with hsame | ⟨_, hfalse, _⟩
  · exact hsame
  · exact hfalse.elim

/-- **Verdicts depend on the transaction only where it is asked.**  A verdict that is reached
without a transaction, and is not that one is missing, is the verdict with every transaction and for
every input.  And two spends of the same input that differ in the amount are verified alike, unless
digests with the amount are in use. -/
theorem transaction_independent :
    (∀ (r : Rules) (unlocking locking : Script), r.context = none →
      (∀ fault, (execute r unlocking locking).verdict = .error fault →
        fault.code ≠ .missingTxContext) →
      ∀ (context : Context) (input : Nat),
        (execute { r with context := some context, input } unlocking locking).verdict =
          (execute r unlocking locking).verdict) ∧
    ∀ (v : Verifier) (unlocking locking : Script) (tx : Transaction) (index : Nat) (flags : Flags),
      flags.has .forkId = false → ∀ amount amount' : UInt64,
        (v.verifyScript unlocking locking tx index flags amount).1 =
          (v.verifyScript unlocking locking tx index flags amount').1 := by
  refine ⟨fun r unlocking locking h hasked context input =>
    verdict_of_context_none h hasked (some context) input, ?_⟩
  intro v unlocking locking tx index flags h amount amount'
  unfold Verifier.verifyScript
  by_cases hindex : index < tx.inputs.length
  · rw [if_pos hindex, if_pos hindex]
    exact congrArg Verification.ofVerdict
      (verdict_of_amounts v h unlocking locking ⟨tx, index, amount⟩ amount')
  · rw [if_neg hindex, if_neg hindex]

/-- Without its flag the check of a lock time does nothing, and a lock made of it is opened even for
an input that the transaction does not have.  An empty signature is answered alike for two
amounts. -/
theorem transaction_independent_of_missing_input :
    let tx : Transaction := ⟨1, [⟨⟨.zero 32, 0⟩, [], 0xffffffff, none⟩], [], 0⟩
    let v : Verifier := ⟨.secp256k1, .consensus⟩
    (execute ⟨.consensus, .none, .secp256k1, some (BoundInput.context ⟨tx, 0, 1⟩), 7⟩
      [0x55] [0xb1]).verdict = .ok () ∧
    (v.verifyScript [0x00, 0x00] [0xac] tx 0 .none 0).1 =
      (v.verifyScript [0x00, 0x00] [0xac] tx 0 .none 5000000000).1 := by
  intro tx v
  obtain ⟨hmissing, hamount⟩ := transaction_independent
  have hok : (execute ⟨.consensus, .none, .secp256k1, none, 0⟩ [0x55] [0xb1]).verdict = .ok () := by
    decide +kernel
  refine ⟨?_, hamount v [0x00, 0x00] [0xac] tx 0 .none (by decide) 0 5000000000⟩
  refine (hmissing ⟨.consensus, .none, .secp256k1, none, 0⟩ [0x55] [0xb1] rfl ?_
    (BoundInput.context ⟨tx, 0, 1⟩) 7).trans hok
  intro fault herror
  rw [hok] at herror
  cases herror

end CoinScript
