import CoinScript.Proofs.Machine.Looser

/-!
# Higher limits

A limit is there to end a run, and should not take part in deciding it.  `verdict_of_atMost` says
that it does not: a spend that is decided under some limits, be it accepted or refused for a reason
other than a limit, is decided in the same way under all limits that are at least as high.

For the machine this is the comparison of runs under looser rules, with the faults excused that
report an exceeded limit.
-/

namespace CoinScript

namespace Rules

/-- Rules with higher limits are looser, if faults that report an exceeded limit are excused. -/
theorem looser_of_atMost (r : Rules) {limits : Limits} (h : r.limits.AtMost limits) :
    Looser (fun fault => fault.kind = .resourceLimitExceeded) r { r with limits } :=
  ⟨rfl, .of_eq rfl rfl, .inr ⟨h, fun _ hkind => hkind⟩, .inl rfl⟩

end Rules

/-- **Higher limits do not change what is decided.**  What is accepted stays accepted, and what is
refused, not for an exceeded limit, is refused with the same fault, and so with the same code and
in the same words. -/
theorem verdict_of_atMost (r : Rules) (limits : Limits) (unlocking locking : Script)
    (h : r.limits.AtMost limits) :
    ((execute r unlocking locking).verdict = .ok () →
      (execute { r with limits } unlocking locking).verdict = .ok ()) ∧
    ∀ fault, (execute r unlocking locking).verdict = .error fault →
      fault.failure.kind ≠ .resourceLimitExceeded →
      (execute { r with limits } unlocking locking).verdict = .error fault := by
  have hcases := verdict_eq_or_excused r { r with limits } rfl
    (fun flags => Rules.looser_of_atMost { r with flags } h) unlocking locking
  constructor
  · intro hok
    rw [hok] at hcases
    rcases hcases with hsame | ⟨fault, -, herror⟩
    · exact hsame.symm
    · cases herror
  · intro fault herror hkind
    rw [herror] at hcases
    rcases hcases with hsame | ⟨fault', hexceeded, hsame⟩
    · exact hsame.symm
    · cases hsame
      exact absurd hexceeded hkind

/-- Under the wider limits a lock by script hash is opened, and two elements that differ are
refused, as they are under the limits for blocks. -/
theorem relaxed_decides_as_consensus :
    (execute ⟨.relaxed, .standard, .secp256k1, none, 0⟩ [1, 0x51]
      (Script.payToScriptHash (hash160 [0x51]))).verdict = .ok () ∧
    (execute ⟨.relaxed, .standard, .secp256k1, none, 0⟩ [0x51, 0x52] [0x88, 0x51]).verdict =
      .error (.checkFailed 0x88) := by
  have hlimits : Limits.consensus.AtMost .relaxed := by
    constructor <;> decide
  obtain ⟨haccepted, -⟩ := verdict_of_atMost ⟨.consensus, .standard, .secp256k1, none, 0⟩ .relaxed
    [1, 0x51] (Script.payToScriptHash (hash160 [0x51])) hlimits
  obtain ⟨-, hrefused⟩ := verdict_of_atMost ⟨.consensus, .standard, .secp256k1, none, 0⟩ .relaxed
    [0x51, 0x52] [0x88, 0x51] hlimits
  exact ⟨haccepted (by decide +kernel), hrefused (.checkFailed 0x88) (by decide +kernel) (by decide)⟩

end CoinScript
