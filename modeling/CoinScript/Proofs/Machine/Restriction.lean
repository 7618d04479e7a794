import CoinScript.Proofs.Machine.Looser
import CoinScript.Proofs.Machine.Verdict

/-!
# Flags that only restrict

A flag is restrictive if setting it can turn an accepted spend into a refused one but never the
other way round.  Most flags are.  The two checks of lock times are, as long as upgradable opcodes
were not discouraged before: discouraging refuses an opcode that does nothing, and with its flag a
check of a lock time no longer does nothing.  The flag for the digest with the amount changes what
signatures commit to, and the two gates let opcodes through; these are not restrictive.

`execute_ok_of_restricted` says that a spend accepted under more restrictive flags is accepted
under fewer.  For one script this is `follows_script`.  What is left is the shape of a spend: with
locks by script hash a third script is run, and the clean stack is asked of what it leaves.
-/

namespace CoinScript

/-- Setting the flag never makes a spend accepted.  For checks of lock times this depends on whether
upgradable opcodes were discouraged. -/
def Flag.isRestrictive (discouraging : Bool) : Flag → Bool
  | .payToScriptHash | .strictEncoding | .derSignatures | .lowS | .minimalData | .cleanStack
  | .pushOnly | .nullDummy | .nullFail | .minimalIf | .discourageNops => true
  | .absoluteLockTime | .relativeLockTime => !discouraging
  | .forkId | .extendedA | .extendedB => false

namespace Flags

/-- `f'` is `f` with restrictive flags added. -/
structure Tightened (f f' : Flags) : Prop where
  includes : f'.includes f = true
  restrictive : ∀ x, f'.has x = true → f.has x = false →
    x.isRestrictive (f.has .discourageNops) = true

variable {f f' : Flags}

/-- A flag that is not restrictive is the same in both. -/
theorem Tightened.has_eq (h : f.Tightened f') {x : Flag}
    (hx : x.isRestrictive (f.has .discourageNops) = false) : f'.has x = f.has x := by
  cases hf : f.has x with
  | true => exact has_of_includes h.includes hf
  | false =>
    cases hf' : f'.has x with
    | false => rfl
    | true =>
      rw [h.restrictive x hf' hf] at hx
      cases hx

/-- The flags in force are compared as those that were asked for. -/
theorem Tightened.effective_restricts (h : f.Tightened f') :
    (Rules.effectiveFlags f').Restricts (Rules.effectiveFlags f) := by
  have hfork : f'.has .forkId = f.has .forkId := h.has_eq rfl
  constructor
  · intro x hx
    rw [Rules.has_effectiveFlags, Bool.or_eq_true] at hx ⊢
    rw [hfork]
    exact hx.imp_left (has_of_includes h.includes)
  · intro x hx
    have hfixed : x.isRestrictive (f.has .discourageNops) = false := by
      simp only [Flag.enabling, List.mem_cons, List.not_mem_nil, or_false] at hx
      rcases hx with rfl | rfl | rfl <;> rfl
    rw [Rules.has_effectiveFlags, Rules.has_effectiveFlags, hfork, h.has_eq hfixed]
  · intro x
    have hlock : decide (Run.lockTimeFlag x = .strictEncoding) = false := by cases x <;> rfl
    rw [Rules.has_effectiveFlags, Rules.has_effectiveFlags, Rules.has_effectiveFlags, hlock]
    simp only [Bool.and_false, Bool.or_false, reduceCtorEq, decide_false]
    intro hf' hf
    have hrestrictive := h.restrictive _ hf' hf
    cases x <;> simpa [Run.lockTimeFlag, Flag.isRestrictive] using hrestrictive

end Flags

namespace Run

/-- A run that cannot fail accepts whatever another accepts. -/
theorem accepts_of_total {α : Type} {x y : Run α} (h : ∀ m, ∃ a after, y m = .ok a after) :
    Accepts x y := fun _ m' _ _ _ _ => h m'

variable {r r' : Rules}

/-- The end of a spend: the third script, if there is one, and the clean stack. -/
theorem accepts_finish (h : r.Looser AnyFault r')
    (hclean : r'.flags.has .cleanStack = true → r'.flags.has .payToScriptHash = true)
    (hhash : r'.flags.has .payToScriptHash = true → r.flags.has .payToScriptHash = true)
    (isHash : Bool) (left : Stack) :
    Accepts
      (do
        if r.flags.has .payToScriptHash && isHash then redeem r left
        let depth := (← get).main.length
        require (!r.flags.has .cleanStack || depth == 1) (.notClean (depth - 1)))
      (do
        if r'.flags.has .payToScriptHash && isHash then redeem r' left
        let depth := (← get).main.length
        require (!r'.flags.has .cleanStack || depth == 1) (.notClean (depth - 1))) := by
  cases hset : r'.flags.has .payToScriptHash with
  | true =>
    rw [hhash hset]
    have hlast : Follows AnyFault
        (do
          let depth := (← get).main.length
          require (!r.flags.has .cleanStack || depth == 1) (.notClean (depth - 1)))
        (do
          let depth := (← get).main.length
          require (!r'.flags.has .cleanStack || depth == 1) (.notClean (depth - 1))) := by
      refine Follows.get_bind ?_
      rintro m _ ⟨j, rfl⟩
      exact follows_flag h .cleanStack (fun v => !v || m.main.length == 1) (fun _ => rfl) _
    refine Follows.accepts (follows_ite (fun _ => ?_) fun _ => hlast)
    exact (follows_redeem h left).bind fun _ => hlast
  | false =>
    -- nothing is left to do: no script is named, and no clean stack can be asked for
    have hnone : r'.flags.has .cleanStack = false := by
      cases hc : r'.flags.has .cleanStack with
      | false => rfl
      | true =>
        rw [hclean hc] at hset
        cases hset
    rw [hnone]
    exact accepts_of_total fun m => ⟨(), m, rfl⟩

/-- **A spend under looser rules.** -/
theorem accepts_spend (h : r.Looser AnyFault r')
    (hclean : r'.flags.has .cleanStack = true → r'.flags.has .payToScriptHash = true)
    (hhash : r'.flags.has .payToScriptHash = true → r.flags.has .payToScriptHash = true)
    (unlocking locking : Script) :
    Accepts (spend r unlocking locking) (spend r' unlocking locking) := by
  refine (follows_checkSize h .unlocking unlocking).bind_accepts fun _ => ?_
  refine (follows_checkSize h .locking locking).bind_accepts fun _ => ?_
  refine (follows_require_same _ _).bind_accepts fun _ => ?_
  refine (follows_parse unlocking).bind_accepts fun first => ?_
  refine (follows_parse locking).bind_accepts fun second => ?_
  refine (follows_flag h .pushOnly (fun v => !v || isPushOnly first) (fun _ => rfl)
    _).bind_accepts fun _ => ?_
  refine (follows_flag h .payToScriptHash
    (fun v => !(v && Script.isPayToScriptHash locking) || isPushOnly first) (fun _ => rfl)
    _).bind_accepts fun _ => ?_
  refine (follows_script h first).bind_accepts fun _ => Accepts.get_bind ?_
  rintro m _ ⟨j, rfl⟩
  refine (follows_script h second).bind_accepts fun _ => follows_checkTop.bind_accepts fun _ => ?_
  exact accepts_finish h hclean hhash _ _

end Run

/-- **Restrictive flags only restrict.**  Let the flags of `r` be such that they can be asked for,
and let `f` be these flags with restrictive ones added.  What is accepted under `f` is accepted
under the flags of `r`. -/
theorem execute_ok_of_restricted (r : Rules) (f : Flags) (unlocking locking : Script)
    (hr : ∃ e, r.effective = .ok e) (hf : r.flags.Tightened f)
    (h : (execute { r with flags := f } unlocking locking).verdict = .ok ()) :
    (execute r unlocking locking).verdict = .ok () := by
  obtain ⟨e, he⟩ := hr
  obtain ⟨strict, after, hstrict, hrun⟩ := execute_ok_iff.mp h
  refine execute_ok_iff.mpr ⟨e, ?_⟩
  obtain ⟨rfl, hclean⟩ := Rules.effective_eq_ok_iff.mp he
  obtain ⟨rfl, -⟩ := Rules.effective_eq_ok_iff.mp hstrict
  have hlooser : Rules.Looser Run.AnyFault
      { r with flags := Rules.effectiveFlags f }
      { r with flags := Rules.effectiveFlags r.flags } :=
    ⟨rfl, .of_eq rfl rfl, .inl rfl, .inr ⟨hf.effective_restricts, fun _ => trivial⟩⟩
  have hcleanInForce : (Rules.effectiveFlags r.flags).has .cleanStack = true →
      (Rules.effectiveFlags r.flags).has .payToScriptHash = true := by
    rw [Rules.has_effectiveFlags, Rules.has_effectiveFlags]
    simpa using hclean
  have hhash := hf.effective_restricts.has_of_has .payToScriptHash
  -- the two runs begin in machines that differ in the flags that the first event shows
  have hbegun : (Machine.begun { r with flags := f } unlocking locking).Alike
      (Machine.begun r unlocking locking) := ⟨_, rfl⟩
  obtain ⟨_, last, hlax⟩ := Run.accepts_spend hlooser hcleanInForce hhash unlocking locking
    _ _ hbegun () after hrun
  exact ⟨last, he, hlax⟩

/-- A lock by script hash that is opened under all flags but the gates is opened as well where
only the digest with the amount is asked for, and the script it names is not run. -/
theorem scriptHash_ok_without_restrictions :
    (execute ⟨.consensus, .ofList [.forkId], .secp256k1, none, 0⟩ [1, 0x51]
      (Script.payToScriptHash (hash160 [0x51]))).verdict = .ok () :=
  execute_ok_of_restricted ⟨.consensus, .ofList [.forkId], .secp256k1, none, 0⟩ .standard _ _
    ⟨_, rfl⟩ ⟨by decide, by intro x; cases x <;> decide⟩ (by decide +kernel)

end CoinScript
