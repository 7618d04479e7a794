import CoinScript.Proofs.Machine.Encodings
import CoinScript.Proofs.Machine.Following
import CoinScript.Proofs.Machine.Stepping
import CoinScript.Proofs.Machine.Verdict

/-!
# Looser rules

Rules are *looser* than others if they differ in one of four ways: some flags that only refuse are
not set, limits are higher, there is a transaction where there was none, or there is another
transaction that answers alike.  A run under the looser rules does what the run under the others
does, except that it may go on where the other stops with a fault of the kind that the difference
accounts for.

`Rules.Looser excused r r'` says this of the rules, and `follows_step`, `follows_script`,
`follows_redeem` say it of the machine.  The lemmas before them go through the operations family by
family; each says that an operation under `r'` follows the same operation under `r`.  Where no flag
is left out, whole spends and their verdicts are compared in the same way (`follows_spend`,
`verdict_eq_or_excused`).

## Which flags only refuse

`Flags.Restricts f f'` holds if `f` has every flag of `f'`, the same flag for the digest with the
amount and the same gates.  The two checks of lock times need more care.  Without its flag such a
check does nothing, and that is refused where upgradable opcodes are discouraged; so where `f` has
the flag and `f'` does not, `f'` must not discourage.

## What is learnt of the transaction

A transaction is asked for its version, its lock time, the sequence number of the input that is
spent, and digests for that input.  `Rules.AnswersAlike` compares two contexts in these answers
only; digests that commit to the amount are among them only under the flag for it.
-/

namespace CoinScript

/-- The flags that do not only refuse: the digest with the amount, and the two gates. -/
def Flag.enabling : List Flag := [.forkId, .extendedA, .extendedB]

namespace Flags

/-- `f` is `f'` with flags added that only refuse. -/
structure Restricts (f f' : Flags) : Prop where
  has_of_has : ∀ x, f'.has x = true → f.has x = true
  enabling : ∀ x ∈ Flag.enabling, f'.has x = f.has x
  lockTime : ∀ x, f.has (Run.lockTimeFlag x) = true → f'.has (Run.lockTimeFlag x) = false →
    f'.has .discourageNops = false

end Flags

namespace Limits

/-- No limit of `l` is above that of `l'`. -/
structure AtMost (l l' : Limits) : Prop where
  maxOps : l.maxOps ≤ l'.maxOps
  maxStackSize : l.maxStackSize ≤ l'.maxStackSize
  maxScriptSize : l.maxScriptSize ≤ l'.maxScriptSize
  maxElementSize : l.maxElementSize ≤ l'.maxElementSize
  maxNumberLength : l.maxNumberLength ≤ l'.maxNumberLength
  maxKeysPerMultisig : l.maxKeysPerMultisig ≤ l'.maxKeysPerMultisig

end Limits

namespace Rules

/-- What is asked of the transaction under `r` is answered alike by both contexts. -/
structure AnswersAlike (r r' : Rules) (c c' : Context) : Prop where
  input : r'.input = r.input
  lockTime : c'.lockTime = c.lockTime
  version : c'.version = c.version
  sequence : c'.sequence r.input = c.sequence r.input
  digest : ∀ code flag forkId, (forkId = true → r.flags.has .forkId = true) →
    c'.digest r.input code flag forkId = c.digest r.input code flag forkId

/-- Whatever is learnt of the transaction under `r` is learnt under `r'` as well. -/
inductive AsInformed (excused : Fault → Prop) (r r' : Rules) : Prop
  | unknown (h : r.context = none) (h' : r'.context = none)
  | told (h : r.context = none) (hexcused : ∀ op, excused (.missingContext op))
  | known {c c' : Context} (h : r.context = some c) (h' : r'.context = some c')
    (halike : r.AnswersAlike r' c c')

theorem AsInformed.of_eq {excused : Fault → Prop} {r r' : Rules} (hcontext : r'.context = r.context)
    (hinput : r'.input = r.input) : AsInformed excused r r' := by
  cases h : r.context with
  | none => exact .unknown h (hcontext.trans h)
  | some c => exact .known h (hcontext.trans h) ⟨hinput, rfl, rfl, rfl, fun _ _ _ _ => rfl⟩

/-- `r'` is `r` with something relaxed, and the faults by which `r` may refuse more are excused. -/
structure Looser (excused : Fault → Prop) (r r' : Rules) : Prop where
  scheme : r'.scheme = r.scheme
  informed : AsInformed excused r r'
  limits : r'.limits = r.limits ∨
    r.limits.AtMost r'.limits ∧ ∀ fault : Fault, fault.kind = .resourceLimitExceeded → excused fault
  flags : r'.flags = r.flags ∨ r.flags.Restricts r'.flags ∧ ∀ fault, excused fault

/-- Rules are looser than themselves, without any excuse. -/
theorem looser_refl (excused : Fault → Prop) (r : Rules) : Looser excused r r :=
  ⟨rfl, .of_eq rfl rfl, .inl rfl, .inl rfl⟩

end Rules

namespace Run

variable {excused : Fault → Prop} {r r' : Rules}

/-! ## The places where rules are read -/

/-- A bound on a size: beyond it the fault is of the kind that higher limits excuse. -/
theorem follows_limit (h : r.Looser excused r') (bound : Limits → Nat)
    (hbound : r.limits.AtMost r'.limits → bound r.limits ≤ bound r'.limits) (fault : Nat → Fault)
    (hkind : ∀ limit, (fault limit).kind = .resourceLimitExceeded) (size : Nat) :
    Follows excused (require (decide (size ≤ bound r.limits)) (fault (bound r.limits)))
      (require (decide (size ≤ bound r'.limits)) (fault (bound r'.limits))) := by
  rcases h.limits with heq | ⟨hle, hexcused⟩
  · rw [heq]
    exact follows_require_same _ _
  · refine follows_require (fun hc => ?_) fun _ => hexcused _ (hkind _)
    have hsize := of_decide_eq_true hc
    exact decide_eq_true (Nat.le_trans hsize (hbound hle))

/-- A condition that a flag may make fail. -/
theorem follows_flag (h : r.Looser excused r') (x : Flag) (c : Bool → Bool)
    (hc : c true = true → c false = true) (fault : Fault) :
    Follows excused (require (c (r.flags.has x)) fault) (require (c (r'.flags.has x)) fault) := by
  rcases h.flags with heq | ⟨hf, hexcused⟩
  · rw [heq]
    exact follows_require_same _ _
  · refine follows_require (fun hr => ?_) fun _ => hexcused _
    cases hx' : r'.flags.has x with
    | true =>
      rw [hf.has_of_has x hx'] at hr
      exact hr
    | false =>
      cases hx : r.flags.has x with
      | true =>
        rw [hx] at hr
        exact hc hr
      | false =>
        rw [hx] at hr
        exact hr

theorem has_of_has (h : r.Looser excused r') {x : Flag} (hx : r'.flags.has x = true) :
    r.flags.has x = true := by
  rcases h.flags with heq | ⟨hf, -⟩
  · rw [← heq, hx]
  · exact hf.has_of_has x hx

/-- A flag that does not only refuse is the same in both rules. -/
theorem has_eq_of_enabling (h : r.Looser excused r') {x : Flag} (hx : x ∈ Flag.enabling) :
    r'.flags.has x = r.flags.has x := by
  rcases h.flags with heq | ⟨hf, -⟩
  · rw [heq]
  · exact hf.enabling x hx

/-- If a flag is left out, the flags are the difference of the rules. -/
theorem restricts_of_left_out (h : r.Looser excused r') {x : Flag} (hx : r.flags.has x = true)
    (hx' : r'.flags.has x = false) :
    r.flags.Restricts r'.flags ∧ ∀ fault, excused fault := by
  rcases h.flags with heq | hf
  · rw [heq, hx] at hx'
    cases hx'
  · exact hf

/-- A computation that goes on with the transaction. -/
theorem follows_requireContext_bind {α : Type} (h : r.Looser excused r') (op : Opcode)
    {f g : Context → Run α} (hfg : ∀ c c', r.AnswersAlike r' c c' → Follows excused (f c) (g c')) :
    Follows excused (r.requireContext op >>= f) (r'.requireContext op >>= g) := by
  unfold Rules.requireContext
  cases h.informed with
  | unknown hnone hnone' =>
    rw [hnone, hnone']
    exact follows_throw _
  | told hnone hexcused =>
    rw [hnone]
    exact follows_throw_of_excused (hexcused op) _
  | @known c c' hsome hsome' halike =>
    rw [hsome, hsome']
    exact hfg c c' halike

/-! ## Numbers -/

/-- An operand that is read under the stricter format is the same number under the other. -/
theorem follows_asNumber (h : r.Looser excused r') {length length' : Nat}
    (hlength : length' = length ∨ length ≤ length' ∧
      ∀ fault : Fault, fault.kind = .resourceLimitExceeded → excused fault) (b : Bytes) :
    Follows excused (onMain (Stack.asNumber ⟨length, r.flags.has .minimalData⟩ b))
      (onMain (Stack.asNumber ⟨length', r'.flags.has .minimalData⟩ b)) := by
  have hlong : ∀ (m : Bool), length < b.length →
      onMain (Stack.asNumber ⟨length, m⟩ b) = throw (.number (.tooLong b length)) := by
    intro m hlt
    unfold Stack.asNumber Number.decode
    rw [if_pos hlt]
    rfl
  have hshort : ∀ (l : Nat) (m : Bool), b.length ≤ l →
      onMain (Stack.asNumber ⟨l, m⟩ b) =
        (require (!(m && Number.isPadded b)) (.number (.notMinimal b)) >>= fun _ =>
          pure (Number.value b)) := by
    intro l m hle
    unfold Stack.asNumber Number.decode require
    rw [if_neg (by simpa using hle)]
    cases m && Number.isPadded b <;> rfl
  have hsame : Follows excused
      (require (!(r.flags.has .minimalData && Number.isPadded b)) (.number (.notMinimal b)))
      (require (!(r'.flags.has .minimalData && Number.isPadded b)) (.number (.notMinimal b))) :=
    follows_flag h .minimalData (fun v => !(v && Number.isPadded b)) (fun _ => by simp) _
  rcases Nat.lt_or_ge length b.length with hlt | hle
  · rw [hlong _ hlt]
    rcases hlength with rfl | ⟨-, hexcused⟩
    · have hlong' : ∀ (m : Bool),
          onMain (Stack.asNumber ⟨length', m⟩ b) = throw (.number (.tooLong b length')) :=
        fun m => hlong m hlt
      rw [hlong']
      exact follows_throw _
    · exact follows_throw_of_excused (hexcused _ rfl) _
  · have hle' : b.length ≤ length' := by
      rcases hlength with rfl | ⟨hlength, -⟩
      · exact hle
      · exact Nat.le_trans hle hlength
    rw [hshort _ _ hle, hshort _ _ hle']
    exact hsame.bind fun _ => follows_pure _

theorem follows_popNumber (h : r.Looser excused r') :
    Follows excused (popNumber r) (popNumber r') := by
  unfold popNumber Stack.popNumber
  rw [onMain_bind, onMain_bind]
  refine (follows_onMain _).bind fun b => follows_asNumber h ?_ b
  rcases h.limits with heq | ⟨hle, hexcused⟩
  · exact .inl (by rw [heq])
  · exact .inr ⟨hle.maxNumberLength, hexcused⟩

/-! ## Numbers, byte strings and the stack -/

theorem follows_popTwoNumbers (h : r.Looser excused r') :
    Follows excused (popTwoNumbers r) (popTwoNumbers r') :=
  (follows_popNumber h).bind fun _ => (follows_popNumber h).bind fun _ => follows_pure _

theorem follows_shift (h : r.Looser excused r') (move : Bytes → Nat → Bytes) :
    Follows excused (shift r move) (shift r' move) :=
  (follows_popNumber h).bind fun _ => (follows_require_same _ _).bind fun _ =>
    follows_pop.bind fun _ => follows_push _

theorem follows_arithmetic (h : r.Looser excused r') (op : Opcode) (x : ArithmeticOp) :
    Follows excused (arithmetic r op x) (arithmetic r' op x) := by
  cases x with
  | unary f => exact (follows_popNumber h).bind fun _ => follows_pushNumber _
  | binary f => exact (follows_popTwoNumbers h).bind fun _ => follows_pushNumber _
  | quotient =>
    exact (follows_popTwoNumbers h).bind fun _ => (follows_require_same _ _).bind fun _ =>
      follows_pushNumber _
  | remainder =>
    exact (follows_popTwoNumbers h).bind fun _ => (follows_require_same _ _).bind fun _ =>
      follows_pushNumber _
  | shiftLeft => exact follows_shift h _
  | shiftRight => exact follows_shift h _
  | compare f checked =>
    exact (follows_popTwoNumbers h).bind fun _ => (follows_pushTruth _).bind fun _ =>
      follows_ite (fun _ => follows_verifyTop op) fun _ => follows_pure ()
  | within =>
    exact (follows_popNumber h).bind fun _ => (follows_popNumber h).bind fun _ =>
      (follows_popNumber h).bind fun _ => follows_pushTruth _

theorem follows_cat (h : r.Looser excused r') : Follows excused (cat r) (cat r') :=
  follows_pop.bind fun _ => follows_pop.bind fun _ =>
    (follows_limit h (·.maxElementSize) (·.maxElementSize) (.joinTooLong _) (fun _ => rfl) _).bind
      fun _ => follows_push _

theorem follows_split (h : r.Looser excused r') : Follows excused (split r) (split r') :=
  (follows_popNumber h).bind fun _ => follows_pop.bind fun _ =>
    (follows_require_same _ _).bind fun _ => (follows_push _).bind fun _ => follows_push _

theorem follows_numToBin (h : r.Looser excused r') :
    Follows excused (numToBin r) (numToBin r') :=
  (follows_popNumber h).bind fun _ => follows_pop.bind fun _ =>
    (follows_require_same _ _).bind fun _ =>
      (follows_limit h (·.maxElementSize) (·.maxElementSize) (.sizeTooLarge _) (fun _ => rfl)
        _).bind fun _ => (follows_require_same _ _).bind fun _ => follows_push _

theorem follows_binToNum (h : r.Looser excused r') :
    Follows excused (binToNum r) (binToNum r') :=
  follows_pop.bind fun _ =>
    (follows_limit h (·.maxNumberLength) (·.maxNumberLength) .numberTooWide (fun _ => rfl) _).bind
      fun _ => follows_push _

theorem follows_splice (h : r.Looser excused r') (x : SpliceOp) :
    Follows excused (splice r x) (splice r' x) := by
  cases x with
  | cat => exact follows_cat h
  | split => exact follows_split h
  | numToBin => exact follows_numToBin h
  | binToNum => exact follows_binToNum h
  | size => exact (follows_onMain _).bind fun _ => follows_pushNumber _

theorem follows_combine (f : UInt8 → UInt8 → UInt8) :
    Follows excused (combine f) (combine f) :=
  follows_pop.bind fun _ => follows_pop.bind fun _ => (follows_require_same _ _).bind fun _ =>
    follows_push _

theorem follows_bitwise (op : Opcode) (x : BitwiseOp) :
    Follows excused (bitwise op x) (bitwise op x) := by
  cases x with
  | invert => exact follows_pop.bind fun _ => follows_push _
  | and => exact follows_combine _
  | or => exact follows_combine _
  | xor => exact follows_combine _
  | equal checked =>
    exact follows_pop.bind fun _ => follows_pop.bind fun _ => (follows_pushTruth _).bind fun _ =>
      follows_ite (fun _ => follows_verifyTop op) fun _ => follows_pure ()

theorem follows_popIndex (h : r.Looser excused r') :
    Follows excused (popIndex r) (popIndex r') :=
  (follows_popNumber h).bind fun _ => (follows_require_same _ _).bind fun _ => follows_pure _

theorem follows_stack (h : r.Looser excused r') (x : StackOp) :
    Follows excused (stack r x) (stack r' x) := by
  cases x with
  | toAlt => exact follows_pop.bind fun _ => follows_onAlt _
  | fromAlt => exact (follows_onAlt _).bind fun _ => follows_push _
  | drop n => exact follows_onMain _
  | dup n => exact follows_onMain _
  | copyOver n => exact follows_onMain _
  | rot n => exact follows_onMain _
  | swap n => exact follows_onMain _
  | dupIfTrue =>
    exact (follows_onMain _).bind fun _ =>
      follows_ite (fun _ => follows_push _) fun _ => follows_pure ()
  | depth =>
    refine Follows.get_bind ?_
    rintro m _ ⟨j, rfl⟩
    exact follows_pushNumber _
  | nip => exact follows_onMain _
  | pick => exact (follows_popIndex h).bind fun _ => follows_onMain _
  | roll => exact (follows_popIndex h).bind fun _ => follows_onMain _
  | tuck => exact follows_onMain _

/-! ## Steering and lock times -/

/-- A check that only the first run makes. -/
theorem follows_require_bind {α : Type} {c : Bool} {fault : Fault} {x y : Run α}
    (hfault : excused fault) (h : Follows excused x y) :
    Follows excused (require c fault >>= fun _ => x) y := by
  cases c with
  | true => exact h
  | false => exact follows_throw_of_excused hfault _

/-- The shortest form of a condition is only asked for; its truth value is the same. -/
theorem follows_popCondition (h : r.Looser excused r') :
    Follows excused (popCondition r) (popCondition r') := by
  cases hx' : r'.flags.has .minimalIf with
  | false =>
    cases hx : r.flags.has .minimalIf with
    | false =>
      unfold popCondition
      rw [hx, hx']
      exact follows_onMain _
    | true =>
      obtain ⟨-, hexcused⟩ := restricts_of_left_out h hx hx'
      unfold popCondition Stack.popTruth
      rw [hx, hx', if_pos rfl, if_neg (by decide), onMain_bind]
      refine follows_pop.bind fun b => follows_require_bind (hexcused _) ?_
      match b with
      | [] => exact follows_pure _
      | [x] => exact follows_require_bind (hexcused _) (follows_pure _)
      | _ :: _ :: _ => exact follows_pure _
  | true =>
    unfold popCondition
    rw [has_of_has h hx', hx', if_pos rfl]
    refine follows_pop.bind fun b => (follows_require_same _ _).bind fun _ => ?_
    match b with
    | [] => exact follows_pure _
    | [x] => exact (follows_require_same _ _).bind fun _ => follows_pure _
    | _ :: _ :: _ => exact follows_pure _

theorem follows_flow (h : r.Looser excused r') (executing : Bool) (op : Opcode) (x : FlowOp) :
    Follows excused (flow r executing op x) (flow r' executing op x) := by
  cases x with
  | opening onTrue =>
    exact follows_ite (fun _ => (follows_popCondition h).bind fun _ => follows_onBranches _)
      fun _ => follows_onBranches _
  | turning => exact follows_onBranches _
  | closing => exact follows_onBranches _
  | verify => exact follows_verifyTop op
  | giveUp => exact follows_throw _

theorem follows_nop (h : r.Looser excused r') (op : Opcode) (upgradable : Bool) :
    Follows excused (nop r op upgradable) (nop r' op upgradable) :=
  follows_flag h .discourageNops (fun v => !(upgradable && v)) (fun _ => by simp) _

theorem follows_inputSequence {c c' : Context} (h : r.AnswersAlike r' c c') :
    Follows excused (inputSequence r c) (inputSequence r' c') := by
  unfold inputSequence
  rw [h.input, h.sequence]
  cases c.sequence r.input with
  | some n => exact follows_pure n
  | none => exact follows_throw _

theorem follows_checkAbsolute {c c' : Context} (h : r.AnswersAlike r' c c') (required : Nat) :
    Follows excused (checkAbsolute r c required) (checkAbsolute r' c' required) := by
  unfold checkAbsolute
  rw [h.lockTime]
  exact (follows_ofExcept_same _).bind fun _ => (follows_inputSequence h).bind fun _ =>
    follows_require_same _ _

theorem follows_checkRelative {c c' : Context} (h : r.AnswersAlike r' c c') (required : Nat) :
    Follows excused (checkRelative r c required) (checkRelative r' c' required) := by
  unfold checkRelative
  rw [h.version]
  exact follows_ite (fun _ => follows_pure ()) fun _ => (follows_require_same _ _).bind fun _ =>
    (follows_inputSequence h).bind fun _ => (follows_require_same _ _).bind fun _ =>
      follows_ofExcept_same _

/-- An operand of a lock time, whose greatest length is no limit of the rules. -/
theorem follows_peekOperand (h : r.Looser excused r') :
    Follows excused
      (onMain (Stack.peekNumber ⟨LockTime.operandLength, r.flags.has .minimalData⟩ 0))
      (onMain (Stack.peekNumber ⟨LockTime.operandLength, r'.flags.has .minimalData⟩ 0)) := by
  unfold Stack.peekNumber
  rw [onMain_bind, onMain_bind]
  exact (follows_onMain _).bind fun b => follows_asNumber h (.inl rfl) b

/-- Where both runs check, they check the same. -/
theorem follows_checked (h : r.Looser excused r') (op : Opcode)
    {check check' : Context → (required : Nat) → Run Unit}
    (hcheck : ∀ c c', r.AnswersAlike r' c c' → ∀ required,
      Follows excused (check c required) (check' c' required)) :
    Follows excused
      (do
        let c ← r.requireContext op
        let n ← onMain (Stack.peekNumber ⟨LockTime.operandLength, r.flags.has .minimalData⟩ 0)
        require (decide (0 ≤ n)) (.negativeLockTime n)
        check c n.toNat)
      (do
        let c ← r'.requireContext op
        let n ← onMain (Stack.peekNumber ⟨LockTime.operandLength, r'.flags.has .minimalData⟩ 0)
        require (decide (0 ≤ n)) (.negativeLockTime n)
        check' c n.toNat) :=
  follows_requireContext_bind h op fun c c' halike => (follows_peekOperand h).bind fun _ =>
    (follows_require_same _ _).bind fun _ => hcheck c c' halike _

/-- Doing nothing follows a run that changes nothing, if all its faults are excused. -/
theorem follows_nothing {x : Run Unit} (hx : Moves (fun m m' => m' = m) x)
    (hexcused : ∀ fault, excused fault) : Follows excused x (pure ()) := by
  intro m m' hm
  cases hres : x m with
  | error fault after => exact .excused (hexcused fault)
  | ok u after =>
    rw [hx m u after hres]
    exact .ok hm

/-- Without its flag the check does nothing, and what the first run checks is only left out. -/
theorem follows_lockTime (h : r.Looser excused r') (op : Opcode) (x : LockTimeOp) :
    Follows excused (lockTime r op x) (lockTime r' op x) := by
  cases hx : r.flags.has (lockTimeFlag x) with
  | true =>
    cases hx' : r'.flags.has (lockTimeFlag x) with
    | true =>
      unfold lockTime
      rw [hx, hx', if_pos rfl, if_pos rfl]
      cases x with
      | absolute => exact follows_checked h op fun _ _ => follows_checkAbsolute
      | relative => exact follows_checked h op fun _ _ => follows_checkRelative
    | false =>
      obtain ⟨hf, hexcused⟩ := restricts_of_left_out h hx hx'
      have hnop : lockTime r' op x = pure () := by
        unfold lockTime nop
        rw [hx', hf.lockTime x hx hx']
        rfl
      rw [hnop]
      exact follows_nothing (moves_lockTime chainable_eq r op x) hexcused
  | false =>
    have hx' : r'.flags.has (lockTimeFlag x) = false := by
      cases hset : r'.flags.has (lockTimeFlag x) with
      | false => rfl
      | true =>
        rw [has_of_has h hset] at hx
        cases hx
    unfold lockTime
    rw [hx, hx']
    exact follows_nop h op true

/-! ## Hashes and signatures -/

theorem usesForkId_eq (h : r.Looser excused r') (sig : Bytes) :
    r'.usesForkId sig = r.usesForkId sig := by
  unfold Rules.usesForkId
  rw [has_eq_of_enabling h (.head _ : Flag.forkId ∈ Flag.enabling)]

/-- Two checks of an encoding, of which the second is the same or weaker. -/
theorem follows_check (check : Rules → Except Fault Unit) (h : r.Looser excused r')
    (hsame : r'.flags = r.flags → check r' = check r)
    (hweaker : r.flags.Restricts r'.flags → check r = .ok () → check r' = .ok ()) :
    Follows excused (ofExcept (check r)) (ofExcept (check r')) := by
  rcases h.flags with heq | ⟨hf, hexcused⟩
  · rw [hsame heq]
    exact follows_ofExcept_same _
  · exact follows_ofExcept (fun _ hok => hweaker hf hok) fun fault _ => .inl (hexcused fault)

theorem checkSighashByte_of_restricts (hf : r.flags.Restricts r'.flags) {b : UInt8}
    (h : r.checkSighashByte b = .ok ()) : r'.checkSighashByte b = .ok () := by
  rw [Rules.checkSighashByte_eq_ok_iff] at h ⊢
  intro hstrict
  rw [hf.enabling .forkId (.head _)]
  exact h (hf.has_of_has _ hstrict)

theorem checkDer_of_restricts (hf : r.flags.Restricts r'.flags) {der : Bytes}
    (h : r.checkDer der = .ok ()) : r'.checkDer der = .ok () := by
  rw [Rules.checkDer_eq_ok_iff] at h ⊢
  intro hany
  have hany' : r.flags.hasAny [.derSignatures, .lowS, .strictEncoding] = true := by
    obtain ⟨x, hx, hhas⟩ := List.any_eq_true.mp hany
    exact List.any_eq_true.mpr ⟨x, hx, hf.has_of_has x hhas⟩
  exact ⟨(h hany').1, fun hlow => (h hany').2 (hf.has_of_has _ hlow)⟩

/-- The encoding of a signature is refused at most by the first rules. -/
theorem follows_checkSignature (h : r.Looser excused r') (sig : Bytes) :
    Follows excused (ofExcept (r.checkSignature sig)) (ofExcept (r'.checkSignature sig)) := by
  refine follows_check (fun r => r.checkSignature sig) h (fun heq => ?_) fun hf hok => ?_
  · unfold Rules.checkSignature Rules.checkSighashByte Rules.checkDer
    rw [heq]
  · rw [Rules.checkSignature_eq_ok_iff] at hok ⊢
    intro b hb
    exact ⟨checkSighashByte_of_restricts hf (hok b hb).1, checkDer_of_restricts hf (hok b hb).2⟩

theorem follows_checkKey (h : r.Looser excused r') (key : Bytes) :
    Follows excused (ofExcept (r.checkKey key)) (ofExcept (r'.checkKey key)) := by
  refine follows_check (fun r => r.checkKey key) h (fun heq => ?_) fun hf hok => ?_
  · unfold Rules.checkKey
    rw [heq]
  · rw [Rules.checkKey_eq_ok_iff] at hok ⊢
    exact fun hstrict => hok (hf.has_of_has _ hstrict)

theorem follows_askDigest {c c' : Context} (h : r.AnswersAlike r' c c') (code : Bytes)
    (flag : SighashFlag) {forkId : Bool} (hforkId : forkId = true → r.flags.has .forkId = true) :
    Follows excused (askDigest r c code flag forkId) (askDigest r' c' code flag forkId) := by
  unfold askDigest
  rw [h.input, h.digest code flag forkId hforkId]
  refine (follows_journal (fun j => ⟨_ ++ j.events, _ :: j.requests⟩)
    fun j => ⟨_ ++ j.events, _ :: j.requests⟩).bind fun _ => ?_
  cases c.digest r.input code flag forkId with
  | ok digest => exact follows_pure digest
  | error cause => exact follows_throw _

theorem forkId_of_usesForkId {sig : Bytes} (h : r.usesForkId sig = true) :
    r.flags.has .forkId = true := (Bool.and_eq_true_iff.mp h).1

theorem follows_checkSig (h : r.Looser excused r') {c c' : Context} (hc : r.AnswersAlike r' c c')
    (sig key code : Bytes) :
    Follows excused (checkSig r c sig key code) (checkSig r' c' sig key code) := by
  unfold checkSig
  rw [h.scheme, usesForkId_eq h]
  cases sig.getLast? with
  | none => exact follows_pure false
  | some b =>
    cases Signature.ofDerLax sig.dropLast with
    | error _ => exact follows_pure false
    | ok s =>
      cases r.scheme.decodeKey key with
      | none => exact follows_pure false
      | some k =>
        exact (follows_askDigest hc code _ forkId_of_usesForkId).bind fun _ => follows_pure _

theorem follows_currentPart (script : List Instruction) :
    Follows excused (currentPart script) (currentPart script) := by
  refine Follows.get_bind ?_
  rintro m _ ⟨j, rfl⟩
  exact follows_pure _

theorem codeFor_eq (h : r.Looser excused r') (part : List Instruction) (legacy : List Bytes)
    (sig : Bytes) : codeFor r' part legacy sig = codeFor r part legacy sig := by
  unfold codeFor
  rw [usesForkId_eq h]

theorem follows_checkSingle (h : r.Looser excused r') (script : List Instruction) (op : Opcode) :
    Follows excused (checkSingle r script op) (checkSingle r' script op) := by
  refine follows_requireContext_bind h op fun c c' hc => follows_pop.bind fun key =>
    follows_pop.bind fun sig => (follows_checkSignature h sig).bind fun _ =>
    (follows_checkKey h key).bind fun _ => (follows_currentPart script).bind fun part => ?_
  rw [codeFor_eq h]
  exact (follows_checkSig h hc sig key _).bind fun valid =>
    (follows_flag h .nullFail (fun v => valid || !v || sig.isEmpty) (by cases valid <;> simp)
      _).bind fun _ => follows_pushTruth valid

theorem follows_matchKeys {check check' : (sig key : Bytes) → Run Bool}
    (h : ∀ sig key, Follows excused (check sig key) (check' sig key)) (keys sigs : List Bytes) :
    Follows excused (matchKeys check keys sigs) (matchKeys check' keys sigs) := by
  induction keys generalizing sigs with
  | nil => cases sigs <;> exact follows_pure _
  | cons key keys ih =>
    cases sigs with
    | nil => exact follows_pure true
    | cons sig sigs =>
      exact follows_ite (fun _ => follows_pure false) fun _ => (h sig key).bind fun _ =>
        follows_ite (fun _ => ih sigs) fun _ => ih (sig :: sigs)

theorem follows_checkPair (h : r.Looser excused r') {c c' : Context}
    (hc : r.AnswersAlike r' c c') (part : List Instruction) (legacy : List Bytes)
    (sig key : Bytes) :
    Follows excused (checkPair r c part legacy sig key) (checkPair r' c' part legacy sig key) := by
  unfold checkPair
  rw [codeFor_eq h]
  exact (follows_checkSignature h sig).bind fun _ => (follows_checkKey h key).bind fun _ =>
    follows_checkSig h hc sig key _

theorem follows_countOperations (h : r.Looser excused r') (n : Nat) :
    Follows excused (countOperations r n) (countOperations r' n) := by
  refine (follows_modify ?_).bind fun _ => Follows.get_bind ?_
  · rintro m _ ⟨j, rfl⟩
    exact ⟨j, rfl⟩
  · rintro m _ ⟨j, rfl⟩
    exact follows_limit h (·.maxOps) (·.maxOps) .tooManyOperations (fun _ => rfl) _

theorem follows_popCounted (h : r.Looser excused r') {limit limit' : Nat}
    {fault fault' : Int → Fault} {before before' : Nat → Run Unit}
    (hlimit : ∀ n : Int, Follows excused (require (decide (0 ≤ n ∧ n ≤ limit)) (fault n))
      (require (decide (0 ≤ n ∧ n ≤ limit')) (fault' n)))
    (hbefore : ∀ n, Follows excused (before n) (before' n)) :
    Follows excused (popCounted r limit fault before) (popCounted r' limit' fault' before') :=
  (follows_popNumber h).bind fun _ => (hlimit _).bind fun _ => (hbefore _).bind fun _ =>
    follows_onMain _

theorem follows_checkMultiple (h : r.Looser excused r') (script : List Instruction)
    (op : Opcode) :
    Follows excused (checkMultiple r script op) (checkMultiple r' script op) := by
  refine follows_requireContext_bind h op fun c c' hc => ?_
  refine (follows_popCounted h ?_ (follows_countOperations h)).bind fun keys => ?_
  · intro n
    rcases h.limits with heq | ⟨hle, hexcused⟩
    · rw [heq]
      exact follows_require_same _ _
    · refine follows_require (fun hc => ?_) fun _ => hexcused _ rfl
      have hn := of_decide_eq_true hc
      have hkeys := hle.maxKeysPerMultisig
      exact decide_eq_true (by omega)
  refine (follows_popCounted h (fun _ => follows_require_same _ _)
    fun _ => follows_pure ()).bind fun sigs => follows_pop.bind fun dummy => ?_
  refine (follows_flag h .nullDummy (fun v => dummy.isEmpty || !v) (by simp) _).bind fun _ => ?_
  refine (follows_currentPart script).bind fun part => ?_
  have hlegacy : (sigs.filter fun sig => !r'.usesForkId sig) =
      sigs.filter fun sig => !r.usesForkId sig := by
    simp only [usesForkId_eq h]
  rw [hlegacy]
  refine (follows_matchKeys (follows_checkPair h hc part _) keys sigs).bind fun valid => ?_
  exact (follows_flag h .nullFail (fun v => valid || !v || sigs.all List.isEmpty)
    (by cases valid <;> simp) _).bind fun _ => follows_pushTruth valid

theorem follows_crypto (h : r.Looser excused r') (script : List Instruction) (offset : Nat)
    (op : Opcode) (x : CryptoOp) :
    Follows excused (crypto r script offset op x) (crypto r' script offset op x) := by
  cases x with
  | hash f => exact follows_pop.bind fun _ => follows_push _
  | codeSeparator =>
    refine follows_modify ?_
    rintro m _ ⟨j, rfl⟩
    exact ⟨j, rfl⟩
  | checkSig checked =>
    exact (follows_checkSingle h script op).bind fun _ =>
      follows_ite (fun _ => follows_verifyTop op) fun _ => follows_pure ()
  | checkMultisig checked =>
    exact (follows_checkMultiple h script op).bind fun _ =>
      follows_ite (fun _ => follows_verifyTop op) fun _ => follows_pure ()

/-! ## Instructions and scripts -/

theorem follows_perform (h : r.Looser excused r') (script : List Instruction) (offset : Nat)
    (executing : Bool) (i : Instruction) :
    Follows excused (perform r script offset executing i)
      (perform r' script offset executing i) := by
  unfold perform
  cases i.operation with
  | push => exact follows_push _
  | flow x => exact follows_flow h executing _ x
  | stack x => exact follows_stack h x
  | splice x => exact follows_splice h x
  | bitwise x => exact follows_bitwise _ x
  | arithmetic x => exact follows_arithmetic h _ x
  | crypto x => exact follows_crypto h script offset _ x
  | lockTime x => exact follows_lockTime h _ x
  | nop upgradable => exact follows_nop h _ upgradable
  | reserved always => exact follows_throw _
  | disabled => exact follows_throw _
  | invalid => exact follows_throw _

theorem follows_checkGate (h : r.Looser excused r') (op : Opcode) (x : Operation) :
    Follows excused (checkGate r op x) (checkGate r' op x) := by
  unfold checkGate
  have hA : r'.flags.has .extendedA = r.flags.has .extendedA :=
    has_eq_of_enabling h (by decide)
  have hB : r'.flags.has .extendedB = r.flags.has .extendedB :=
    has_eq_of_enabling h (by decide)
  rw [hA, hB]
  cases x.gate with
  | always => exact follows_pure ()
  | extendedA => exact follows_require_same _ _
  | extendedB => exact follows_require_same _ _
  | never => exact follows_throw _

theorem follows_checkExecuted (h : r.Looser excused r') (i : Instruction) :
    Follows excused (checkExecuted r i) (checkExecuted r' i) := by
  refine (follows_flag h .minimalData
    (fun v => !(v && decide (i.code ≤ 0x4e)) || i.isMinimal) (by simp) _).bind fun _ =>
      Follows.get_bind ?_
  rintro m _ ⟨j, rfl⟩
  exact follows_require_same _ _

theorem follows_inspect (h : r.Looser excused r') (i : Instruction) :
    Follows excused (inspect r i) (inspect r' i) := by
  refine (follows_limit h (·.maxElementSize) (·.maxElementSize) (.elementTooLong _)
    (fun _ => rfl) _).bind fun _ => ?_
  refine (follows_checkGate h i.code i.operation).bind fun _ => ?_
  exact follows_ite (fun _ => follows_countOperations h 1) fun _ => follows_pure ()

theorem follows_enter (h : r.Looser excused r') (script : List Instruction) (offset : Nat)
    (i : Instruction) :
    Follows excused (enter r script offset i) (enter r' script offset i) := by
  refine Follows.get_bind ?_
  rintro m _ ⟨j, rfl⟩
  refine follows_ite (fun _ => Follows.get_bind ?_) fun _ => follows_pure ()
  intro n n' _
  refine (follows_record _ _).bind fun _ => ?_
  cases m.branches.isExecuting with
  | true =>
    exact (follows_checkExecuted h i).bind fun _ => follows_perform h script offset true i
  | false => exact follows_perform h script offset false i

theorem follows_step (h : r.Looser excused r') (script : List Instruction) (offset : Nat)
    (i : Instruction) :
    Follows excused (step r script offset i) (step r' script offset i) := by
  rw [step_eq, step_eq]
  exact (follows_inspect h i).bind fun _ => follows_enter h script offset i

theorem follows_instructions (h : r.Looser excused r') (script : List Instruction) (offset : Nat)
    (is : List Instruction) :
    Follows excused (instructions r script offset is) (instructions r' script offset is) := by
  induction is generalizing offset with
  | nil => exact follows_pure ()
  | cons i is ih =>
    refine (follows_step h script offset i).bind fun _ => Follows.get_bind ?_
    rintro m _ ⟨j, rfl⟩
    exact (follows_limit h (·.maxStackSize) (·.maxStackSize) (.tooManyElements _)
      (fun _ => rfl) _).bind fun _ => ih (offset + 1)

theorem follows_script (h : r.Looser excused r') (is : List Instruction) :
    Follows excused (script r is) (script r' is) := by
  refine (follows_modify ?_).bind fun _ => (follows_instructions h is 0 is).bind fun _ =>
    Follows.get_bind ?_
  · rintro m _ ⟨j, rfl⟩
    exact ⟨j, rfl⟩
  · rintro m _ ⟨j, rfl⟩
    refine (follows_require_same _ _).bind fun _ => follows_modify ?_
    rintro m _ ⟨j, rfl⟩
    exact ⟨j, rfl⟩

/-! ## Spends -/

theorem follows_checkTop : Follows excused checkTop checkTop := by
  refine Follows.get_bind ?_
  rintro m _ ⟨j, rfl⟩
  exact (follows_require_same _ _).bind fun _ => (follows_onMain _).bind fun _ =>
    follows_require_same _ _

theorem follows_checkSize (h : r.Looser excused r') (role : ScriptRole) (s : Script) :
    Follows excused (checkSize r role s) (checkSize r' role s) :=
  follows_limit h (·.maxScriptSize) (·.maxScriptSize) (.scriptTooLong role s.length)
    (fun _ => rfl) _

theorem follows_parse (s : Script) : Follows excused (parse s) (parse s) :=
  (follows_require_same _ _).bind fun _ => follows_pure _

theorem follows_redeem (h : r.Looser excused r') (left : Stack) :
    Follows excused (redeem r left) (redeem r' left) := by
  cases left with
  | nil => exact follows_throw _
  | cons s below =>
    refine (follows_checkSize h .redeem s).bind fun _ => (follows_record _ _).bind fun _ =>
      (follows_parse s).bind fun is => (follows_modify ?_).bind fun _ =>
      (follows_script h is).bind fun _ => follows_checkTop
    rintro m _ ⟨j, rfl⟩
    exact ⟨j, rfl⟩

/-- The end of a spend, after the top of the stack has been looked at. -/
theorem follows_finish (h : r.Looser excused r') (hflags : r'.flags = r.flags) (named : Bool)
    (left : Stack) :
    Follows excused
      (do
        if named then redeem r left
        let depth := (← get).main.length
        require (!r.flags.has .cleanStack || depth == 1) (.notClean (depth - 1)))
      (do
        if named then redeem r' left
        let depth := (← get).main.length
        require (!r'.flags.has .cleanStack || depth == 1) (.notClean (depth - 1))) := by
  rw [hflags]
  have hclean : Follows excused
      (do
        let depth := (← get).main.length
        require (!r.flags.has .cleanStack || depth == 1) (.notClean (depth - 1)))
      (do
        let depth := (← get).main.length
        require (!r.flags.has .cleanStack || depth == 1) (.notClean (depth - 1))) := by
    refine Follows.get_bind ?_
    rintro m _ ⟨j, rfl⟩
    exact follows_require_same _ _
  exact follows_ite (fun _ => (follows_redeem h left).bind fun _ => hclean) fun _ => hclean

/-- Where the flags are the same, the whole spend is compared. -/
theorem follows_spend (h : r.Looser excused r') (hflags : r'.flags = r.flags)
    (unlocking locking : Script) :
    Follows excused (spend r unlocking locking) (spend r' unlocking locking) := by
  have hfinish := follows_finish h hflags
  rw [hflags] at hfinish
  unfold spend
  rw [hflags]
  refine (follows_checkSize h .unlocking unlocking).bind fun _ =>
    (follows_checkSize h .locking locking).bind fun _ => (follows_require_same _ _).bind fun _ =>
    (follows_parse unlocking).bind fun first => (follows_parse locking).bind fun second =>
    (follows_require_same _ _).bind fun _ => (follows_require_same _ _).bind fun _ =>
    (follows_script h first).bind fun _ => Follows.get_bind ?_
  rintro m _ ⟨j, rfl⟩
  exact (follows_script h second).bind fun _ => follows_checkTop.bind fun _ => hfinish _ m.main

/-- The verdicts that go with two results that are compared. -/
theorem Answers.verdictOf {x y : EStateM.Result Fault Machine Unit} (h : Answers excused x y) :
    CoinScript.verdictOf x = CoinScript.verdictOf y ∨
      ∃ fault, excused fault ∧ CoinScript.verdictOf x = .error fault := by
  cases h with
  | ok _ => exact .inl rfl
  | error => exact .inl rfl
  | excused he => exact .inr ⟨_, he, rfl⟩

end Run

/-- **Verdicts under looser rules.**  Rules that are the same but for what is relaxed, and have the
same flags, give the same verdict, unless the verdict under the first is an excused fault.  It is
enough to compare the rules with the flags that are in force. -/
theorem verdict_eq_or_excused_of_effective {excused : Fault → Prop} (r r' : Rules)
    (hflags : r'.flags = r.flags)
    (hlooser : Rules.Looser excused { r with flags := Rules.effectiveFlags r.flags }
      { r' with flags := Rules.effectiveFlags r.flags })
    (unlocking locking : Script) :
    (execute r unlocking locking).verdict = (execute r' unlocking locking).verdict ∨
      ∃ fault, excused fault ∧ (execute r unlocking locking).verdict = .error fault := by
  cases he : r.effective with
  | error fault =>
    have he' : r'.effective = .error fault := by
      rw [Rules.effective_eq_error_iff] at he ⊢
      rwa [hflags]
    rw [verdict_of_effective_error he, verdict_of_effective_error he']
    exact .inl rfl
  | ok e =>
    obtain ⟨rfl, haccepted⟩ := Rules.effective_eq_ok_iff.mp he
    have he' : r'.effective = .ok { r' with flags := Rules.effectiveFlags r.flags } :=
      Rules.effective_eq_ok_iff.mpr (by rw [hflags]; exact ⟨rfl, haccepted⟩)
    rw [verdict_of_effective he, verdict_of_effective he']
    -- the two runs begin with the same machine but for the journal
    have hbegun : (Machine.begun r unlocking locking).Alike (Machine.begun r' unlocking locking) :=
      ⟨_, rfl⟩
    exact (Run.follows_spend hlooser rfl unlocking locking _ _ hbegun).verdictOf

/-- Verdicts under rules that are looser whatever the flags are. -/
theorem verdict_eq_or_excused {excused : Fault → Prop} (r r' : Rules)
    (hflags : r'.flags = r.flags)
    (hlooser : ∀ flags, Rules.Looser excused { r with flags } { r' with flags })
    (unlocking locking : Script) :
    (execute r unlocking locking).verdict = (execute r' unlocking locking).verdict ∨
      ∃ fault, excused fault ∧ (execute r unlocking locking).verdict = .error fault :=
  verdict_eq_or_excused_of_effective r r' hflags (hlooser _) unlocking locking

end CoinScript
