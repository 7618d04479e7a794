import CoinScript.Proofs.Machine.Evaluation

/-!
# What an operation may do

A `Law` says which machines a computation may leave: `moves` where it succeeds, and `fails`, which
also sees the fault, where it does not.  `Keeps L x m` says that the computation `x` does so on the
machine `m`.  If `moves` is reflexive and transitive and may stand in front of `fails`, programs
inherit the law from their parts (`Keeps.bind`), so that it holds of a whole operation as soon as it
holds of the elementary changes that the operation is made of.

Which faults are possible depends on the rules and on what the transaction answers
(`Fault.Possible`): a run that has a transaction with the input that is spent never stops for want
of one.  Faults of conditionals that do not match are raised by conditionals only; all others are
ordinary (`Fault.Ordinary`).

* `Law.Inherited`: the law is inherited by programs and allows every ordinary fault.
* `Law.Frames`: the law allows what almost every operation changes: the two stacks, and the count of
  operations.
* `Law.Steers`: the law allows what conditionals do.

Conditionals, the separator and the questions of a check of signatures change more than the other
operations, and each has to be allowed by itself (`Run.keeps_perform` in the module on trials); here
are all other operations.
-/

namespace CoinScript

/-- The faults that a run can stop with under the rules.  For want of a digest or of a sequence
number it stops only if the transaction refuses to give it. -/
def Fault.Possible (r : Rules) : Fault → Prop
  | .cleanStackWithoutScriptHash => False
  | .missingContext _ => r.context = none
  | .inputOutOfRange _ => ∃ c, r.context = some c ∧ c.sequence r.input = none
  | .context cause => ∃ c code b forkId, r.context = some c ∧
    c.digest r.input code (.ofByte b) forkId = .error cause
  | _ => True

/-- The machine itself finds that conditionals do not match.  A fault that only passes on why a
digest was refused is not meant, whatever its code. -/
def Fault.Unbalanced (fault : Fault) : Prop :=
  fault.code = .unbalancedConditional ∧ ∀ cause, fault ≠ .context cause

/-- The possible faults of operations other than conditionals. -/
def Fault.Ordinary (r : Rules) : Fault → Prop
  | .turnOutside | .turnAgain | .closeOutside | .neverClosed => False
  | fault => fault.Possible r

/-- The faults of checks that look at what is written only: at the encoding of a signature or a key,
and at two lock times. -/
def Fault.Formal : Fault → Prop
  | .sighashBase _ | .forkIdNotEnabled | .forkIdMissing | .keyEncoding | .der _ | .highS => True
  | .lockTimeKind .. | .lockTimeTooLate .. => True
  | _ => False

namespace Fault

variable {fault : Fault}

theorem Formal.ordinary {r : Rules} (h : fault.Formal) : fault.Ordinary r := by
  cases fault <;> first | exact h.elim | trivial

/-- The faults of conditionals, and those of missing elements. -/
def Structural : Fault → Prop
  | turnOutside | turnAgain | closeOutside | neverClosed => True
  | tooShallow .. | noElement .. | negativeIndex _ => True
  | _ => False

/-- No other faults of the machine have their codes. -/
theorem structural_of_code (hcontext : ∀ cause, fault ≠ .context cause)
    (hcode : fault.code = .unbalancedConditional ∨ fault.code = .invalidStackOperation) :
    fault.Structural := by
  rcases hcode with hcode | hcode
  all_goals
    cases fault with
    | context cause => exact absurd rfl (hcontext cause)
    | checkFailed op =>
      unfold code checkCode at hcode
      dsimp only at hcode
      split at hcode <;> cases hcode
    | number cause => cases cause <;> cases hcode
    | der cause =>
      cases cause with
      | missingIntegerTag which => cases which <;> cases hcode
      | zeroLengthInteger which => cases which <;> cases hcode
      | integerLengthOverflow which => cases which <;> cases hcode
      | negativeInteger which => cases which <;> cases hcode
      | excessivePadding which => cases which <;> cases hcode
      | _ => cases hcode
    | _ => first | exact trivial | cases hcode

/-- The four faults of conditionals. -/
theorem unbalanced_iff : fault.Unbalanced ↔ fault = .turnOutside ∨ fault = .turnAgain ∨
    fault = .closeOutside ∨ fault = .neverClosed := by
  constructor
  · rintro ⟨hcode, hcontext⟩
    have hstructural := structural_of_code hcontext (.inl hcode)
    cases fault with
    | turnOutside => exact .inl rfl
    | turnAgain => exact .inr (.inl rfl)
    | closeOutside => exact .inr (.inr (.inl rfl))
    | neverClosed => exact .inr (.inr (.inr rfl))
    | tooShallow | noElement | negativeIndex => cases hcode
    | _ => exact hstructural.elim
  · rintro (rfl | rfl | rfl | rfl) <;> exact ⟨rfl, fun _ h => nomatch h⟩

theorem Unbalanced.possible {r : Rules} (h : fault.Unbalanced) : fault.Possible r := by
  rcases unbalanced_iff.mp h with rfl | rfl | rfl | rfl <;> trivial

theorem Ordinary.possible {r : Rules} (h : fault.Ordinary r) : fault.Possible r := by
  unfold Ordinary at h
  split at h
  case h_5 => exact h
  all_goals exact h.elim

theorem Ordinary.not_unbalanced {r : Rules} (h : fault.Ordinary r) : ¬fault.Unbalanced := by
  intro hfault
  rcases unbalanced_iff.mp hfault with rfl | rfl | rfl | rfl <;> exact h

end Fault

/-! ## Stacks -/

namespace Stack

variable {α β : Type}

/-- The faults of the computations on a stack. -/
inductive Wants : Fault → Prop
  | element (index depth : Nat) : Wants (.noElement index depth)
  | number (cause : NumberError) : Wants (.number cause)

/-- Wherever the computation fails, it is for want of an element or of a number. -/
def Plain (x : StackM α) : Prop := ∀ s fault after, x s = .error fault after → Wants fault

theorem plain_pure (a : α) : Plain (pure a) := by
  intro s fault after h
  cases h

theorem Plain.bind {x : StackM α} {f : α → StackM β} (hx : Plain x) (hf : ∀ a, Plain (f a)) :
    Plain (x >>= f) := by
  intro s fault after h
  rcases bind_eq_error h with hfirst | ⟨a, s', -, hsecond⟩
  · exact hx s fault after hfirst
  · exact hf a s' fault after hsecond

theorem plain_push (b : Bytes) : Plain (push b) := by
  intro s fault after h
  cases h

theorem plain_peek (index : Nat) : Plain (peek index) := by
  intro s fault after h
  unfold peek at h
  cases hb : s[index]? with
  | some b =>
    rw [hb] at h
    cases h
  | none =>
    rw [hb] at h
    cases h
    exact .element index s.length

theorem plain_take (index : Nat) : Plain (take index) := by
  intro s fault after h
  unfold take at h
  cases hb : s[index]? with
  | some b =>
    rw [hb] at h
    cases h
  | none =>
    rw [hb] at h
    cases h
    exact .element index s.length

theorem plain_asNumber (format : Number.Format) (b : Bytes) : Plain (asNumber format b) := by
  intro s fault after h
  unfold asNumber at h
  cases hb : Number.decode format b with
  | ok n =>
    rw [hb] at h
    cases h
  | error cause =>
    rw [hb] at h
    cases h
    exact .number cause

theorem plain_pop : Plain pop := plain_take 0

theorem plain_popNumber (format : Number.Format) : Plain (popNumber format) :=
  plain_pop.bind (plain_asNumber format)

theorem plain_popTruth : Plain popTruth := plain_pop.bind fun _ => plain_pure _

theorem plain_popMany (n : Nat) : Plain (popMany n) := by
  induction n with
  | zero => exact plain_pure []
  | succ n ih => exact plain_pop.bind fun _ => ih.bind fun _ => plain_pure _

theorem plain_times {move : StackM Unit} (h : Plain move) (n : Nat) : Plain (times move n) := by
  induction n with
  | zero => exact plain_pure ()
  | succ n ih => exact h.bind fun _ => ih

theorem plain_pick (index : Nat) : Plain (pick index) := (plain_peek index).bind plain_push

theorem plain_roll (index : Nat) : Plain (roll index) := (plain_take index).bind plain_push

theorem plain_nip (index : Nat) : Plain (nip index) :=
  (plain_take index).bind fun _ => plain_pure ()

theorem plain_drop (n : Nat) : Plain (drop n) :=
  plain_times (plain_pop.bind fun _ => plain_pure ()) n

theorem plain_tuck : Plain tuck :=
  plain_pop.bind fun _ => plain_pop.bind fun _ => (plain_push _).bind fun _ =>
    (plain_push _).bind fun _ => plain_push _

end Stack

theorem Stack.Wants.ordinary {r : Rules} {fault : Fault} (h : Stack.Wants fault) :
    fault.Ordinary r := by
  cases h <;> trivial

/-! ## Laws -/

/-- The machines that a computation may leave. -/
structure Law where
  /-- Where it succeeds. -/
  moves : Machine → Machine → Prop
  /-- Where it stops with a fault. -/
  fails : Machine → Fault → Machine → Prop

namespace Law

/-- The law that looks at successes only. -/
def onSuccess (R : Machine → Machine → Prop) : Law := ⟨R, fun _ _ _ => True⟩

/-- Programs inherit the law from their parts, and may stop with a possible fault where they are. -/
structure Inherited (r : Rules) (L : Law) : Prop where
  refl : ∀ m, L.moves m m
  trans : ∀ {m m' m''}, L.moves m m' → L.moves m' m'' → L.moves m m''
  before : ∀ {m m' m'' fault}, L.moves m m' → L.fails m' fault m'' → L.fails m fault m''
  stop : ∀ m {fault : Fault}, fault.Ordinary r → L.fails m fault m

/-- The law allows the elementary changes of the operations. -/
structure Frames (r : Rules) (L : Law) : Prop extends Inherited r L where
  main : ∀ m main, L.moves m { m with main }
  alt : ∀ m alt, L.moves m { m with alt }
  count : ∀ m n, m.operations + n ≤ r.limits.maxOps →
    L.moves m { m with operations := m.operations + n }
  overcount : ∀ m n, r.limits.maxOps < m.operations + n →
    L.fails m (.tooManyOperations r.limits.maxOps) { m with operations := m.operations + n }

/-- The law allows what conditionals do: they change the open conditionals, and may find that they
do not match. -/
structure Steers (L : Law) : Prop where
  branches : ∀ m branches, L.moves m { m with branches }
  refuses : ∀ m {fault : Fault}, fault.Unbalanced → L.fails m fault m

end Law

namespace Run

variable {α β : Type} {r : Rules} {L : Law} {m : Machine}

/-- On this machine the computation does what the law allows. -/
def Keeps (L : Law) (x : Run α) (m : Machine) : Prop :=
  match x m with
  | .ok _ after => L.moves m after
  | .error fault after => L.fails m fault after

theorem keeps_of_ok {x : Run α} {a : α} {after : Machine} (h : x m = .ok a after)
    (hmoves : L.moves m after) : Keeps L x m := by
  unfold Keeps
  rw [h]
  exact hmoves

theorem keeps_of_error {x : Run α} {fault : Fault} {after : Machine}
    (h : x m = .error fault after) (hfails : L.fails m fault after) : Keeps L x m := by
  unfold Keeps
  rw [h]
  exact hfails

theorem Keeps.moves {x : Run α} {a : α} {after : Machine} (hx : Keeps L x m)
    (h : x m = .ok a after) : L.moves m after := by
  unfold Keeps at hx
  rwa [h] at hx

theorem Keeps.fails {x : Run α} {fault : Fault} {after : Machine} (hx : Keeps L x m)
    (h : x m = .error fault after) : L.fails m fault after := by
  unfold Keeps at hx
  rwa [h] at hx

/-! ## Programs -/

section

variable (hL : L.Inherited r)

include hL

theorem keeps_pure (a : α) : Keeps L (pure a) m := hL.refl m

theorem keeps_throw {fault : Fault} (h : fault.Ordinary r) : Keeps L (throw fault : Run α) m :=
  hL.stop m h

/-- A law passes from the parts to the whole.  Of the second part only that matters what it does
after the first. -/
theorem Keeps.bind {x : Run α} {f : α → Run β} (hx : Keeps L x m)
    (hf : ∀ a m', x m = .ok a m' → Keeps L (f a) m') : Keeps L (x >>= f) m := by
  cases hxm : x m with
  | ok a m' =>
    have hmoves := hx.moves hxm
    unfold Keeps
    rw [bind_of_ok hxm]
    cases hfm : f a m' with
    | ok b after => exact hL.trans hmoves ((hf a m' hxm).moves hfm)
    | error fault after => exact hL.before hmoves ((hf a m' hxm).fails hfm)
  | error fault m' => exact keeps_of_error (bind_of_error hxm) (hx.fails hxm)

omit hL in
theorem keeps_ite {p : Prop} [Decidable p] {x y : Run α} (hx : p → Keeps L x m)
    (hy : ¬p → Keeps L y m) : Keeps L (if p then x else y) m := by
  by_cases h : p
  · rw [if_pos h]
    exact hx h
  · rw [if_neg h]
    exact hy h

theorem keeps_require (c : Bool) {fault : Fault} (h : fault.Ordinary r) :
    Keeps L (require c fault) m :=
  keeps_ite (fun _ => keeps_pure hL ()) fun _ => keeps_throw hL h

omit hL in
/-- A check in front of a program, with a fault that the law allows here. -/
theorem keeps_require_bind_of_fails {c : Bool} {fault : Fault} {f : Unit → Run β}
    (h : L.fails m fault m) (hf : c = true → Keeps L (f ()) m) :
    Keeps L (require c fault >>= f) m := by
  cases c with
  | true => exact hf rfl
  | false => exact keeps_of_error rfl h

/-- A check in front of a program. -/
theorem keeps_require_bind {c : Bool} {fault : Fault} {f : Unit → Run β} (h : fault.Ordinary r)
    (hf : c = true → Keeps L (f ()) m) : Keeps L (require c fault >>= f) m :=
  keeps_require_bind_of_fails (hL.stop m h) hf

theorem keeps_ofExcept {x : Except Fault α} (h : ∀ fault, x = .error fault → fault.Formal) :
    Keeps L (ofExcept x) m := by
  cases x with
  | ok a => exact keeps_pure hL a
  | error fault => exact keeps_throw hL (h fault rfl).ordinary

theorem keeps_requireContext (op : Opcode) : Keeps L (r.requireContext op) m := by
  unfold Rules.requireContext
  cases hc : r.context with
  | some c => exact keeps_pure hL c
  | none => exact keeps_throw hL hc

/-! ## Lock times

A check of a lock time looks at the stack and at the transaction and changes nothing, so it keeps
every law that programs inherit. -/

omit hL in
theorem onMain_bind (x : StackM α) (f : α → StackM β) :
    onMain (x >>= f) = (onMain x >>= fun a => onMain (f a)) := by
  funext m
  show onMain (EStateM.bind x f) m = EStateM.bind (onMain x) (fun a => onMain (f a)) m
  unfold onMain EStateM.bind
  cases h : x m.main <;> simp only [h]

theorem keeps_peek (index : Nat) : Keeps L (onMain (Stack.peek index)) m := by
  unfold Keeps onMain Stack.peek
  cases m.main[index]? with
  | some b => exact hL.refl m
  | none => exact hL.stop m trivial

theorem keeps_asNumber (format : Number.Format) (b : Bytes) :
    Keeps L (onMain (Stack.asNumber format b)) m := by
  unfold Keeps onMain Stack.asNumber
  cases Number.decode format b with
  | ok n => exact hL.refl m
  | error cause => exact hL.stop m trivial

theorem keeps_peekNumber (format : Number.Format) (index : Nat) :
    Keeps L (onMain (Stack.peekNumber format index)) m := by
  unfold Stack.peekNumber
  rw [onMain_bind]
  exact (keeps_peek hL index).bind hL fun b _ _ => keeps_asNumber hL format b

theorem keeps_nop (op : Opcode) (upgradable : Bool) : Keeps L (nop r op upgradable) m :=
  keeps_require hL _ trivial

theorem keeps_inputSequence {c : Context} (hc : r.context = some c) :
    Keeps L (inputSequence r c) m := by
  unfold inputSequence
  cases hsequence : c.sequence r.input with
  | some n => exact keeps_pure hL n
  | none => exact keeps_throw hL ⟨c, hc, hsequence⟩

omit hL in
theorem formal_of_check {bound available required : Nat} {fault : Fault}
    (h : LockTime.check bound available required = .error fault) : fault.Formal := by
  unfold LockTime.check at h
  split at h
  · cases h
    trivial
  · split at h
    · cases h
      trivial
    · cases h

theorem keeps_lockTime (op : Opcode) (x : LockTimeOp) : Keeps L (lockTime r op x) m := by
  refine keeps_ite (fun _ => ?_) fun _ => keeps_nop hL op true
  refine (keeps_requireContext hL op).bind hL fun c _ hcontext => ?_
  obtain ⟨hc, -⟩ := requireContext_eq_ok hcontext
  refine (keeps_peekNumber hL _ 0).bind hL fun n _ _ =>
    keeps_require_bind hL trivial fun _ => ?_
  cases x with
  | absolute =>
    exact (keeps_ofExcept hL fun _ => formal_of_check).bind hL fun _ _ _ =>
      (keeps_inputSequence hL hc).bind hL fun _ _ _ => keeps_require hL _ trivial
  | relative =>
    exact keeps_ite (fun _ => keeps_pure hL ()) fun _ =>
      keeps_require_bind hL trivial fun _ =>
      (keeps_inputSequence hL hc).bind hL fun _ _ _ =>
      keeps_require_bind hL trivial fun _ =>
      keeps_ofExcept hL fun _ => formal_of_check

end

/-! ## The operations on the stacks -/

section

variable (hL : L.Frames r)

include hL

theorem keeps_onMain {x : StackM α} (hx : Stack.Plain x) : Keeps L (onMain x) m := by
  unfold Keeps onMain
  cases h : x m.main with
  | ok a s => exact hL.main m s
  | error fault s => exact hL.before (hL.main m s) (hL.stop _ (hx _ _ _ h).ordinary)

theorem keeps_onAlt {x : StackM α} (hx : Stack.Plain x) : Keeps L (onAlt x) m := by
  unfold Keeps onAlt
  cases h : x m.alt with
  | ok a s => exact hL.alt m s
  | error fault s => exact hL.before (hL.alt m s) (hL.stop _ (hx _ _ _ h).ordinary)

theorem keeps_pop : Keeps L pop m := keeps_onMain hL Stack.plain_pop

theorem keeps_popNumber : Keeps L (popNumber r) m := keeps_onMain hL (Stack.plain_popNumber _)

theorem keeps_push (b : Bytes) : Keeps L (push b) m := keeps_onMain hL (Stack.plain_push b)

theorem keeps_countOperations (n : Nat) : Keeps L (countOperations r n) m := by
  rcases Nat.lt_or_ge r.limits.maxOps (m.operations + n) with hmany | hle
  · exact keeps_of_error (countOperations_of_lt hmany) (hL.overcount m n hmany)
  · exact keeps_of_ok (countOperations_of_le hle) (hL.count m n hle)

theorem keeps_verifyTop (op : Opcode) : Keeps L (verifyTop op) m :=
  (keeps_onMain hL Stack.plain_popTruth).bind hL.toInherited fun _ _ _ =>
    keeps_require hL.toInherited _ trivial

theorem keeps_popCondition : Keeps L (popCondition r) m := by
  have hi := hL.toInherited
  refine keeps_ite (fun _ => ?_) fun _ => keeps_onMain hL Stack.plain_popTruth
  refine (keeps_pop hL).bind hi fun b _ _ => keeps_require_bind hi trivial fun _ => ?_
  match b with
  | [] => exact keeps_pure hi _
  | [x] => exact keeps_require_bind hi trivial fun _ => keeps_pure hi _
  | _ :: _ :: _ => exact keeps_pure hi _

theorem keeps_popTwoNumbers : Keeps L (popTwoNumbers r) m :=
  (keeps_popNumber hL).bind hL.toInherited fun _ _ _ =>
    (keeps_popNumber hL).bind hL.toInherited fun _ _ _ => keeps_pure hL.toInherited _

theorem keeps_shift (move : Bytes → Nat → Bytes) : Keeps L (shift r move) m :=
  (keeps_popNumber hL).bind hL.toInherited fun _ _ _ =>
    keeps_require_bind hL.toInherited trivial fun _ =>
    (keeps_pop hL).bind hL.toInherited fun _ _ _ => keeps_push hL _

theorem keeps_arithmetic (op : Opcode) (x : ArithmeticOp) : Keeps L (arithmetic r op x) m := by
  have hi := hL.toInherited
  cases x with
  | unary f => exact (keeps_popNumber hL).bind hi fun _ _ _ => keeps_push hL _
  | binary f => exact (keeps_popTwoNumbers hL).bind hi fun _ _ _ => keeps_push hL _
  | quotient =>
    exact (keeps_popTwoNumbers hL).bind hi fun _ _ _ =>
      keeps_require_bind hi trivial fun _ => keeps_push hL _
  | remainder =>
    exact (keeps_popTwoNumbers hL).bind hi fun _ _ _ =>
      keeps_require_bind hi trivial fun _ => keeps_push hL _
  | shiftLeft => exact keeps_shift hL _
  | shiftRight => exact keeps_shift hL _
  | compare f checked =>
    exact (keeps_popTwoNumbers hL).bind hi fun _ _ _ => (keeps_push hL _).bind hi fun _ _ _ =>
      keeps_ite (fun _ => keeps_verifyTop hL op) fun _ => keeps_pure hi ()
  | within =>
    exact (keeps_popNumber hL).bind hi fun _ _ _ => (keeps_popNumber hL).bind hi fun _ _ _ =>
      (keeps_popNumber hL).bind hi fun _ _ _ => keeps_push hL _

theorem keeps_splice (x : SpliceOp) : Keeps L (splice r x) m := by
  have hi := hL.toInherited
  cases x with
  | cat =>
    exact (keeps_pop hL).bind hi fun _ _ _ => (keeps_pop hL).bind hi fun _ _ _ =>
      keeps_require_bind hi trivial fun _ => keeps_push hL _
  | split =>
    exact (keeps_popNumber hL).bind hi fun _ _ _ => (keeps_pop hL).bind hi fun _ _ _ =>
      keeps_require_bind hi trivial fun _ => (keeps_push hL _).bind hi fun _ _ _ =>
        keeps_push hL _
  | numToBin =>
    exact (keeps_popNumber hL).bind hi fun _ _ _ => (keeps_pop hL).bind hi fun _ _ _ =>
      keeps_require_bind hi trivial fun _ =>
      keeps_require_bind hi trivial fun _ =>
      keeps_require_bind hi trivial fun _ => keeps_push hL _
  | binToNum =>
    exact (keeps_pop hL).bind hi fun _ _ _ => keeps_require_bind hi trivial fun _ =>
      keeps_push hL _
  | size => exact (keeps_peek hi 0).bind hi fun _ _ _ => keeps_push hL _

theorem keeps_combine (f : UInt8 → UInt8 → UInt8) : Keeps L (combine f) m :=
  (keeps_pop hL).bind hL.toInherited fun _ _ _ => (keeps_pop hL).bind hL.toInherited fun _ _ _ =>
    keeps_require_bind hL.toInherited trivial fun _ => keeps_push hL _

theorem keeps_bitwise (op : Opcode) (x : BitwiseOp) : Keeps L (bitwise op x) m := by
  have hi := hL.toInherited
  cases x with
  | invert => exact (keeps_pop hL).bind hi fun _ _ _ => keeps_push hL _
  | and => exact keeps_combine hL _
  | or => exact keeps_combine hL _
  | xor => exact keeps_combine hL _
  | equal checked =>
    exact (keeps_pop hL).bind hi fun _ _ _ => (keeps_pop hL).bind hi fun _ _ _ =>
      (keeps_push hL _).bind hi fun _ _ _ =>
        keeps_ite (fun _ => keeps_verifyTop hL op) fun _ => keeps_pure hi ()

theorem keeps_popIndex : Keeps L (popIndex r) m :=
  (keeps_popNumber hL).bind hL.toInherited fun _ _ _ =>
    keeps_require_bind hL.toInherited trivial fun _ =>
    keeps_pure hL.toInherited _

theorem keeps_stack (x : StackOp) : Keeps L (stack r x) m := by
  have hi := hL.toInherited
  cases x with
  | toAlt => exact (keeps_pop hL).bind hi fun _ _ _ => keeps_onAlt hL (Stack.plain_push _)
  | fromAlt => exact (keeps_onAlt hL Stack.plain_pop).bind hi fun _ _ _ => keeps_push hL _
  | drop n => exact keeps_onMain hL (Stack.plain_drop n)
  | dup n => exact keeps_onMain hL (Stack.plain_times (Stack.plain_pick _) n)
  | copyOver n => exact keeps_onMain hL (Stack.plain_times (Stack.plain_pick _) n)
  | rot n => exact keeps_onMain hL (Stack.plain_times (Stack.plain_roll _) n)
  | swap n => exact keeps_onMain hL (Stack.plain_times (Stack.plain_roll _) n)
  | dupIfTrue =>
    exact (keeps_peek hi 0).bind hi fun _ _ _ =>
      keeps_ite (fun _ => keeps_push hL _) fun _ => keeps_pure hi ()
  | depth => exact Keeps.bind hi (keeps_of_ok rfl (hi.refl m)) fun _ _ _ => keeps_push hL _
  | nip => exact keeps_onMain hL (Stack.plain_nip 1)
  | pick =>
    exact (keeps_popIndex hL).bind hi fun _ _ _ => keeps_onMain hL (Stack.plain_pick _)
  | roll =>
    exact (keeps_popIndex hL).bind hi fun _ _ _ => keeps_onMain hL (Stack.plain_roll _)
  | tuck => exact keeps_onMain hL Stack.plain_tuck

end

end Run

end CoinScript
