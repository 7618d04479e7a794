import CoinScript.Proofs.Machine.Trials

/-!
# How deep operations reach

An operation that comes to the end of the stack stops with an *underflow*.  To rule this out one has
to know how many elements an operation finds, and how many each of its parts leaves for the next.
`Run.Draws k l x` says both of a computation on a machine: on a main stack with at least `k`
elements it does not underflow, and if it succeeds it has taken `k` of them at most and put at least
`l` in their place.

For a sequence the `l` of the first part is the `k` of the second (`DrawsOn.bind`), so that the
proof for an operation is a walk along its program, in which the depth that is known to be left is
written at every step.  `Run.draws_perform` puts the operations together: each of them draws on its
arity, but for those that may underflow nevertheless (`Operation.Selfchecked`).
-/

namespace CoinScript

/-- Elements are missing, or an index points outside the stack. -/
def Fault.Underflow : Fault → Prop
  | .tooShallow .. | .noElement .. | .negativeIndex _ => True
  | _ => False

theorem Fault.Formal.not_underflow {fault : Fault} (h : fault.Formal) : ¬fault.Underflow := by
  cases fault <;> first | exact h.elim | exact id

/-- These faults have a code of their own, which a transaction could use for a refusal as well. -/
theorem Fault.underflow_iff {fault : Fault} :
    fault.Underflow ↔ fault.code = .invalidStackOperation ∧ ∀ cause, fault ≠ .context cause := by
  constructor
  · intro h
    cases fault with
    | tooShallow op arity depth => exact ⟨rfl, nofun⟩
    | noElement index depth => exact ⟨rfl, nofun⟩
    | negativeIndex n => exact ⟨rfl, nofun⟩
    | _ => exact h.elim
  · rintro ⟨hcode, hcontext⟩
    have hstructural := structural_of_code hcontext (.inr hcode)
    cases fault with
    | tooShallow | noElement | negativeIndex => trivial
    | turnOutside | turnAgain | closeOutside | neverClosed => cases hcode
    | _ => exact hstructural.elim

/-- The operations that find out by themselves how many elements they need, or need one of the alt
stack. -/
def Operation.Selfchecked : Operation → Prop
  | stack .pick | stack .roll | stack .fromAlt | crypto (.checkMultisig _) | lockTime _ => True
  | _ => False

/-! ## Programs -/

section

variable {σ α β : Type} {depth : σ → Nat} {k k' l l' n : Nat}

/-- On at least `k` elements the computation does not underflow, and if it succeeds it leaves at
least `l` in their place. -/
def DrawsOn (depth : σ → Nat) (k l : Nat) (x : EStateM Fault σ α) : Prop :=
  ∀ s, k ≤ depth s →
    match x s with
    | .ok _ s' => depth s + l ≤ depth s' + k
    | .error fault _ => ¬fault.Underflow

theorem drawsOn_pure (a : α) (h : l ≤ k) : DrawsOn depth k l (pure a) :=
  fun s _ => Nat.add_le_add_left h (depth s)

theorem drawsOn_throw {fault : Fault} (h : ¬fault.Underflow) :
    DrawsOn depth k l (throw fault : EStateM Fault σ α) := fun _ _ => h

/-- **What the first part leaves is what the second draws on.** -/
theorem DrawsOn.bind {x : EStateM Fault σ α} {f : α → EStateM Fault σ β}
    (hx : DrawsOn depth k l x) (hf : ∀ a, DrawsOn depth l n (f a)) :
    DrawsOn depth k n (x >>= f) := by
  intro s hs
  have hfirst := hx s hs
  show match EStateM.bind x f s with
    | .ok _ s' => depth s + n ≤ depth s' + k
    | .error fault _ => ¬fault.Underflow
  unfold EStateM.bind
  cases hxs : x s with
  | error fault s' =>
    rw [hxs] at hfirst
    exact hfirst
  | ok a s' =>
    rw [hxs] at hfirst
    have hleft : depth s + l ≤ depth s' + k := hfirst
    have hsecond := hf a s' (by omega)
    dsimp only
    cases hfs : f a s' with
    | error fault s'' =>
      rw [hfs] at hsecond
      exact hsecond
    | ok b s'' =>
      rw [hfs] at hsecond
      have hend : depth s' + n ≤ depth s'' + l := hsecond
      show depth s + n ≤ depth s'' + k
      omega

theorem DrawsOn.mono {x : EStateM Fault σ α} (h : DrawsOn depth k l x) (hk : k ≤ k')
    (hl : l' + k ≤ l + k') : DrawsOn depth k' l' x := by
  intro s hs
  have hx := h s (Nat.le_trans hk hs)
  cases hxs : x s with
  | error fault s' =>
    rw [hxs] at hx
    exact hx
  | ok a s' =>
    rw [hxs] at hx
    have hleft : depth s + l ≤ depth s' + k := hx
    show depth s + l' ≤ depth s' + k'
    omega

theorem drawsOn_ite {p : Prop} [Decidable p] {x y : EStateM Fault σ α}
    (hx : DrawsOn depth k l x) (hy : DrawsOn depth k l y) :
    DrawsOn depth k l (if p then x else y) := by
  split
  · exact hx
  · exact hy

theorem DrawsOn.get_bind {f : σ → EStateM Fault σ α} (h : ∀ s, DrawsOn depth k l (f s)) :
    DrawsOn depth k l (get >>= f) := fun s hs => h s s hs

theorem drawsOn_modify {f : σ → σ} (h : ∀ s, depth s ≤ depth (f s)) :
    DrawsOn depth k k (modify f) := fun s _ => Nat.add_le_add_right (h s) k

end

/-! ## Stacks -/

namespace Stack

variable {α : Type} {k : Nat}

/-- `DrawsOn` for computations on a stack. -/
abbrev Draws (k l : Nat) (x : StackM α) : Prop := DrawsOn List.length k l x

theorem draws_push (b : Bytes) : Draws k (k + 1) (push b) := by
  intro s _
  show s.length + (k + 1) ≤ (b :: s).length + k
  rw [List.length_cons]
  omega

theorem draws_peek {index : Nat} (h : index < k) : Draws k k (peek index) := by
  intro s hs
  have hindex : index < s.length := Nat.lt_of_lt_of_le h hs
  unfold peek
  rewrite [List.getElem?_eq_getElem hindex]
  exact Nat.le_refl _

theorem draws_take {index : Nat} (h : index ≤ k) : Draws (k + 1) k (take index) := by
  intro s hs
  have hindex : index < s.length := Nat.lt_of_le_of_lt h hs
  have herased : (s.eraseIdx index).length + 1 = s.length := by
    rw [List.length_eraseIdx_of_lt hindex]
    omega
  unfold take
  rw [List.getElem?_eq_getElem hindex]
  show s.length + k ≤ (s.eraseIdx index).length + (k + 1)
  omega

theorem draws_pop : Draws (k + 1) k pop := draws_take (Nat.zero_le k)

theorem draws_asNumber (format : Number.Format) (b : Bytes) : Draws k k (asNumber format b) := by
  unfold asNumber
  cases Number.decode format b with
  | ok n => exact drawsOn_pure n (Nat.le_refl k)
  | error cause => exact drawsOn_throw id

theorem draws_popNumber (format : Number.Format) : Draws (k + 1) k (popNumber format) :=
  draws_pop.bind (draws_asNumber format)

theorem draws_popTruth : Draws (k + 1) k popTruth :=
  draws_pop.bind fun _ => drawsOn_pure _ (Nat.le_refl k)

theorem draws_peekNumber (format : Number.Format) : Draws (k + 1) (k + 1) (peekNumber format 0) :=
  (draws_peek (Nat.succ_pos k)).bind (draws_asNumber format)

theorem draws_pick {index : Nat} (h : index < k) : Draws k (k + 1) (pick index) :=
  (draws_peek h).bind draws_push

theorem draws_roll {index : Nat} (h : index ≤ k) : Draws (k + 1) (k + 1) (roll index) :=
  (draws_take h).bind draws_push

theorem draws_nip {index : Nat} (h : index ≤ k) : Draws (k + 1) k (nip index) :=
  (draws_take h).bind fun _ => drawsOn_pure _ (Nat.le_refl k)

theorem draws_drop (n : Nat) : Draws (k + n) k (drop n) := by
  unfold drop
  induction n with
  | zero => exact drawsOn_pure () (Nat.le_refl k)
  | succ n ih =>
    exact (draws_pop.bind fun _ => drawsOn_pure _ (Nat.le_refl (k + n))).bind fun _ => ih

/-- A move that finds what it needs and leaves as much can be repeated. -/
theorem draws_times {move : StackM Unit} {n : Nat} (h : 0 < n → Draws k k move) :
    Draws k k (times move n) := by
  induction n with
  | zero => exact drawsOn_pure () (Nat.le_refl k)
  | succ n ih => exact (h (Nat.succ_pos n)).bind fun _ => ih fun _ => h (Nat.succ_pos n)

/-- A block is copied from among the elements that are found. -/
theorem draws_picks {index n : Nat} (h : 0 < n → index < k) : Draws k k (times (pick index) n) :=
  draws_times fun hn => (draws_pick (h hn)).mono (Nat.le_refl k) (by omega)

theorem draws_rolls {index n : Nat} (h : 0 < n → index < k) : Draws k k (times (roll index) n) := by
  refine draws_times fun hn => ?_
  obtain ⟨j, rfl⟩ := Nat.exists_eq_add_one_of_ne_zero (Nat.ne_zero_of_lt (h hn))
  exact draws_roll (Nat.le_of_lt_succ (h hn))

theorem draws_tuck : Draws (k + 2) (k + 3) tuck :=
  draws_pop.bind fun top => draws_pop.bind fun second => (draws_push top).bind fun _ =>
    (draws_push second).bind fun _ => draws_push top

end Stack

/-! ## Machines -/

namespace Run

variable {α : Type} {r : Rules} {k l : Nat}

/-- `DrawsOn` for computations on the main stack of a machine. -/
abbrev Draws (k l : Nat) (x : Run α) : Prop := DrawsOn (fun m : Machine => m.main.length) k l x

theorem draws_onMain {x : StackM α} (h : Stack.Draws k l x) : Draws k l (onMain x) := by
  intro m hm
  have hx := h m.main hm
  unfold onMain
  cases hxm : x m.main with
  | error fault s =>
    rw [hxm] at hx
    exact hx
  | ok a s =>
    rw [hxm] at hx
    exact hx

theorem draws_toAlt (b : Bytes) : Draws k k (onAlt (Stack.push b)) := fun _ _ => Nat.le_refl _

theorem draws_pop : Draws (k + 1) k pop := draws_onMain Stack.draws_pop

theorem draws_popNumber : Draws (k + 1) k (popNumber r) := draws_onMain (Stack.draws_popNumber _)

theorem draws_push (b : Bytes) : Draws k (k + 1) (push b) := draws_onMain (Stack.draws_push b)

theorem draws_pushNumber (n : Int) : Draws k (k + 1) (pushNumber n) := draws_push _

theorem draws_pushTruth (v : Bool) : Draws k (k + 1) (pushTruth v) := draws_push _

theorem draws_require (c : Bool) {fault : Fault} (h : ¬fault.Underflow) :
    Draws k k (require c fault) :=
  drawsOn_ite (drawsOn_pure () (Nat.le_refl k)) (drawsOn_throw h)

theorem draws_ofExcept {x : Except Fault α} (h : ∀ fault, x = .error fault → fault.Formal) :
    Draws k k (ofExcept x) := by
  cases x with
  | ok a => exact drawsOn_pure a (Nat.le_refl k)
  | error fault => exact drawsOn_throw (h fault rfl).not_underflow

theorem draws_requireContext (op : Opcode) : Draws k k (r.requireContext op) := by
  unfold Rules.requireContext
  cases r.context with
  | some c => exact drawsOn_pure c (Nat.le_refl k)
  | none => exact drawsOn_throw id

theorem draws_countOperations (n : Nat) : Draws k k (countOperations r n) := by
  refine (drawsOn_modify fun _ => ?_).bind fun _ => DrawsOn.get_bind fun _ => draws_require _ id
  exact Nat.le_refl _

theorem draws_verifyTop (op : Opcode) : Draws (k + 1) k (verifyTop op) :=
  (draws_onMain Stack.draws_popTruth).bind fun v => draws_require v id

/-- A check that may follow where a truth value has been put on the stack. -/
theorem draws_verify_ite (checked : Bool) (op : Opcode) :
    Draws (k + 1) k (if checked then verifyTop op else pure ()) :=
  drawsOn_ite (draws_verifyTop op) (drawsOn_pure () (Nat.le_succ k))

theorem draws_onBranches {f : Branches → Except Fault Branches}
    (h : ∀ b fault, f b = .error fault → fault.Unbalanced) : Draws k k (onBranches f) := by
  intro m _
  cases hf : f m.branches with
  | ok b =>
    rewrite [onBranches_of_ok hf]
    exact Nat.le_refl _
  | error fault =>
    rw [onBranches_of_error hf]
    rcases Fault.unbalanced_iff.mp (h _ _ hf) with rfl | rfl | rfl | rfl <;> exact id

/-! ## Families of operations -/

theorem draws_popTwoNumbers : Draws (k + 2) k (popTwoNumbers r) :=
  draws_popNumber.bind fun _ => draws_popNumber.bind fun _ => drawsOn_pure _ (Nat.le_refl k)

theorem draws_shift (move : Bytes → Nat → Bytes) : Draws 2 1 (shift r move) :=
  draws_popNumber.bind fun _ => (draws_require _ id).bind fun _ => draws_pop.bind fun _ =>
    draws_push _

theorem draws_arithmetic (op : Opcode) (x : ArithmeticOp) :
    ∃ l, Draws (Operation.arithmetic x).arity l (arithmetic r op x) := by
  cases x with
  | unary f => exact ⟨1, draws_popNumber.bind fun _ => draws_pushNumber _⟩
  | binary f => exact ⟨1, draws_popTwoNumbers.bind fun _ => draws_pushNumber _⟩
  | quotient =>
    exact ⟨1, draws_popTwoNumbers.bind fun _ => (draws_require _ id).bind fun _ =>
      draws_pushNumber _⟩
  | remainder =>
    exact ⟨1, draws_popTwoNumbers.bind fun _ => (draws_require _ id).bind fun _ =>
      draws_pushNumber _⟩
  | shiftLeft => exact ⟨1, draws_shift _⟩
  | shiftRight => exact ⟨1, draws_shift _⟩
  | compare f checked =>
    exact ⟨0, draws_popTwoNumbers.bind fun _ => (draws_pushTruth _).bind fun _ =>
      draws_verify_ite checked op⟩
  | within =>
    exact ⟨1, draws_popNumber.bind fun _ => draws_popNumber.bind fun _ =>
      draws_popNumber.bind fun _ => draws_pushTruth _⟩

theorem draws_splice (x : SpliceOp) :
    ∃ l, Draws (Operation.splice x).arity l (splice r x) := by
  cases x with
  | cat =>
    exact ⟨1, draws_pop.bind fun _ => draws_pop.bind fun _ => (draws_require _ id).bind fun _ =>
      draws_push _⟩
  | split =>
    exact ⟨2, draws_popNumber.bind fun _ => draws_pop.bind fun _ =>
      (draws_require _ id).bind fun _ => (draws_push _).bind fun _ => draws_push _⟩
  | numToBin =>
    exact ⟨1, draws_popNumber.bind fun _ => draws_pop.bind fun _ =>
      (draws_require _ id).bind fun _ => (draws_require _ id).bind fun _ =>
      (draws_require _ id).bind fun _ => draws_push _⟩
  | binToNum =>
    exact ⟨1, draws_pop.bind fun _ => (draws_require _ id).bind fun _ => draws_push _⟩
  | size =>
    exact ⟨2, (draws_onMain (Stack.draws_peek Nat.one_pos)).bind fun _ => draws_pushNumber _⟩

theorem draws_combine (f : UInt8 → UInt8 → UInt8) : Draws 2 1 (combine f) :=
  draws_pop.bind fun _ => draws_pop.bind fun _ => (draws_require _ id).bind fun _ => draws_push _

theorem draws_bitwise (op : Opcode) (x : BitwiseOp) :
    ∃ l, Draws (Operation.bitwise x).arity l (bitwise op x) := by
  cases x with
  | invert => exact ⟨1, draws_pop.bind fun _ => draws_push _⟩
  | and => exact ⟨1, draws_combine _⟩
  | or => exact ⟨1, draws_combine _⟩
  | xor => exact ⟨1, draws_combine _⟩
  | equal checked =>
    exact ⟨0, draws_pop.bind fun _ => draws_pop.bind fun _ => (draws_pushTruth _).bind fun _ =>
      draws_verify_ite checked op⟩

theorem draws_stack (x : StackOp) (hx : ¬(Operation.stack x).Selfchecked) :
    ∃ l, Draws (Operation.stack x).arity l (stack r x) := by
  cases x with
  | toAlt => exact ⟨0, draws_pop.bind fun _ => draws_toAlt _⟩
  | fromAlt => exact absurd trivial hx
  | drop n =>
    have hdrop := Stack.draws_drop (k := 0) n
    rw [Nat.zero_add] at hdrop
    exact ⟨0, draws_onMain hdrop⟩
  | dup n => exact ⟨n, draws_onMain (Stack.draws_picks fun hn => Nat.sub_lt hn Nat.one_pos)⟩
  | copyOver n =>
    exact ⟨2 * n, draws_onMain (Stack.draws_picks fun hn =>
      Stack.lastDepth_lt (Nat.mul_pos Nat.two_pos hn))⟩
  | rot n =>
    exact ⟨3 * n, draws_onMain (Stack.draws_rolls fun hn =>
      Stack.lastDepth_lt (Nat.mul_pos (Nat.succ_pos 2) hn))⟩
  | swap n =>
    exact ⟨2 * n, draws_onMain (Stack.draws_rolls fun hn =>
      Stack.lastDepth_lt (Nat.mul_pos Nat.two_pos hn))⟩
  | dupIfTrue =>
    exact ⟨1, (draws_onMain (Stack.draws_peek Nat.one_pos)).bind fun top =>
      drawsOn_ite ((draws_push top).mono (Nat.le_refl 1) (by omega))
        (drawsOn_pure () (Nat.le_refl 1))⟩
  | depth => exact ⟨1, DrawsOn.get_bind fun _ => draws_pushNumber _⟩
  | nip => exact ⟨1, draws_onMain (Stack.draws_nip (Nat.le_refl 1))⟩
  | pick => exact absurd trivial hx
  | roll => exact absurd trivial hx
  | tuck => exact ⟨3, draws_onMain Stack.draws_tuck⟩

theorem draws_popCondition : Draws (k + 1) k (popCondition r) := by
  refine drawsOn_ite ?_ (draws_onMain Stack.draws_popTruth)
  refine draws_pop.bind fun b => (draws_require _ id).bind fun _ => ?_
  match b with
  | [] => exact drawsOn_pure _ (Nat.le_refl k)
  | [x] => exact (draws_require _ id).bind fun _ => drawsOn_pure _ (Nat.le_refl k)
  | _ :: _ :: _ => exact drawsOn_pure _ (Nat.le_refl k)

theorem draws_flow (op : Opcode) (x : FlowOp) :
    ∃ l, Draws (Operation.flow x).arity l (flow r true op x) := by
  cases x with
  | opening onTrue =>
    exact ⟨0, draws_popCondition.bind fun _ => draws_onBranches fun _ _ h => (by cases h)⟩
  | turning => exact ⟨0, draws_onBranches fun _ _ => unbalanced_of_turning⟩
  | closing => exact ⟨0, draws_onBranches fun _ _ => unbalanced_of_closing⟩
  | verify => exact ⟨0, draws_verifyTop op⟩
  | giveUp => exact ⟨0, drawsOn_throw id⟩

theorem draws_nop (op : Opcode) (upgradable : Bool) : Draws k k (nop r op upgradable) :=
  draws_require _ id

/-! ## Signatures -/

theorem draws_checkSig (c : Context) (sig key code : Bytes) :
    Draws k k (checkSig r c sig key code) := by
  intro m _
  obtain ⟨journal, heq⟩ := checkSig_eq r c sig key code m
  rw [heq]
  cases r.validity c sig key code with
  | ok v => exact Nat.le_refl _
  | error cause => exact id

theorem draws_currentPart (script : List Instruction) : Draws k k (currentPart script) :=
  DrawsOn.get_bind fun _ => drawsOn_pure _ (Nat.le_refl k)

theorem draws_checkSingle (script : List Instruction) (op : Opcode) :
    Draws 2 1 (checkSingle r script op) :=
  (draws_requireContext op).bind fun _ => draws_pop.bind fun _ => draws_pop.bind fun _ =>
    (draws_ofExcept fun _ => formal_of_checkSignature).bind fun _ =>
    (draws_ofExcept fun _ => formal_of_checkKey).bind fun _ =>
    (draws_currentPart script).bind fun _ => (draws_checkSig _ _ _ _).bind fun _ =>
    (draws_require _ id).bind fun _ => draws_pushTruth _

theorem draws_checkPair (c : Context) (part : List Instruction) (legacy : List Bytes)
    (sig key : Bytes) : Draws k k (checkPair r c part legacy sig key) :=
  (draws_ofExcept fun _ => formal_of_checkSignature).bind fun _ =>
    (draws_ofExcept fun _ => formal_of_checkKey).bind fun _ => draws_checkSig _ _ _ _

theorem draws_matchKeys {check : (sig key : Bytes) → Run Bool}
    (h : ∀ sig key, Draws k k (check sig key)) (keys sigs : List Bytes) :
    Draws k k (matchKeys check keys sigs) := by
  induction keys generalizing sigs with
  | nil => cases sigs <;> exact drawsOn_pure _ (Nat.le_refl k)
  | cons key keys ih =>
    cases sigs with
    | nil => exact drawsOn_pure _ (Nat.le_refl k)
    | cons sig sigs =>
      exact drawsOn_ite (drawsOn_pure _ (Nat.le_refl k)) ((h sig key).bind fun _ =>
        drawsOn_ite (ih sigs) (ih (sig :: sigs)))

/-! ## Lock times -/

theorem draws_inputSequence (c : Context) : Draws k k (inputSequence r c) := by
  unfold inputSequence
  cases c.sequence r.input with
  | some n => exact drawsOn_pure n (Nat.le_refl k)
  | none => exact drawsOn_throw id

theorem draws_lockTime (op : Opcode) (x : LockTimeOp) : Draws 1 1 (lockTime r op x) := by
  refine drawsOn_ite ?_ (draws_nop op true)
  refine (draws_requireContext op).bind fun c =>
    (draws_onMain (Stack.draws_peekNumber _)).bind fun n => (draws_require _ id).bind fun _ => ?_
  cases x with
  | absolute =>
    exact (draws_ofExcept fun _ => formal_of_check).bind fun _ =>
      (draws_inputSequence c).bind fun _ => draws_require _ id
  | relative =>
    exact drawsOn_ite (drawsOn_pure () (Nat.le_refl 1)) ((draws_require _ id).bind fun _ =>
      (draws_inputSequence c).bind fun _ => (draws_require _ id).bind fun _ =>
      draws_ofExcept fun _ => formal_of_check)

/-! ## All operations -/

/-- **An operation draws on its arity**, if it is not one that has to find out by itself. -/
theorem draws_perform (script : List Instruction) (offset : Nat) (i : Instruction)
    (hi : ¬i.operation.Selfchecked) :
    ∃ l, Draws i.operation.arity l (perform r script offset true i) := by
  unfold perform
  cases hop : i.operation with
  | push => exact ⟨1, draws_push _⟩
  | flow x => exact draws_flow _ x
  | stack x =>
    rw [hop] at hi
    exact draws_stack x hi
  | splice x => exact draws_splice x
  | bitwise x => exact draws_bitwise _ x
  | arithmetic x => exact draws_arithmetic _ x
  | crypto x =>
    cases x with
    | hash f => exact ⟨1, draws_pop.bind fun _ => draws_push _⟩
    | codeSeparator => exact ⟨0, drawsOn_modify fun _ => Nat.le_refl _⟩
    | checkSig checked =>
      exact ⟨0, (draws_checkSingle script _).bind fun _ => draws_verify_ite checked _⟩
    | checkMultisig checked =>
      rw [hop] at hi
      exact absurd trivial hi
  | lockTime x =>
    rw [hop] at hi
    exact absurd trivial hi
  | nop upgradable => exact ⟨0, draws_nop _ upgradable⟩
  | reserved always => exact ⟨0, drawsOn_throw id⟩
  | disabled => exact ⟨0, drawsOn_throw id⟩
  | invalid => exact ⟨0, drawsOn_throw id⟩

end Run

end CoinScript
