import CoinScript.Proofs.Machine.PushOnly
import CoinScript.Proofs.Number.Length

/-!
# The size of elements

The limit on the length of an element is checked where an element is pushed, where two are joined
and where a number is brought to a size, and nowhere else.  That no other operation makes a longer
element has for each of them a reason of its own: a digest has at most 32 bytes, a shift keeps the
length, a cut gives shorter pieces, and numbers are bounded by the length of operands or by the
depth of the stack.  `Rules.Roomy` collects what these reasons ask of the rules for elements to stay
within a size.  The size need not be the limit itself: of the limit they ask only that the size is
not below it, and of products that they have room wherever they can be made.

`Yields I x P` says that `x`, started on a state with the invariant `I`, leaves such a state
wherever it succeeds, with a result that has the property `P`.  The property passes from the operand
that is taken to the element that is put, so here a law on the change alone would not do.

The invariant is `Machine.Bounded`: the elements of both stacks are within a size, and so many
operations have been counted.  Only the check of several signatures counts more of them, one for
each key (`Run.bounded_multisig`); `Run.bounded_perform` is the statement for all others.
-/

namespace CoinScript

/-! ## Computations with a result -/

section

variable {ε σ α β : Type} {I : σ → Prop} {x : EStateM ε σ α} {f : α → EStateM ε σ β}
  {P : α → Prop} {Q : β → Prop}

/-- Wherever the computation succeeds on a state with the invariant, it leaves one, and its result
has the property. -/
def Yields (I : σ → Prop) (x : EStateM ε σ α) (P : α → Prop) : Prop :=
  ∀ s a s', I s → x s = .ok a s' → P a ∧ I s'

theorem yields_pure {a : α} (h : P a) : Yields I (pure a : EStateM ε σ α) P := by
  intro s a' s' hs hok
  cases hok
  exact ⟨h, hs⟩

theorem yields_throw {e : ε} : Yields I (throw e : EStateM ε σ α) P := by
  intro s a s' hs hok
  cases hok

/-- The first part of a sequence that succeeds. -/
theorem Yields.of_bind {s s' : σ} {b : β} (hx : Yields I x P) (hs : I s)
    (hok : (x >>= f) s = .ok b s') : ∃ a s₁, P a ∧ I s₁ ∧ f a s₁ = .ok b s' := by
  obtain ⟨a, s₁, hxs, hrest⟩ := bind_eq_ok hok
  obtain ⟨ha, hs₁⟩ := hx s a s₁ hs hxs
  exact ⟨a, s₁, ha, hs₁, hrest⟩

theorem Yields.bind (hx : Yields I x P) (hf : ∀ a, P a → Yields I (f a) Q) :
    Yields I (x >>= f) Q := by
  intro s b s' hs hok
  obtain ⟨a, s₁, ha, hs₁, hrest⟩ := hx.of_bind hs hok
  exact hf a ha s₁ b s' hs₁ hrest

theorem Yields.mono {P' : α → Prop} (hx : Yields I x P) (h : ∀ a, P a → P' a) : Yields I x P' :=
  fun s a s' hs hok => ⟨h a (hx s a s' hs hok).1, (hx s a s' hs hok).2⟩

theorem yields_ite {p : Prop} [Decidable p] {y z : EStateM ε σ α} (hy : p → Yields I y P)
    (hz : ¬p → Yields I z P) : Yields I (if p then y else z) P := by
  by_cases h : p
  · rw [if_pos h]
    exact hy h
  · rw [if_neg h]
    exact hz h

end

/-! ## Stacks -/

namespace Stack

variable {size : Nat} {b : Bytes}

/-- No element is longer. -/
def Within (size : Nat) (s : Stack) : Prop := ∀ b ∈ s, b.length ≤ size

theorem yields_push (h : b.length ≤ size) : Yields (Within size) (push b) fun _ => True := by
  intro s u s' hs hok
  cases hok
  exact ⟨trivial, List.forall_mem_cons.mpr ⟨h, hs⟩⟩

theorem yields_peek (index : Nat) :
    Yields (Within size) (peek index) fun b => b.length ≤ size := by
  intro s b s' hs hok
  unfold peek at hok
  cases hb : s[index]? with
  | some c =>
    rw [hb] at hok
    cases hok
    exact ⟨hs _ (List.mem_of_getElem? hb), hs⟩
  | none =>
    rw [hb] at hok
    cases hok

theorem yields_take (index : Nat) :
    Yields (Within size) (take index) fun b => b.length ≤ size := by
  intro s b s' hs hok
  unfold take at hok
  cases hb : s[index]? with
  | some c =>
    rw [hb] at hok
    cases hok
    exact ⟨hs _ (List.mem_of_getElem? hb), fun c hc => hs c (List.mem_of_mem_eraseIdx hc)⟩
  | none =>
    rw [hb] at hok
    cases hok

theorem yields_pop : Yields (Within size) pop fun b => b.length ≤ size := yields_take 0

/-- An operand fits the greatest length that operands may have. -/
theorem yields_asNumber (format : Number.Format) (b : Bytes) :
    Yields (Within size) (asNumber format b) (Number.Fits format.maxLength) := by
  intro s n s' hs hok
  unfold asNumber at hok
  cases hdecode : Number.decode format b with
  | ok v =>
    rw [hdecode] at hok
    cases hok
    obtain ⟨hlength, rfl⟩ := Number.decode_eq_ok hdecode
    exact ⟨(Number.fits_value b).mono hlength, hs⟩
  | error cause =>
    rw [hdecode] at hok
    cases hok

theorem yields_popNumber (format : Number.Format) :
    Yields (Within size) (popNumber format) (Number.Fits format.maxLength) :=
  yields_pop.bind fun b _ => yields_asNumber format b

theorem yields_popTruth : Yields (Within size) popTruth fun _ => True :=
  yields_pop.bind fun _ _ => yields_pure trivial

theorem yields_popMany (n : Nat) : Yields (Within size) (popMany n) fun _ => True := by
  induction n with
  | zero => exact yields_pure trivial
  | succ n ih => exact yields_pop.bind fun _ _ => ih.bind fun _ _ => yields_pure trivial

theorem yields_times {move : StackM Unit} (h : Yields (Within size) move fun _ => True) (n : Nat) :
    Yields (Within size) (times move n) fun _ => True := by
  induction n with
  | zero => exact yields_pure trivial
  | succ n ih => exact h.bind fun _ _ => ih

theorem yields_pick (index : Nat) : Yields (Within size) (pick index) fun _ => True :=
  (yields_peek index).bind fun _ => yields_push

theorem yields_roll (index : Nat) : Yields (Within size) (roll index) fun _ => True :=
  (yields_take index).bind fun _ => yields_push

theorem yields_nip (index : Nat) : Yields (Within size) (nip index) fun _ => True :=
  (yields_take index).bind fun _ _ => yields_pure trivial

theorem yields_drop (n : Nat) : Yields (Within size) (drop n) fun _ => True :=
  yields_times (yields_pop.bind fun _ _ => yields_pure trivial) n

theorem yields_tuck : Yields (Within size) tuck fun _ => True :=
  yields_pop.bind fun _ htop => yields_pop.bind fun _ hsecond => (yields_push htop).bind fun _ _ =>
    (yields_push hsecond).bind fun _ _ => yields_push htop

end Stack

/-! ## The invariant -/

/-- The elements of both stacks are within a size, and so many operations have been counted. -/
structure Machine.Bounded (size operations : Nat) (m : Machine) : Prop where
  main : Stack.Within size m.main
  alt : Stack.Within size m.alt
  operations : m.operations = operations

/-- The limits leave room for what operations make of elements and operands within them: digests,
sums and products, and the number of elements on the stack. -/
structure Limits.Roomy (l : Limits) : Prop where
  digest : 32 ≤ l.maxElementSize
  sum : l.maxNumberLength < l.maxElementSize
  product : 2 * l.maxNumberLength ≤ l.maxElementSize
  depth : Number.Fits l.maxElementSize l.maxStackSize

theorem Limits.roomy_consensus : Limits.consensus.Roomy where
  digest := by decide
  sum := by decide
  product := by decide
  depth := by
    have htwo : Number.Fits 2 1000 := by
      unfold Number.Fits
      decide
    exact htwo.mono (by decide)

/-- Under these rules operations make of elements and operands within a size no longer ones.
Products are made only where the operation is enabled. -/
structure Rules.Roomy (r : Rules) (size : Nat) : Prop where
  element : r.limits.maxElementSize ≤ size
  digest : 32 ≤ size
  sum : r.limits.maxNumberLength < size
  product : r.flags.has .extendedB = true → 2 * r.limits.maxNumberLength ≤ size
  depth : Number.Fits size r.limits.maxStackSize

theorem Limits.Roomy.rules {r : Rules} (h : r.limits.Roomy) : r.Roomy r.limits.maxElementSize where
  element := Nat.le_refl _
  digest := h.digest
  sum := h.sum
  product _ := h.product
  depth := h.depth

/-! ## What operations compute -/

theorem Number.length_ofTruth_le (v : Bool) : (Number.ofTruth v).length ≤ 1 := by
  cases v <;> decide

theorem UnaryOp.natAbs_eval_le (f : UnaryOp) (n : Int) : (f.eval n).natAbs ≤ n.natAbs + 1 := by
  unfold UnaryOp.eval
  cases f with
  | isZero => dsimp only; split <;> omega
  | isNotZero => dsimp only; split <;> omega
  | _ => dsimp only; omega

/-- The only result that may be longer than a sum is the product. -/
theorem BinaryOp.fits_eval {k size : Nat} {a b : Int} (f : BinaryOp) (ha : Number.Fits k a)
    (hb : Number.Fits k b) (hsum : k < size) (hproduct : f = .mul → 2 * k ≤ size) :
    Number.Fits size (f.eval a b) := by
  have hle : k ≤ size := Nat.le_of_lt hsum
  unfold BinaryOp.eval
  cases f with
  | add => exact (ha.add hb).mono hsum
  | sub =>
    have hneg : Number.Fits k (-b) := hb.of_natAbs_le (Nat.le_of_eq (Int.natAbs_neg b))
    dsimp only
    rw [Int.sub_eq_add_neg]
    exact (ha.add hneg).mono hsum
  | mul =>
    rw [Nat.two_mul] at hproduct
    exact (ha.mul hb).mono (hproduct rfl)
  | min =>
    dsimp only
    split
    · exact hb.mono hle
    · exact ha.mono hle
  | max =>
    dsimp only
    split
    · exact hb.mono hle
    · exact ha.mono hle

theorem HashOp.length_eval_le (f : HashOp) (b : Bytes) : (f.eval b).length ≤ 32 := by
  unfold HashOp.eval
  cases f <;> simp only [Block.length_bytes] <;> decide

/-! ## Operations -/

namespace Run

variable {α : Type} {r : Rules} {size n : Nat} {m after : Machine}

theorem yields_onMain {x : StackM α} {P : α → Prop} (hx : Yields (Stack.Within size) x P) :
    Yields (Machine.Bounded size n) (onMain x) P := by
  intro m a after hm hok
  unfold onMain at hok
  cases hs : x m.main with
  | ok b s =>
    rw [hs] at hok
    cases hok
    obtain ⟨hb, hwithin⟩ := hx _ _ _ hm.main hs
    exact ⟨hb, hwithin, hm.alt, hm.operations⟩
  | error fault s =>
    rw [hs] at hok
    cases hok

theorem yields_onAlt {x : StackM α} {P : α → Prop} (hx : Yields (Stack.Within size) x P) :
    Yields (Machine.Bounded size n) (onAlt x) P := by
  intro m a after hm hok
  unfold onAlt at hok
  cases hs : x m.alt with
  | ok b s =>
    rw [hs] at hok
    cases hok
    obtain ⟨hb, hwithin⟩ := hx _ _ _ hm.alt hs
    exact ⟨hb, hm.main, hwithin, hm.operations⟩
  | error fault s =>
    rw [hs] at hok
    cases hok

section

variable {I : Machine → Prop} {P : α → Prop}

theorem yields_require (c : Bool) {fault : Fault} :
    Yields I (require c fault) fun _ => c = true := by
  intro m u after hm hok
  obtain ⟨hc, rfl⟩ := require_eq_ok hok
  exact ⟨hc, hm⟩

theorem yields_require_bind {c : Bool} {fault : Fault} {f : Unit → Run α}
    (h : c = true → Yields I (f ()) P) : Yields I (require c fault >>= f) P :=
  (yields_require c).bind fun _ => h

theorem yields_ofExcept {x : Except Fault α} : Yields I (ofExcept x) fun a => x = .ok a := by
  intro m a after hm hok
  obtain ⟨hx, rfl⟩ := ofExcept_eq_ok hok
  exact ⟨hx, hm⟩

theorem yields_requireContext (op : Opcode) :
    Yields I (r.requireContext op) fun c => r.context = some c := by
  intro m c after hm hok
  obtain ⟨hc, rfl⟩ := requireContext_eq_ok hok
  exact ⟨hc, hm⟩

theorem yields_get : Yields I (get : Run Machine) I := by
  intro m m' after hm hok
  cases hok
  exact ⟨hm, hm⟩

/-- What changes nothing wherever it succeeds keeps every invariant. -/
theorem yields_of_moves {x : Run α} (hx : Moves (fun m m' => m' = m) x) :
    Yields I x fun _ => True := by
  intro m a after hm hok
  obtain rfl := hx m a after hok
  exact ⟨trivial, hm⟩

end

theorem yields_push {b : Bytes} (h : b.length ≤ size) :
    Yields (Machine.Bounded size n) (push b) fun _ => True := yields_onMain (Stack.yields_push h)

theorem yields_pushNumber {k : Int} (h : Number.Fits size k) :
    Yields (Machine.Bounded size n) (pushNumber k) fun _ => True :=
  yields_push (Number.length_encode_le h)

theorem yields_pop : Yields (Machine.Bounded size n) pop fun b => b.length ≤ size :=
  yields_onMain Stack.yields_pop

theorem yields_popNumber :
    Yields (Machine.Bounded size n) (popNumber r) (Number.Fits r.limits.maxNumberLength) :=
  yields_onMain (Stack.yields_popNumber _)

theorem yields_verifyTop (op : Opcode) :
    Yields (Machine.Bounded size n) (verifyTop op) fun _ => True :=
  (yields_onMain Stack.yields_popTruth).bind fun _ _ => (yields_require _).mono fun _ _ => trivial

theorem yields_popIndex : Yields (Machine.Bounded size n) (popIndex r) fun _ => True :=
  yields_popNumber.bind fun _ _ => yields_require_bind fun _ => yields_pure trivial

theorem yields_popCondition : Yields (Machine.Bounded size n) (popCondition r) fun _ => True := by
  refine yields_ite (fun _ => ?_) fun _ => yields_onMain Stack.yields_popTruth
  refine yields_pop.bind fun b _ => yields_require_bind fun _ => ?_
  match b with
  | [] => exact yields_pure trivial
  | [x] => exact yields_require_bind fun _ => yields_pure trivial
  | _ :: _ :: _ => exact yields_pure trivial

theorem yields_onBranches (f : Branches → Except Fault Branches) :
    Yields (Machine.Bounded size n) (onBranches f) fun _ => True := by
  intro m u after hm hok
  obtain ⟨b, -, rfl⟩ := onBranches_eq_ok hok
  exact ⟨trivial, hm.main, hm.alt, hm.operations⟩

theorem yields_flow (executing : Bool) (op : Opcode) (x : FlowOp) :
    Yields (Machine.Bounded size n) (flow r executing op x) fun _ => True := by
  cases x with
  | opening onTrue =>
    exact yields_ite (fun _ => yields_popCondition.bind fun _ _ => yields_onBranches _) fun _ =>
      yields_onBranches _
  | turning => exact yields_onBranches _
  | closing => exact yields_onBranches _
  | verify => exact yields_verifyTop op
  | giveUp => exact yields_throw

theorem yields_popTwoNumbers :
    Yields (Machine.Bounded size n) (popTwoNumbers r) fun p =>
      Number.Fits r.limits.maxNumberLength p.1 ∧ Number.Fits r.limits.maxNumberLength p.2 :=
  yields_popNumber.bind fun _ hb => yields_popNumber.bind fun _ ha => yields_pure ⟨ha, hb⟩

/-- A shift keeps the length. -/
theorem yields_shift {move : Bytes → Nat → Bytes} (hmove : ∀ b k, (move b k).length = b.length) :
    Yields (Machine.Bounded size n) (shift r move) fun _ => True := by
  refine yields_popNumber.bind fun _ _ => yields_require_bind fun _ =>
    yields_pop.bind fun b hb => ?_
  exact yields_push (Nat.le_trans (Nat.le_of_eq (hmove b _)) hb)

/-- Bytes that are combined pair by pair are no more than the shorter of the two. -/
theorem yields_combine (f : UInt8 → UInt8 → UInt8) :
    Yields (Machine.Bounded size n) (combine f) fun _ => True := by
  refine yields_pop.bind fun b hb => yields_pop.bind fun a _ => yields_require_bind fun _ => ?_
  refine yields_push ?_
  rw [List.length_zipWith]
  omega

/-- The operations that rearrange elements put none on a stack that was not on one of them.  Only
the depth is a new element, and it is bounded by the depth itself. -/
theorem yields_stack {x : StackOp} (hx : x ≠ .depth) :
    Yields (Machine.Bounded size n) (stack r x) fun _ => True := by
  cases x with
  | toAlt => exact yields_pop.bind fun _ hb => yields_onAlt (Stack.yields_push hb)
  | fromAlt => exact (yields_onAlt Stack.yields_pop).bind fun _ hb => yields_push hb
  | drop k => exact yields_onMain (Stack.yields_drop k)
  | dup k => exact yields_onMain (Stack.yields_times (Stack.yields_pick _) k)
  | copyOver k => exact yields_onMain (Stack.yields_times (Stack.yields_pick _) k)
  | rot k => exact yields_onMain (Stack.yields_times (Stack.yields_roll _) k)
  | swap k => exact yields_onMain (Stack.yields_times (Stack.yields_roll _) k)
  | dupIfTrue =>
    exact (yields_onMain (Stack.yields_peek 0)).bind fun _ hb =>
      yields_ite (fun _ => yields_push hb) fun _ => yields_pure trivial
  | depth => exact absurd rfl hx
  | nip => exact yields_onMain (Stack.yields_nip 1)
  | pick => exact yields_popIndex.bind fun _ _ => yields_onMain (Stack.yields_pick _)
  | roll => exact yields_popIndex.bind fun _ _ => yields_onMain (Stack.yields_roll _)
  | tuck => exact yields_onMain Stack.yields_tuck

theorem yields_checkSig (c : Context) (sig key code : Bytes) :
    Yields (Machine.Bounded size n) (checkSig r c sig key code) fun _ => True := by
  intro m v after hm hok
  obtain ⟨journal, heq⟩ := checkSig_eq r c sig key code m
  rw [hok] at heq
  cases hvalid : r.validity c sig key code with
  | ok v' =>
    rw [hvalid] at heq
    cases heq
    exact ⟨trivial, hm.main, hm.alt, hm.operations⟩
  | error cause =>
    rw [hvalid] at heq
    cases heq

theorem yields_matchKeys {I : Machine → Prop} {check : (sig key : Bytes) → Run Bool}
    (hcheck : ∀ sig key, Yields I (check sig key) fun _ => True) (keys sigs : List Bytes) :
    Yields I (matchKeys check keys sigs) fun _ => True := by
  induction keys generalizing sigs with
  | nil => cases sigs <;> exact yields_pure trivial
  | cons key keys ih =>
    cases sigs with
    | nil => exact yields_pure trivial
    | cons sig sigs =>
      refine yields_ite (fun _ => yields_pure trivial) fun _ => (hcheck sig key).bind fun v _ => ?_
      cases v with
      | true => exact ih sigs
      | false => exact ih (sig :: sigs)

/-- Taking the keys counts one operation for each of them. -/
theorem bounded_popKeys {limit : Nat} {fault : Int → Fault} {keys : List Bytes}
    (hm : m.Bounded size n)
    (h : popCounted r limit fault (countOperations r) m = .ok keys after) :
    after.Bounded size (n + (Number.clamp 64 (Number.value (m.main.headD []))).toNat) := by
  obtain ⟨v, m₁, hcount, hrest⟩ := bind_eq_ok h
  obtain ⟨a, rest, hmain, hdecode, rfl⟩ := popNumber_eq_ok hcount
  obtain ⟨-, rfl⟩ := Number.decode_eq_ok hdecode
  obtain ⟨-, hrest⟩ := require_bind_eq_ok hrest
  obtain ⟨u, m₂, hcounted, hpop⟩ := bind_eq_ok hrest
  obtain ⟨-, rfl⟩ := countOperations_eq_ok hcounted
  have hall := hm.main
  rw [hmain] at hall ⊢
  have hbelow : Machine.Bounded size (n + (Number.clamp 64 (Number.value a)).toNat)
      { m with
        main := rest
        operations := m.operations + (Number.clamp 64 (Number.value a)).toNat } :=
    ⟨(List.forall_mem_cons.mp hall).2, hm.alt, congrArg (· + _) hm.operations⟩
  exact (yields_onMain (Stack.yields_popMany _) _ _ _ hbelow hpop).2

theorem yields_popSignatures (limit : Nat) {fault : Int → Fault} :
    Yields (Machine.Bounded size n) (popCounted r limit fault fun _ => return ()) fun _ => True :=
  yields_popNumber.bind fun _ _ => yields_require_bind fun _ =>
    (yields_pure (P := fun _ => True) trivial).bind fun _ _ =>
    yields_onMain (Stack.yields_popMany _)

theorem yields_currentPart (script : List Instruction) :
    Yields (Machine.Bounded size n) (currentPart script) fun _ => True :=
  yields_get.bind fun _ _ => yields_pure trivial

theorem yields_checkPair (c : Context) (part : List Instruction) (legacy : List Bytes)
    (sig key : Bytes) :
    Yields (Machine.Bounded size n) (checkPair r c part legacy sig key) fun _ => True :=
  yields_ofExcept.bind fun _ _ => yields_ofExcept.bind fun _ _ => yields_checkSig c sig key _

section

variable (hr : r.Roomy size)

include hr

theorem yields_pushTruth (v : Bool) :
    Yields (Machine.Bounded size n) (pushTruth v) fun _ => True := by
  have hle := Number.length_ofTruth_le v
  have hdigest := hr.digest
  exact yields_push (by omega)

theorem yields_arithmetic (op : Opcode) {x : ArithmeticOp}
    (hopens : r.Opens (Operation.arithmetic x).gate) :
    Yields (Machine.Bounded size n) (arithmetic r op x) fun _ => True := by
  have hsum := hr.sum
  cases x with
  | unary f =>
    exact yields_popNumber.bind fun _ hn =>
      yields_pushNumber ((hn.next (f.natAbs_eval_le _)).mono hsum)
  | binary f =>
    have hproduct : f = .mul → 2 * r.limits.maxNumberLength ≤ size := by
      rintro rfl
      exact hr.product hopens
    exact yields_popTwoNumbers.bind fun _ hp =>
      yields_pushNumber (f.fits_eval hp.1 hp.2 hsum hproduct)
  | quotient =>
    refine yields_popTwoNumbers.bind fun p hp => yields_require_bind fun _ => ?_
    have hquotient : (p.1.tdiv p.2).natAbs ≤ p.1.natAbs := by
      rw [Int.natAbs_tdiv]
      exact Nat.div_le_self _ _
    exact yields_pushNumber ((hp.1.of_natAbs_le hquotient).mono (Nat.le_of_lt hsum))
  | remainder =>
    refine yields_popTwoNumbers.bind fun p hp => yields_require_bind fun _ => ?_
    have hremainder : (p.1.tmod p.2).natAbs ≤ p.1.natAbs := by
      rw [Int.natAbs_tmod]
      exact Nat.mod_le _ _
    exact yields_pushNumber ((hp.1.of_natAbs_le hremainder).mono (Nat.le_of_lt hsum))
  | shiftLeft => exact yields_shift Bytes.length_shiftLeft
  | shiftRight => exact yields_shift Bytes.length_shiftRight
  | compare f checked =>
    exact yields_popTwoNumbers.bind fun _ _ => (yields_pushTruth hr _).bind fun _ _ =>
      yields_ite (fun _ => yields_verifyTop op) fun _ => yields_pure trivial
  | within =>
    exact yields_popNumber.bind fun _ _ => yields_popNumber.bind fun _ _ =>
      yields_popNumber.bind fun _ _ => yields_pushTruth hr _

theorem yields_splice (x : SpliceOp) :
    Yields (Machine.Bounded size n) (splice r x) fun _ => True := by
  have hsum := hr.sum
  cases x with
  | cat =>
    refine yields_pop.bind fun b _ => yields_pop.bind fun a _ => yields_require_bind fun hsize => ?_
    refine yields_push ?_
    rw [List.length_append]
    exact Nat.le_trans (of_decide_eq_true hsize) hr.element
  | split =>
    refine yields_popNumber.bind fun k _ => yields_pop.bind fun b hb =>
      yields_require_bind fun _ => ?_
    have htake : (b.take (Number.clamp 64 k).toNat).length ≤ b.length := List.length_take_le' _ _
    have hdrop : (b.drop (Number.clamp 64 k).toNat).length ≤ b.length := by
      rw [List.length_drop]
      exact Nat.sub_le _ _
    exact (yields_push (Nat.le_trans htake hb)).bind fun _ _ => yields_push (Nat.le_trans hdrop hb)
  | numToBin =>
    refine yields_popNumber.bind fun k _ => yields_pop.bind fun b _ =>
      yields_require_bind fun _ => yields_require_bind fun hsize =>
      yields_require_bind fun hwide => yields_push ?_
    have hsize := Nat.le_trans (of_decide_eq_true hsize) hr.element
    have hwide := of_decide_eq_true hwide
    split
    · next heq => rwa [heq]
    · next hne => rwa [Number.length_widen (Nat.lt_of_le_of_ne hwide hne)]
  | binToNum =>
    refine yields_pop.bind fun b _ => yields_require_bind fun hsize => yields_push ?_
    exact Nat.le_trans (of_decide_eq_true hsize) (Nat.le_of_lt hsum)
  | size =>
    exact (yields_onMain (Stack.yields_peek 0)).bind fun b hb =>
      yields_pushNumber (Number.fits_length hb (by omega))

theorem yields_bitwise (op : Opcode) (x : BitwiseOp) :
    Yields (Machine.Bounded size n) (bitwise op x) fun _ => True := by
  cases x with
  | invert =>
    refine yields_pop.bind fun b hb => yields_push ?_
    rwa [List.length_map]
  | and => exact yields_combine _
  | or => exact yields_combine _
  | xor => exact yields_combine _
  | equal checked =>
    exact yields_pop.bind fun _ _ => yields_pop.bind fun _ _ => (yields_pushTruth hr _).bind
      fun _ _ => yields_ite (fun _ => yields_verifyTop op) fun _ => yields_pure trivial

theorem bounded_depth (hm : m.Bounded size n)
    (hdepth : m.main.length ≤ r.limits.maxStackSize) (h : stack r .depth m = .ok () after) :
    after.Bounded size n := by
  have hfits : Number.Fits size (m.main.length : Int) := by
    refine hr.depth.of_natAbs_le ?_
    rwa [Int.natAbs_natCast, Int.natAbs_natCast]
  exact (yields_pushNumber hfits m () after hm h).2

theorem yields_checkSingle (script : List Instruction) (op : Opcode) :
    Yields (Machine.Bounded size n) (checkSingle r script op) fun _ => True :=
  (yields_requireContext op).bind fun c _ =>
    yields_pop.bind fun key _ => yields_pop.bind fun sig _ =>
    yields_ofExcept.bind fun _ _ => yields_ofExcept.bind fun _ _ =>
    (yields_currentPart script).bind fun _ _ => (yields_checkSig c sig key _).bind fun v _ =>
    yields_require_bind fun _ => yields_pushTruth hr v

/-- The check of several signatures counts an operation for each key, as many as the element on top
says. -/
theorem bounded_checkMultiple {script : List Instruction} {op : Opcode}
    (hm : m.Bounded size n) (h : checkMultiple r script op m = .ok () after) :
    after.Bounded size
      (n + (Number.clamp 64 (Number.value (m.main.headD []))).toNat) := by
  obtain ⟨c, m₁, hcontext, h₁⟩ := bind_eq_ok h
  obtain ⟨-, rfl⟩ := requireContext_eq_ok hcontext
  obtain ⟨keys, m₂, hkeys, h₂⟩ := bind_eq_ok h₁
  -- from here on nothing is counted
  obtain ⟨sigs, m₃, -, hm₃, h₃⟩ := (yields_popSignatures _).of_bind (bounded_popKeys hm hkeys) h₂
  obtain ⟨dummy, m₄, -, hm₄, h₄⟩ := yields_pop.of_bind hm₃ h₃
  obtain ⟨-, h₅⟩ := require_bind_eq_ok h₄
  obtain ⟨part, m₅, -, hm₅, h₆⟩ := (yields_currentPart script).of_bind hm₄ h₅
  obtain ⟨v, m₆, -, hm₆, h₇⟩ :=
    (yields_matchKeys (yields_checkPair c part _) keys sigs).of_bind hm₅ h₆
  obtain ⟨-, h₈⟩ := require_bind_eq_ok h₇
  exact (yields_pushTruth hr v m₆ () after hm₆ h₈).2

theorem yields_crypto (script : List Instruction) (offset : Nat) (op : Opcode) {x : CryptoOp}
    (hx : ∀ checked, x ≠ .checkMultisig checked) :
    Yields (Machine.Bounded size n) (crypto r script offset op x)
      fun _ => True := by
  cases x with
  | hash f =>
    exact yields_pop.bind fun b _ => yields_push (Nat.le_trans (f.length_eval_le b) hr.digest)
  | codeSeparator =>
    intro m u after hm hok
    cases hok
    exact ⟨trivial, hm.main, hm.alt, hm.operations⟩
  | checkSig checked =>
    exact (yields_checkSingle hr script op).bind fun _ _ =>
      yields_ite (fun _ => yields_verifyTop op) fun _ => yields_pure trivial
  | checkMultisig checked => exact absurd rfl (hx checked)

/-- **No operation makes an element that is too long**, and none counts operations but the check of
several signatures. -/
theorem yields_perform (script : List Instruction) (offset : Nat) (executing : Bool)
    {i : Instruction} (hsize : i.data.length ≤ r.limits.maxElementSize)
    (hopens : r.Opens i.operation.gate) (hdepth : i.operation ≠ .stack .depth)
    (hmultisig : ∀ checked, i.operation ≠ .crypto (.checkMultisig checked)) :
    Yields (Machine.Bounded size n) (perform r script offset executing i)
      fun _ => True := by
  unfold perform
  cases hop : i.operation with
  | push =>
    have hvalue := i.length_pushValue_le
    have hdigest := hr.digest
    have helement := hr.element
    exact yields_push (by omega)
  | flow x => exact yields_flow executing _ x
  | stack x => exact yields_stack fun hx => hdepth (by rw [hop, hx])
  | splice x => exact yields_splice hr x
  | bitwise x => exact yields_bitwise hr _ x
  | arithmetic x =>
    rw [hop] at hopens
    exact yields_arithmetic hr _ hopens
  | crypto x =>
    exact yields_crypto hr script offset _ fun checked hx => hmultisig checked (by rw [hop, hx])
  | lockTime x => exact yields_of_moves (moves_lockTime chainable_eq r _ x)
  | nop upgradable => exact (yields_require _).mono fun _ _ => trivial
  | reserved always => exact yields_throw
  | disabled => exact yields_throw
  | invalid => exact yields_throw

/-- The same where the depth of the stack is known to be within its limit. -/
theorem bounded_perform {script : List Instruction} {offset : Nat} {executing : Bool}
    {i : Instruction} (hm : m.Bounded size n)
    (hsize : i.data.length ≤ r.limits.maxElementSize) (hopens : r.Opens i.operation.gate)
    (hstack : m.main.length ≤ r.limits.maxStackSize)
    (hmultisig : ∀ checked, i.operation ≠ .crypto (.checkMultisig checked))
    (h : perform r script offset executing i m = .ok () after) :
    after.Bounded size n := by
  by_cases hdepth : i.operation = .stack .depth
  · unfold perform at h
    rw [hdepth] at h
    exact bounded_depth hr hm hstack h
  · exact (yields_perform hr script offset executing hsize hopens hdepth hmultisig m () after hm
      h).2

/-- The check of several signatures as an operation. -/
theorem bounded_multisig {script : List Instruction} {offset : Nat} {op : Opcode} {checked : Bool}
    (hm : m.Bounded size n)
    (h : crypto r script offset op (.checkMultisig checked) m = .ok () after) :
    after.Bounded size
      (n + (Number.clamp 64 (Number.value (m.main.headD []))).toNat) := by
  obtain ⟨u, m₁, hcheck, hverify⟩ := bind_eq_ok h
  have hm₁ := bounded_checkMultiple hr hm hcheck
  cases checked with
  | true => exact (yields_verifyTop op m₁ () after hm₁ hverify).2
  | false =>
    cases hverify
    exact hm₁

end

end Run

end CoinScript
