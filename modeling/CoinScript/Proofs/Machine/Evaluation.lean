import CoinScript.Machine.Execute
import CoinScript.Proofs.Sequencing

/-!
# Runs from known machines

What a computation gives on a machine of which enough is known.  `bind_of_ok` and `bind_of_error` go
through a program step by step, and one theorem for each elementary computation says what it does.
The other way round `bind_eq_ok` takes a success apart, down to the successes of elementary
computations.

`Rules.validity` is the answer to a check of a signature apart from what it leaves in the journal:
`checkSig_eq` says that nothing else of the machine has an influence on it.
-/

namespace CoinScript

namespace Rules

/-- What `Run.checkSig` finds, apart from what it leaves in the journal. -/
def validity (r : Rules) (c : Context) (sig key code : Bytes) : Except Failure Bool :=
  match sig.getLast? with
  | none => .ok false
  | some b =>
    match Signature.ofDerLax sig.dropLast, r.scheme.decodeKey key with
    | .ok s, some k =>
      (c.digest r.input code (.ofByte b) (r.usesForkId sig)).map (s.verify r.scheme k)
    | _, _ => .ok false

/-- A validity that is not found is a digest that the transaction does not give. -/
theorem digest_of_validity {r : Rules} {c : Context} {sig key code : Bytes} {cause : Failure}
    (h : r.validity c sig key code = .error cause) : ∃ b, sig.getLast? = some b ∧
      c.digest r.input code (.ofByte b) (r.usesForkId sig) = .error cause := by
  unfold validity at h
  cases hb : sig.getLast? with
  | none =>
    rw [hb] at h
    cases h
  | some b =>
    rw [hb] at h
    dsimp only at h
    split at h
    · cases hdigest : c.digest r.input code (.ofByte b) (r.usesForkId sig) with
      | ok digest =>
        rw [hdigest] at h
        cases h
      | error cause' =>
        rw [hdigest] at h
        cases h
        exact ⟨b, rfl, hdigest⟩
    · cases h

/-- What is valid can be read, has a digest, and is verified. -/
theorem validity_eq_true_iff {r : Rules} {c : Context} {sig key code : Bytes} :
    r.validity c sig key code = .ok true ↔
      ∃ b s k digest, sig.getLast? = some b ∧ Signature.ofDerLax sig.dropLast = .ok s ∧
        r.scheme.decodeKey key = some k ∧
        c.digest r.input code (.ofByte b) (r.usesForkId sig) = .ok digest ∧
        s.verify r.scheme k digest = true := by
  constructor
  · intro h
    unfold validity at h
    cases hb : sig.getLast? with
    | none =>
      rw [hb] at h
      cases h
    | some b =>
      rw [hb] at h
      dsimp only at h
      split at h
      · next s k hs hk =>
        cases hdigest : c.digest r.input code (.ofByte b) (r.usesForkId sig) with
        | ok digest =>
          rw [hdigest] at h
          exact ⟨b, s, k, digest, rfl, hs, hk, hdigest, Except.ok.inj h⟩
        | error cause =>
          rw [hdigest] at h
          cases h
      · cases h
  · rintro ⟨b, s, k, digest, hb, hs, hk, hdigest, hverify⟩
    unfold validity
    rw [hb, hs, hk]
    dsimp only
    rw [hdigest]
    exact congrArg Except.ok hverify

end Rules

namespace Run

variable {α β : Type}

/-! ## Checks and results -/

/-- A check that passes in front of a program. -/
theorem require_bind_of_true {c : Bool} {fault : Fault} {f : Unit → Run β} (h : c = true)
    (m : Machine) : (require c fault >>= f) m = f () m := by
  rw [h]
  rfl

/-- The condition of a check that is made only where `a` holds. -/
theorem or_of_imp {a b : Bool} (h : a = true → b = true) : (!a || b) = true := by
  cases a with
  | true => exact h rfl
  | false => rfl

/-- A computation that has a result succeeds. -/
theorem exists_eq_ok {x : Run α} {m : Machine} {a : α} (h : x.run' m = some a) :
    ∃ after, x m = .ok a after := by
  unfold EStateM.run' EStateM.run at h
  cases hx : x m with
  | ok b after =>
    rw [hx] at h
    cases h
    exact ⟨after, rfl⟩
  | error fault after =>
    rw [hx] at h
    cases h

/-! ## Successes of elementary computations -/

section

variable {m after : Machine}

theorem require_eq_ok {c : Bool} {fault : Fault} {u : Unit} (h : require c fault m = .ok u after) :
    c = true ∧ after = m := by
  cases c with
  | true =>
    cases h
    exact ⟨rfl, rfl⟩
  | false => cases h

theorem require_eq_error {c : Bool} {fault found : Fault}
    (h : require c fault m = .error found after) : c = false ∧ found = fault ∧ after = m := by
  cases c with
  | true => cases h
  | false =>
    cases h
    exact ⟨rfl, rfl, rfl⟩

theorem ofExcept_eq_ok {x : Except Fault α} {a : α} (h : ofExcept x m = .ok a after) :
    x = .ok a ∧ after = m := by
  cases x with
  | ok b =>
    cases h
    exact ⟨rfl, rfl⟩
  | error fault => cases h

/-- A check in front of a program. -/
theorem require_bind_eq_ok {c : Bool} {fault : Fault} {f : Unit → Run β} {b : β}
    (h : (require c fault >>= f) m = .ok b after) : c = true ∧ f () m = .ok b after := by
  obtain ⟨u, m', hrequire, hf⟩ := bind_eq_ok h
  obtain ⟨hc, rfl⟩ := require_eq_ok hrequire
  exact ⟨hc, hf⟩

theorem requireContext_eq_ok {r : Rules} {op : Opcode} {c : Context}
    (h : r.requireContext op m = .ok c after) : r.context = some c ∧ after = m := by
  unfold Rules.requireContext at h
  cases hc : r.context with
  | some c' =>
    rw [hc] at h
    cases h
    exact ⟨rfl, rfl⟩
  | none =>
    rw [hc] at h
    cases h

theorem inputSequence_eq_ok {r : Rules} {c : Context} {sequence : UInt32}
    (h : inputSequence r c m = .ok sequence after) :
    c.sequence r.input = some sequence ∧ after = m := by
  unfold inputSequence at h
  cases hsequence : c.sequence r.input with
  | some sequence' =>
    rw [hsequence] at h
    cases h
    exact ⟨rfl, rfl⟩
  | none =>
    rw [hsequence] at h
    cases h

theorem pop_eq_ok {b : Bytes} (h : pop m = .ok b after) :
    ∃ rest, m.main = b :: rest ∧ after = { m with main := rest } := by
  cases hmain : m.main with
  | nil =>
    unfold pop onMain at h
    rw [hmain] at h
    cases h
  | cons x rest =>
    unfold pop onMain at h
    rw [hmain] at h
    cases h
    exact ⟨rest, rfl, rfl⟩

/-- The operand of a conditional is the top, and stands for its truth value. -/
theorem popCondition_eq_ok {r : Rules} {condition : Bool}
    (h : popCondition r m = .ok condition after) :
    ∃ top rest, m.main = top :: rest ∧ condition = Number.truth top := by
  unfold popCondition at h
  cases hflag : r.flags.has .minimalIf with
  | true =>
    rw [hflag, if_pos rfl] at h
    obtain ⟨top, m', hpop, hrest⟩ := bind_eq_ok h
    obtain ⟨rest, hmain, rfl⟩ := pop_eq_ok hpop
    refine ⟨top, rest, hmain, ?_⟩
    obtain ⟨-, hrest⟩ := require_bind_eq_ok hrest
    match top, hrest with
    | [], hrest =>
      cases hrest
      rfl
    | [x], hrest =>
      obtain ⟨-, hrest⟩ := require_bind_eq_ok hrest
      cases hrest
      rfl
    | _ :: _ :: _, hrest =>
      cases hrest
      rfl
  | false =>
    rw [hflag, if_neg Bool.false_ne_true] at h
    unfold onMain at h
    cases hmain : m.main with
    | nil =>
      rw [hmain] at h
      cases h
    | cons top rest =>
      rw [hmain] at h
      cases h
      exact ⟨top, rest, rfl, rfl⟩

theorem popNumber_eq_ok {r : Rules} {n : Int} (h : popNumber r m = .ok n after) :
    ∃ a rest, m.main = a :: rest ∧ Number.decode r.numberFormat a = .ok n ∧
      after = { m with main := rest } := by
  cases hmain : m.main with
  | nil =>
    unfold popNumber onMain at h
    rw [hmain] at h
    cases h
  | cons a rest =>
    have hread : Stack.popNumber r.numberFormat (a :: rest) =
        Stack.asNumber r.numberFormat a rest := rfl
    unfold popNumber onMain at h
    rw [hmain, hread] at h
    unfold Stack.asNumber at h
    cases hdecode : Number.decode r.numberFormat a with
    | ok v =>
      rw [hdecode] at h
      cases h
      exact ⟨a, rest, rfl, hdecode, rfl⟩
    | error cause =>
      rw [hdecode] at h
      cases h

theorem popMany_eq_ok {n : Nat} {s s' : Stack} {xs : List Bytes}
    (h : Stack.popMany n s = .ok xs s') : s = xs ++ s' := by
  induction n generalizing s xs with
  | zero =>
    cases h
    rfl
  | succ n ih =>
    cases s with
    | nil => cases h
    | cons b s =>
      obtain ⟨top, below, hpop, hmany⟩ := bind_eq_ok h
      cases hpop
      obtain ⟨bs, s'', hrest, hdone⟩ := bind_eq_ok hmany
      cases hdone
      rw [List.cons_append, ← ih hrest]
      rfl

/-- What is taken off the stack by its count stood there, below the count. -/
theorem popCounted_eq_ok {r : Rules} {limit : Nat} {fault : Int → Fault} {before : Nat → Run Unit}
    {xs : List Bytes} (hbefore : ∀ n m m', before n m = .ok () m' → m'.main = m.main)
    (h : popCounted r limit fault before m = .ok xs after) :
    ∃ a, m.main = a :: (xs ++ after.main) := by
  obtain ⟨n, m₁, hcount, hrest⟩ := bind_eq_ok h
  obtain ⟨a, rest, hmain, -, rfl⟩ := popNumber_eq_ok hcount
  obtain ⟨-, hrest⟩ := require_bind_eq_ok hrest
  obtain ⟨u, m₂, hdone, hpop⟩ := bind_eq_ok hrest
  have hsame : m₂.main = rest := hbefore _ _ _ hdone
  unfold onMain at hpop
  rw [hsame] at hpop
  cases hmany : Stack.popMany (Number.clamp 64 n).toNat rest with
  | ok ys s =>
    rw [hmany] at hpop
    cases hpop
    exact ⟨a, by rw [hmain, popMany_eq_ok hmany]⟩
  | error fault s =>
    rw [hmany] at hpop
    cases hpop

end

/-! ## Elementary computations -/

/-- As many elements as are counted are taken, in the order in which they stand. -/
theorem popMany_append (xs rest : List Bytes) :
    Stack.popMany xs.length (xs ++ rest) = .ok xs rest := by
  induction xs with
  | nil => rfl
  | cons x xs ih =>
    have htop : Stack.pop (x :: (xs ++ rest)) = .ok x (xs ++ rest) := rfl
    rw [List.length_cons, Stack.popMany, List.cons_append, bind_of_ok htop, bind_of_ok ih]
    rfl

theorem countOperations_of_le {r : Rules} {n : Nat} {m : Machine}
    (h : m.operations + n ≤ r.limits.maxOps) :
    countOperations r n m = .ok () { m with operations := m.operations + n } := by
  show require (decide (m.operations + n ≤ r.limits.maxOps)) _ _ = _
  rw [decide_eq_true h]
  rfl

theorem countOperations_of_lt {r : Rules} {n : Nat} {m : Machine}
    (h : r.limits.maxOps < m.operations + n) :
    countOperations r n m =
      .error (.tooManyOperations r.limits.maxOps) { m with operations := m.operations + n } := by
  show require (decide (m.operations + n ≤ r.limits.maxOps)) _ _ = _
  rw [decide_eq_false (by omega)]
  rfl

theorem onBranches_of_ok {f : Branches → Except Fault Branches} {m : Machine} {b : Branches}
    (h : f m.branches = .ok b) : onBranches f m = .ok () { m with branches := b } := by
  show (ofExcept (f m.branches) >>= fun branches => modify fun m => { m with branches }) m = _
  rw [h]
  rfl

theorem onBranches_of_error {f : Branches → Except Fault Branches} {m : Machine} {fault : Fault}
    (h : f m.branches = .error fault) : onBranches f m = .error fault m := by
  show (ofExcept (f m.branches) >>= fun branches => modify fun m => { m with branches }) m = _
  rw [h]
  rfl

theorem pop_eq {m : Machine} {b : Bytes} {rest : Stack} (hm : m.main = b :: rest) :
    pop m = .ok b { m with main := rest } := by
  unfold pop onMain
  rw [hm]
  rfl

theorem popNumber_of_main {r : Rules} {m : Machine} {a : Bytes} {rest : Stack} {n : Int}
    (hmain : m.main = a :: rest) (h : Number.decode r.numberFormat a = .ok n) :
    popNumber r m = .ok n { m with main := rest } := by
  have hread : Stack.popNumber r.numberFormat (a :: rest) = .ok n rest := by
    show Stack.asNumber r.numberFormat a rest = _
    unfold Stack.asNumber
    rw [h]
    rfl
  unfold popNumber onMain
  rw [hmain, hread]

theorem requireContext_eq {r : Rules} {c : Context} (hc : r.context = some c) (op : Opcode)
    (m : Machine) : r.requireContext op m = .ok c m := by
  unfold Rules.requireContext
  rw [hc]
  rfl

/-! ## Signatures -/

/-- A check of a signature finds its validity, whatever the machine, and only adds to the
journal. -/
theorem checkSig_eq (r : Rules) (c : Context) (sig key code : Bytes) (m : Machine) :
    ∃ journal, checkSig r c sig key code m =
      match r.validity c sig key code with
      | .ok v => .ok v { m with journal }
      | .error cause => .error (.context cause) { m with journal } := by
  unfold checkSig Rules.validity
  cases sig.getLast? with
  | none => exact ⟨m.journal, rfl⟩
  | some b =>
    cases Signature.ofDerLax sig.dropLast with
    | error _ => exact ⟨m.journal, rfl⟩
    | ok s =>
      cases r.scheme.decodeKey key with
      | none => exact ⟨m.journal, rfl⟩
      | some k =>
        dsimp only
        unfold askDigest
        cases hdigest : c.digest r.input code (.ofByte b) (r.usesForkId sig) with
        | ok digest => exact ⟨_, rfl⟩
        | error cause => exact ⟨_, rfl⟩

/-- What a check of a signature has found is its validity. -/
theorem validity_of_checkSig {r : Rules} {c : Context} {sig key code : Bytes} {v : Bool}
    {m after : Machine} (h : checkSig r c sig key code m = .ok v after) :
    r.validity c sig key code = .ok v := by
  obtain ⟨journal, heq⟩ := checkSig_eq r c sig key code m
  rw [h] at heq
  cases hvalid : r.validity c sig key code with
  | ok v' =>
    rw [hvalid] at heq
    cases heq
    rfl
  | error cause =>
    rw [hvalid] at heq
    cases heq

end Run

end CoinScript
