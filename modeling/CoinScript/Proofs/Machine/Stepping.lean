import CoinScript.Proofs.Machine.Frame

/-!
# What a successful run went through

A run that succeeds has passed every check on its way.  For each level of the machine one theorem
says all that can be read off a success, so that properties of accepted runs need not open the
programs again:

* `step_eq_ok` for one instruction,
* `instructions_cons_eq_ok` and `script_eq_ok` for the instructions of a script,
* `spend_eq_ok` for the scripts of a spend, of which `spend_of_path` is the converse.
-/

namespace CoinScript

namespace Rules

/-- What a gate asks for is enabled. -/
def Opens (r : Rules) : Gate → Prop
  | .always => True
  | .extendedA => r.flags.has .extendedA = true
  | .extendedB => r.flags.has .extendedB = true
  | .never => False

end Rules

/-- What is asked of every instruction, after so many operations: its payload is not too long, its
gate is open, and it is not one operation too many. -/
structure Rules.Grants (r : Rules) (i : Instruction) (operations : Nat) : Prop where
  size : i.data.length ≤ r.limits.maxElementSize
  gate : r.Opens i.operation.gate
  count : 0x60 < i.code → operations + 1 ≤ r.limits.maxOps

/-- What is asked of an instruction that is executed, before the stack is looked at: if pushes have
to be minimal, this is one. -/
structure Rules.Readies (r : Rules) (i : Instruction) (operations : Nat) : Prop extends
    r.Grants i operations where
  minimal : r.flags.has .minimalData = true → i.code ≤ 0x4e → i.isMinimal = true

/-- Number of operations that an instruction counts for. -/
def Instruction.cost (i : Instruction) : Nat := if 0x60 < i.code then 1 else 0

/-- The machine with an instruction noted in the journal. -/
def Machine.noting (m : Machine) (offset : Nat) (i : Instruction) : Machine :=
  { m with
    journal := { m.journal with
      events := .instruction offset i.code m.main.length m.branches.depth :: m.journal.events } }

/-- The machine as the operation of an instruction finds it: the instruction has been counted and
noted. -/
def Machine.entering (m : Machine) (offset : Nat) (i : Instruction) : Machine :=
  Machine.noting { m with operations := m.operations + i.cost } offset i

namespace Run

variable {α β : Type} {r : Rules} {m after : Machine} {fault : Fault}

/-! ## Conditionals -/

theorem onBranches_eq_ok {f : Branches → Except Fault Branches} {u : Unit}
    (h : onBranches f m = .ok u after) :
    ∃ b, f m.branches = .ok b ∧ after = { m with branches := b } := by
  obtain ⟨b, m', hf, hset⟩ := bind_eq_ok (x := ofExcept (f m.branches)) h
  obtain ⟨hb, rfl⟩ := ofExcept_eq_ok hf
  cases hset
  exact ⟨b, hb, rfl⟩

theorem onBranches_eq_error {f : Branches → Except Fault Branches}
    (h : onBranches f m = .error fault after) : f m.branches = .error fault ∧ after = m := by
  cases hf : f m.branches with
  | ok b =>
    rw [onBranches_of_ok hf] at h
    cases h
  | error fault' =>
    rw [onBranches_of_error hf] at h
    cases h
    exact ⟨rfl, rfl⟩

/-- The operations of conditionals. -/
theorem operation_of_conditional {i : Instruction} (h : i.isConditional = true) :
    (∃ onTrue, i.operation = .flow (.opening onTrue)) ∨ i.operation = .flow .turning ∨
      i.operation = .flow .closing := by
  unfold Instruction.isConditional Operation.isConditional at h
  split at h
  · next onTrue hop => exact .inl ⟨onTrue, hop⟩
  · next hop => exact .inr (.inl hop)
  · next hop => exact .inr (.inr hop)
  · cases h

theorem perform_flow {script : List Instruction} {offset : Nat} {i : Instruction}
    {x : FlowOp} (hop : i.operation = .flow x) (executing : Bool) :
    perform r script offset executing i = flow r executing i.code x := by
  unfold perform
  rw [hop]

/-! ## One instruction -/

theorem checkGate_eq_ok {op : Opcode} {x : Operation} {u : Unit}
    (h : checkGate r op x m = .ok u after) : r.Opens x.gate ∧ after = m := by
  unfold checkGate at h
  unfold Rules.Opens
  cases hgate : x.gate with
  | always =>
    rw [hgate] at h
    cases h
    exact ⟨trivial, rfl⟩
  | extendedA =>
    rw [hgate] at h
    exact require_eq_ok h
  | extendedB =>
    rw [hgate] at h
    exact require_eq_ok h
  | never =>
    rw [hgate] at h
    cases h

theorem checkGate_of_opens {op : Opcode} {x : Operation} (h : r.Opens x.gate) :
    checkGate r op x m = .ok () m := by
  unfold checkGate
  unfold Rules.Opens at h
  cases hgate : x.gate with
  | always => rfl
  | extendedA =>
    rw [hgate] at h
    rw [h]
    rfl
  | extendedB =>
    rw [hgate] at h
    rw [h]
    rfl
  | never =>
    rw [hgate] at h
    exact h.elim

theorem countOperations_eq_ok {n : Nat} {u : Unit} (h : countOperations r n m = .ok u after) :
    m.operations + n ≤ r.limits.maxOps ∧ after = { m with operations := m.operations + n } := by
  obtain ⟨hle, rfl⟩ := require_eq_ok (m := { m with operations := m.operations + n }) h
  exact ⟨of_decide_eq_true hle, rfl⟩

theorem checkExecuted_eq_ok {i : Instruction} {u : Unit} (h : checkExecuted r i m = .ok u after) :
    (r.flags.has .minimalData = true → i.code ≤ 0x4e → i.isMinimal = true) ∧
      i.operation.arity ≤ m.main.length ∧ after = m := by
  obtain ⟨hminimal, hdepth⟩ := require_bind_eq_ok h
  obtain ⟨harity, rfl⟩ := require_eq_ok (m := m) hdepth
  refine ⟨fun hflag hle => ?_, of_decide_eq_true harity, rfl⟩
  simpa [hflag, hle] using hminimal

/-- The last check before the stack is looked at. -/
theorem readies_iff {i : Instruction} {operations : Nat} :
    r.Readies i operations ↔ r.Grants i operations ∧
      (!(r.flags.has .minimalData && decide (i.code ≤ 0x4e)) || i.isMinimal) = true := by
  constructor
  · intro h
    refine ⟨h.toGrants, or_of_imp fun hasked => ?_⟩
    obtain ⟨hflag, hcode⟩ := Bool.and_eq_true_iff.mp hasked
    exact h.minimal hflag (of_decide_eq_true hcode)
  · rintro ⟨hgrants, hpush⟩
    exact ⟨hgrants, fun hflag hcode => by simpa [hflag, hcode] using hpush⟩

/-- What is left of the checks is to compare the depth of the stack with the arity. -/
theorem checkExecuted_of_readies {i : Instruction} {operations : Nat} (h : r.Readies i operations)
    (harity : i.operation.arity ≤ m.main.length) : checkExecuted r i m = .ok () m := by
  unfold checkExecuted
  rw [require_bind_of_true (readies_iff.mp h).2]
  show require (decide (i.operation.arity ≤ m.main.length)) _ m = _
  rw [decide_eq_true harity]
  rfl

theorem checkExecuted_of_shallow {i : Instruction} {operations : Nat} (h : r.Readies i operations)
    (hshallow : m.main.length < i.operation.arity) :
    checkExecuted r i m = .error (.tooShallow i.code i.operation.arity m.main.length) m := by
  unfold checkExecuted
  rw [require_bind_of_true (readies_iff.mp h).2]
  show require (decide (i.operation.arity ≤ m.main.length)) _ m = _
  rw [decide_eq_false (Nat.not_le.mpr hshallow)]
  rfl

/-- What has to hold of every instruction, whether it is executed or not. -/
def inspect (r : Rules) (i : Instruction) : Run Unit := do
  require (decide (i.data.length ≤ r.limits.maxElementSize))
    (.elementTooLong i.data.length r.limits.maxElementSize)
  checkGate r i.code i.operation
  if 0x60 < i.code then
    countOperations r 1

/-- What an instruction does once it has been admitted. -/
def enter (r : Rules) (script : List Instruction) (offset : Nat) (i : Instruction) :
    Run Unit := do
  let executing := (← get).branches.isExecuting
  if executing || i.isConditional then
    let m ← get
    record (.instruction offset i.code m.main.length m.branches.depth)
    if executing then
      checkExecuted r i
    perform r script offset executing i

theorem step_eq (r : Rules) (script : List Instruction) (offset : Nat) (i : Instruction) :
    step r script offset i = (inspect r i >>= fun _ => enter r script offset i) := by
  unfold step inspect enter
  simp only [bind_assoc]
  by_cases hcode : 0x60 < i.code
  · simp only [if_pos hcode]
  · simp only [if_neg hcode]
    rfl

/-- An instruction that is admitted has been counted, and nothing else has happened. -/
theorem inspect_eq_ok {i : Instruction} {u : Unit} (h : inspect r i m = .ok u after) :
    r.Grants i m.operations ∧ after = { m with operations := m.operations + i.cost } := by
  obtain ⟨hsize, hrest⟩ := require_bind_eq_ok h
  obtain ⟨_, m', hgate, hcount⟩ := bind_eq_ok hrest
  obtain ⟨hopens, rfl⟩ := checkGate_eq_ok hgate
  unfold Instruction.cost
  by_cases hcode : 0x60 < i.code
  · rw [if_pos hcode] at hcount ⊢
    obtain ⟨hle, hafter⟩ := countOperations_eq_ok hcount
    exact ⟨⟨of_decide_eq_true hsize, hopens, fun _ => hle⟩, hafter⟩
  · rw [if_neg hcode] at hcount ⊢
    cases hcount
    exact ⟨⟨of_decide_eq_true hsize, hopens, fun h => absurd h hcode⟩, rfl⟩

theorem inspect_of_grants {i : Instruction} (h : r.Grants i m.operations) :
    inspect r i m = .ok () { m with operations := m.operations + i.cost } := by
  unfold inspect Instruction.cost
  rw [require_bind_of_true (decide_eq_true h.size), bind_of_ok (checkGate_of_opens h.gate)]
  by_cases hcode : 0x60 < i.code
  · rw [if_pos hcode, if_pos hcode]
    exact countOperations_of_le (h.count hcode)
  · rw [if_neg hcode, if_neg hcode]
    rfl

/-- An instruction that is executed is noted, checked and performed. -/
theorem enter_of_executing {script : List Instruction} {offset : Nat} {i : Instruction}
    (h : m.branches.isExecuting = true) : enter r script offset i m =
      (checkExecuted r i >>= fun _ => perform r script offset true i) (m.noting offset i) := by
  show (if m.branches.isExecuting || i.isConditional then _ else _ : Run Unit) m = _
  rw [h, Bool.true_or, if_pos rfl]
  rfl

/-- A conditional that is not executed is noted and performed. -/
theorem enter_of_conditional {script : List Instruction} {offset : Nat} {i : Instruction}
    (h : m.branches.isExecuting = false) (hi : i.isConditional = true) :
    enter r script offset i m = perform r script offset false i (m.noting offset i) := by
  show (if m.branches.isExecuting || i.isConditional then _ else _ : Run Unit) m = _
  rw [h, hi, Bool.or_true, if_pos rfl]
  rfl

/-- Nothing else happens where nothing is executed. -/
theorem enter_of_passive {script : List Instruction} {offset : Nat} {i : Instruction}
    (h : m.branches.isExecuting = false) (hi : i.isConditional = false) :
    enter r script offset i m = .ok () m := by
  show (if m.branches.isExecuting || i.isConditional then _ else _ : Run Unit) m = _
  rw [h, hi]
  rfl

/-- An instruction that is ready and finds as many elements as its arity says is performed. -/
theorem step_of_readies {script : List Instruction} {offset : Nat} {i : Instruction}
    (hexecuting : m.branches.isExecuting = true) (h : r.Readies i m.operations)
    (harity : i.operation.arity ≤ m.main.length) :
    step r script offset i m = perform r script offset true i (m.entering offset i) := by
  rw [step_eq, bind_of_ok (inspect_of_grants h.toGrants),
    enter_of_executing (m := { m with operations := m.operations + i.cost }) hexecuting]
  exact bind_of_ok (checkExecuted_of_readies h harity)

/-- If there are fewer elements it stops at that. -/
theorem step_of_shallow {script : List Instruction} {offset : Nat} {i : Instruction}
    (hexecuting : m.branches.isExecuting = true) (h : r.Readies i m.operations)
    (hshallow : m.main.length < i.operation.arity) :
    step r script offset i m =
      .error (.tooShallow i.code i.operation.arity m.main.length) (m.entering offset i) := by
  rw [step_eq, bind_of_ok (inspect_of_grants h.toGrants),
    enter_of_executing (m := { m with operations := m.operations + i.cost }) hexecuting]
  exact bind_of_error (checkExecuted_of_shallow h hshallow)

/-- What an instruction does once it has been admitted. -/
theorem enter_eq_ok {script : List Instruction} {offset : Nat} {i : Instruction}
    (h : enter r script offset i m = .ok () after) :
    (m.branches.isExecuting = false ∧ i.isConditional = false ∧ after = m) ∨
    (m.branches.isExecuting || i.isConditional) = true ∧
      (m.branches.isExecuting = true →
        (r.flags.has .minimalData = true → i.code ≤ 0x4e → i.isMinimal = true) ∧
        i.operation.arity ≤ m.main.length) ∧
      ∃ journal, perform r script offset m.branches.isExecuting i { m with journal } =
        .ok () after := by
  cases hexecuting : m.branches.isExecuting with
  | true =>
    rw [enter_of_executing hexecuting] at h
    obtain ⟨u, m', hcheck, hperform⟩ := bind_eq_ok h
    obtain ⟨hminimal, harity, rfl⟩ := checkExecuted_eq_ok hcheck
    exact .inr ⟨rfl, fun _ => ⟨hminimal, harity⟩, _, hperform⟩
  | false =>
    cases hi : i.isConditional with
    | true =>
      rw [enter_of_conditional hexecuting hi] at h
      exact .inr ⟨rfl, fun hfalse => (by cases hfalse), _, h⟩
    | false =>
      rw [enter_of_passive hexecuting hi] at h
      cases h
      exact .inl ⟨rfl, rfl, rfl⟩

/-- **What one instruction does if it succeeds.**  Its payload, its gate and the count of operations
are in order.  Then nothing happens, where nothing is executed; or its operation is performed, on
as many elements as it needs. -/
theorem step_eq_ok {script : List Instruction} {offset : Nat} {i : Instruction}
    (h : step r script offset i m = .ok () after) :
    i.data.length ≤ r.limits.maxElementSize ∧ r.Opens i.operation.gate ∧
    (0x60 < i.code → m.operations + i.cost ≤ r.limits.maxOps) ∧
    ((m.branches.isExecuting = false ∧ i.isConditional = false ∧
        after = { m with operations := m.operations + i.cost }) ∨
      (m.branches.isExecuting || i.isConditional) = true ∧
        (m.branches.isExecuting = true →
          (r.flags.has .minimalData = true → i.code ≤ 0x4e → i.isMinimal = true) ∧
          i.operation.arity ≤ m.main.length) ∧
        ∃ journal, perform r script offset m.branches.isExecuting i
          { m with operations := m.operations + i.cost, journal } = .ok () after) := by
  rw [step_eq] at h
  obtain ⟨u, m', hinspect, henter⟩ := bind_eq_ok h
  obtain ⟨hgrants, rfl⟩ := inspect_eq_ok hinspect
  refine ⟨hgrants.size, hgrants.gate, fun hcode => ?_, enter_eq_ok henter⟩
  rw [Instruction.cost, if_pos hcode]
  exact hgrants.count hcode

/-- What an instruction does that is executed. -/
theorem step_executing_eq_ok {script : List Instruction} {offset : Nat} {i : Instruction}
    (hexecuting : m.branches.isExecuting = true) (h : step r script offset i m = .ok () after) :
    i.data.length ≤ r.limits.maxElementSize ∧ i.operation.arity ≤ m.main.length ∧
      ∃ journal, perform r script offset true i
        { m with operations := m.operations + i.cost, journal } = .ok () after := by
  obtain ⟨hsize, -, -, hwhat⟩ := step_eq_ok h
  rcases hwhat with ⟨hskipped, -, -⟩ | ⟨-, hchecked, journal, hperform⟩
  · rw [hexecuting] at hskipped
    cases hskipped
  · rw [hexecuting] at hperform
    exact ⟨hsize, (hchecked hexecuting).2, journal, hperform⟩

/-! ## Scripts -/

theorem instructions_cons_eq_ok {script is : List Instruction} {offset : Nat} {i : Instruction}
    (h : instructions r script offset (i :: is) m = .ok () after) :
    ∃ m', step r script offset i m = .ok () m' ∧
      m'.main.length + m'.alt.length ≤ r.limits.maxStackSize ∧
      instructions r script (offset + 1) is m' = .ok () after := by
  obtain ⟨u, m', hstep, hrest⟩ := bind_eq_ok h
  obtain ⟨hsize, hrest'⟩ := require_bind_eq_ok (m := m') hrest
  exact ⟨m', hstep, of_decide_eq_true hsize, hrest'⟩

/-- A script ends with no conditional open, and the alt stack is dropped. -/
theorem script_eq_ok {is : List Instruction} (h : Run.script r is m = .ok () after) :
    ∃ m', instructions r is 0 is { m with branches := .none, codeStart := 0, operations := 0 } =
        .ok () m' ∧ m'.branches.frames = [] ∧ after = { m' with alt := [] } := by
  obtain ⟨u, m₀, hreset, hrun⟩ := bind_eq_ok h
  cases hreset
  obtain ⟨u, m', hinstructions, hend⟩ := bind_eq_ok hrun
  obtain ⟨hclosed, hclear⟩ := require_bind_eq_ok (m := m') hend
  cases hclear
  exact ⟨m', hinstructions, of_decide_eq_true hclosed, rfl⟩

/-! ## Spends -/

theorem parse_eq_ok {s : Script} {is : List Instruction} (h : parse s m = .ok is after) :
    (Script.scan s).2 = [] ∧ is = (Script.scan s).1 ∧ after = m := by
  obtain ⟨htail, hrest⟩ := require_bind_eq_ok h
  cases hrest
  exact ⟨by simpa using htail, rfl, rfl⟩

theorem parse_of_tail {s : Script} (h : (Script.scan s).2 = []) (m : Machine) :
    parse s m = .ok (Script.scan s).1 m := by
  unfold parse
  exact require_bind_of_true (by rw [h]; rfl) m

/-- The top of the stack is only looked at. -/
theorem peekTruth_of_main {top : Bytes} {below : Stack} (hmain : m.main = top :: below) :
    onMain (Stack.peekTruth 0) m = .ok (Number.truth top) m := by
  unfold onMain
  rw [hmain]
  show EStateM.Result.ok (Number.truth top) { m with main := top :: below } = _
  rw [← hmain]

theorem checkTop_of_main {top : Bytes} {below : Stack} (hmain : m.main = top :: below)
    (htop : Number.truth top = true) : checkTop m = .ok () m := by
  show (require (decide (m.main ≠ [])) .nothingLeft >>= fun _ => _) m = _
  rw [require_bind_of_true (decide_eq_true (by rw [hmain]; exact List.cons_ne_nil _ _)),
    bind_of_ok (peekTruth_of_main hmain), htop]
  rfl

theorem checkTop_eq_ok {u : Unit} (h : checkTop m = .ok u after) :
    (∃ top below, m.main = top :: below ∧ Number.truth top = true) ∧ after = m := by
  obtain ⟨hne, htop⟩ := require_bind_eq_ok (m := m) h
  cases hmain : m.main with
  | nil =>
    rw [hmain] at hne
    cases hne
  | cons top below =>
    obtain ⟨v, m', hv, hrequire⟩ := bind_eq_ok htop
    rw [peekTruth_of_main hmain] at hv
    cases hv
    obtain ⟨htrue, rfl⟩ := require_eq_ok hrequire
    exact ⟨⟨top, below, rfl, htrue⟩, rfl⟩

/-- The script that the lock names is the top of what the unlocking script left.  It is run on the
rest of that, and has to leave a true element on top. -/
theorem redeem_eq_ok {left : Stack} (h : redeem r left m = .ok () after) :
    ∃ s below journal, left = s :: below ∧ s.length ≤ r.limits.maxScriptSize ∧
      (Script.scan s).2 = [] ∧
      Run.script r (Script.scan s).1 { m with main := below, journal } = .ok () after ∧
      checkTop after = .ok () after := by
  cases left with
  | nil => cases h
  | cons s below =>
    obtain ⟨hsize, hrecorded⟩ := require_bind_eq_ok h
    obtain ⟨u, m₁, hrecord, hparsed⟩ := bind_eq_ok hrecorded
    cases hrecord
    obtain ⟨is, m₂, hparse, hrun⟩ := bind_eq_ok hparsed
    obtain ⟨htail, rfl, rfl⟩ := parse_eq_ok hparse
    obtain ⟨u, m₃, hset, hscript⟩ := bind_eq_ok hrun
    cases hset
    obtain ⟨u, m₄, hrun, htop⟩ := bind_eq_ok hscript
    obtain ⟨-, rfl⟩ := checkTop_eq_ok htop
    exact ⟨s, below, _, rfl, of_decide_eq_true hsize, htail, hrun, htop⟩

/-- The lock names the hash of a script, and that is given a meaning. -/
def byScriptHash (r : Rules) (locking : Script) : Bool :=
  r.flags.has .payToScriptHash && Script.isPayToScriptHash locking

/-- The machines that a successful spend goes through: after the unlocking script, after the locking
script and at the end, with the checks on the way. -/
structure SpendPath (r : Rules) (unlocking locking : Script) (m opened locked after : Machine) :
    Prop where
  unlocking_size : unlocking.length ≤ r.limits.maxScriptSize
  locking_size : locking.length ≤ r.limits.maxScriptSize
  not_empty : ¬(unlocking = [] ∧ locking = [])
  unlocking_tail : (Script.scan unlocking).2 = []
  locking_tail : (Script.scan locking).2 = []
  pushOnly : r.flags.has .pushOnly = true ∨ byScriptHash r locking = true →
    isPushOnly (Script.scan unlocking).1 = true
  unlocks : Run.script r (Script.scan unlocking).1 m = .ok () opened
  locks : Run.script r (Script.scan locking).1 opened = .ok () locked
  top : checkTop locked = .ok () locked
  redeems : byScriptHash r locking = true → redeem r opened.main locked = .ok () after
  ends : byScriptHash r locking = false → after = locked
  clean : r.flags.has .cleanStack = true → after.main.length = 1

/-- The end of a spend. -/
theorem finish_eq_ok {left : Stack} {named : Bool}
    (h : (do
        if named then redeem r left
        let depth := (← get).main.length
        require (!r.flags.has .cleanStack || depth == 1) (.notClean (depth - 1)) : Run Unit) m =
      .ok () after) :
    (named = true → redeem r left m = .ok () after) ∧ (named = false → after = m) ∧
      (r.flags.has .cleanStack = true → after.main.length = 1) := by
  have hclean : ∀ {m : Machine}, require (!r.flags.has .cleanStack || m.main.length == 1)
      (.notClean (m.main.length - 1)) m = .ok () after →
      after = m ∧ (r.flags.has .cleanStack = true → after.main.length = 1) := by
    intro m h
    obtain ⟨hcondition, rfl⟩ := require_eq_ok h
    exact ⟨rfl, fun hflag => by simpa [hflag] using hcondition⟩
  cases named with
  | true =>
    obtain ⟨u, m', hredeem, hrest⟩ := bind_eq_ok h
    obtain ⟨rfl, hlength⟩ := hclean hrest
    exact ⟨fun _ => hredeem, fun hfalse => (by cases hfalse), hlength⟩
  | false =>
    obtain ⟨rfl, hlength⟩ := hclean h
    exact ⟨fun hfalse => (by cases hfalse), fun _ => rfl, hlength⟩

/-- **What a spend went through if it succeeds.** -/
theorem spend_eq_ok {unlocking locking : Script} (h : spend r unlocking locking m = .ok () after) :
    ∃ opened locked, SpendPath r unlocking locking m opened locked after := by
  obtain ⟨hunlockingSize, h₁⟩ := require_bind_eq_ok h
  obtain ⟨hlockingSize, h₂⟩ := require_bind_eq_ok h₁
  obtain ⟨hne, h₃⟩ := require_bind_eq_ok h₂
  obtain ⟨first, m₁, hfirst, h₄⟩ := bind_eq_ok h₃
  obtain ⟨hunlockingTail, rfl, rfl⟩ := parse_eq_ok hfirst
  obtain ⟨second, m₂, hsecond, h₅⟩ := bind_eq_ok h₄
  obtain ⟨hlockingTail, rfl, rfl⟩ := parse_eq_ok hsecond
  obtain ⟨hpushOnly, h₆⟩ := require_bind_eq_ok h₅
  obtain ⟨hnamed, h₇⟩ := require_bind_eq_ok h₆
  -- both scripts, and what the first left
  obtain ⟨u, opened, hunlocks, h₈⟩ := bind_eq_ok h₇
  obtain ⟨found, m₃, hget, h₉⟩ := bind_eq_ok h₈
  cases hget
  obtain ⟨u, locked, hlocks, h₁₀⟩ := bind_eq_ok h₉
  obtain ⟨u, m₄, htop, h₁₁⟩ := bind_eq_ok h₁₀
  obtain ⟨-, rfl⟩ := checkTop_eq_ok htop
  obtain ⟨hredeems, hends, hclean⟩ := finish_eq_ok h₁₁
  refine ⟨opened, _, of_decide_eq_true hunlockingSize, of_decide_eq_true hlockingSize,
    of_decide_eq_true hne, hunlockingTail, hlockingTail, ?_, hunlocks, hlocks, htop, hredeems,
    hends, hclean⟩
  rintro (hflag | hflag)
  · simpa [hflag] using hpushOnly
  · unfold byScriptHash at hflag
    simpa [hflag] using hnamed

/-- A spend that passes every check on its way succeeds. -/
theorem spend_of_path {unlocking locking : Script} {opened locked : Machine}
    (h : SpendPath r unlocking locking m opened locked after) :
    spend r unlocking locking m = .ok () after := by
  have hpushOnly : (!r.flags.has .pushOnly || isPushOnly (Script.scan unlocking).1) = true :=
    or_of_imp fun hflag => h.pushOnly (.inl hflag)
  have hnamed : (!byScriptHash r locking || isPushOnly (Script.scan unlocking).1) = true :=
    or_of_imp fun hflag => h.pushOnly (.inr hflag)
  have hclean : require (!r.flags.has .cleanStack || after.main.length == 1)
      (.notClean (after.main.length - 1)) after = .ok () after := by
    rw [or_of_imp fun hflag => beq_iff_eq.mpr (h.clean hflag)]
    rfl
  unfold spend
  rw [checkSize, require_bind_of_true (decide_eq_true h.unlocking_size), checkSize,
    require_bind_of_true (decide_eq_true h.locking_size),
    require_bind_of_true (decide_eq_true h.not_empty),
    bind_of_ok (parse_of_tail h.unlocking_tail m), bind_of_ok (parse_of_tail h.locking_tail m),
    require_bind_of_true hpushOnly]
  show (require (!byScriptHash r locking || isPushOnly _) _ >>= fun _ => _) m = _
  rw [require_bind_of_true hnamed, bind_of_ok h.unlocks]
  show (Run.script r (Script.scan locking).1 >>= fun _ => checkTop >>= fun _ =>
    if byScriptHash r locking then _ else _) opened = _
  rw [bind_of_ok h.locks, bind_of_ok h.top]
  cases hflag : byScriptHash r locking with
  | true =>
    show (redeem r opened.main >>= fun _ => _) locked = _
    rw [bind_of_ok (h.redeems hflag)]
    exact hclean
  | false =>
    rw [h.ends hflag] at hclean ⊢
    exact hclean

end Run

end CoinScript
