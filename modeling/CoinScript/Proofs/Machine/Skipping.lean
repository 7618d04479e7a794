import CoinScript.Proofs.Machine.Places
import CoinScript.Proofs.Script.OpenConditionals

/-!
# Code that is not executed

In an arm that is not taken an instruction is still looked at: it has to be admitted, it is counted,
and conditionals are followed.  That is all it does.  `Run.skips_step` lists what can become of it,
and `Run.step_of_skipping` says that the transaction has no part in this.

## Blocks

Of a block of instructions the conditionals have to match among themselves, or it would close the
arm that it stands in.  `Branches.enclosing b turned` are the open conditionals `b` with those of
the block inside that have been opened and not closed yet.  Each of them takes neither arm, so of it
only this matters whether its second arm has begun, and that is what a reader of the marks keeps
(`Mark.track`).  Hence the open conditionals move exactly as the reader does
(`Branches.passing_enclosing`), and a block whose marks are nested ends where it began
(`Run.steps_of_track`).
-/

namespace CoinScript

/-- The codes of the rules that hold of every instruction, executed or not. -/
def FailureCode.everywhere : List FailureCode :=
  [.elementTooBig, .disabledOpcode, .opcodeNotEnabled, .reservedOpcode, .tooManyOperations]

/-- The machine with other events in its journal. -/
def Machine.logging (m : Machine) (events : List Event) : Machine :=
  { m with journal := { m.journal with events } }

namespace Branches

variable {b : Branches} {turned turned' : List Bool} {x : Operation} {mark : Mark}

/-- What an operation does to the open conditionals where nothing is executed. -/
def passing (b : Branches) : Operation → Except Fault Branches
  | .flow (.opening _) => .ok b.openingSkipped
  | .flow .turning => b.turning
  | .flow .closing => b.closing
  | _ => .ok b

/-- The open conditionals with others inside that are passed over.  Of these it is known, innermost
first, whether the second arm has begun. -/
def enclosing (b : Branches) (turned : List Bool) : Branches :=
  ⟨turned.map (⟨false, true, ·⟩) ++ b.frames, b.notTaken + turned.length⟩

theorem enclosing_nil (b : Branches) : b.enclosing [] = b := rfl

theorem isExecuting_enclosing (h : b.isExecuting = false) (turned : List Bool) :
    (b.enclosing turned).isExecuting = false := by
  have hpos : b.notTaken ≠ 0 := beq_eq_false_iff_ne.mp h
  have hpos' : b.notTaken + turned.length ≠ 0 := by omega
  exact beq_eq_false_iff_ne.mpr hpos'

theorem passing_of_mark (h : x.mark? = .none) : b.passing x = .ok b := by
  unfold passing
  split
  · cases h
  · cases h
  · cases h
  · rfl

/-- **A conditional that is passed over follows the reader of the marks.** -/
theorem passing_enclosing (hx : x.mark? = some mark) (h : Mark.track turned mark = some turned') :
    (b.enclosing turned).passing x = .ok (b.enclosing turned') := by
  unfold Operation.mark? at hx
  split at hx
  · cases hx
    cases h
    rfl
  · cases hx
    match turned, h with
    | false :: outer, h =>
      cases h
      rfl
  · cases hx
    match turned, h with
    | false :: outer, h =>
      cases h
      rfl
    | true :: outer, h =>
      cases h
      rfl
  · cases hx

theorem passing_of_track (h : x.mark?.toList.foldlM Mark.track turned = some turned') :
    (b.enclosing turned).passing x = .ok (b.enclosing turned') := by
  cases hx : x.mark? with
  | none =>
    rw [hx] at h
    cases h
    exact passing_of_mark hx
  | some mark =>
    rw [hx] at h
    exact passing_enclosing hx ((Mark.foldlM_track_singleton turned mark).symm.trans h)

end Branches

namespace Run

variable {r : Rules} {script block : List Instruction} {offset : Nat} {i : Instruction}
  {m after : Machine} {fault : Fault}

/-! ## One instruction -/

theorem checkGate_eq_error {op : Opcode} {x : Operation}
    (h : checkGate r op x m = .error fault after) :
    fault.code ∈ FailureCode.everywhere ∧ after = m := by
  unfold checkGate at h
  cases hgate : x.gate with
  | always =>
    rw [hgate] at h
    cases h
  | extendedA =>
    rw [hgate] at h
    obtain ⟨-, rfl, rfl⟩ := require_eq_error h
    exact ⟨by simp [Fault.code, FailureCode.everywhere], rfl⟩
  | extendedB =>
    rw [hgate] at h
    obtain ⟨-, rfl, rfl⟩ := require_eq_error h
    exact ⟨by simp [Fault.code, FailureCode.everywhere], rfl⟩
  | never =>
    rw [hgate] at h
    cases h
    by_cases hx : x = .disabled
    · rw [if_pos hx]
      exact ⟨by simp [Fault.code, FailureCode.everywhere], rfl⟩
    · rw [if_neg hx]
      exact ⟨by simp [Fault.code, FailureCode.everywhere], rfl⟩

/-- An instruction that is not admitted has at most been counted. -/
theorem inspect_eq_error (h : inspect r i m = .error fault after) :
    fault.code ∈ FailureCode.everywhere ∧ ∃ operations, after = { m with operations } := by
  rcases bind_eq_error h with hsize | ⟨_, m₁, hsize, hrest⟩
  · obtain ⟨-, rfl, hafter⟩ := require_eq_error hsize
    exact ⟨by simp [Fault.code, FailureCode.everywhere], m.operations, hafter⟩
  have hm₁ : m₁ = m := (require_eq_ok hsize).2
  subst m₁
  rcases bind_eq_error hrest with hgate | ⟨_, m₂, hgate, hcount⟩
  · obtain ⟨hcode, hafter⟩ := checkGate_eq_error hgate
    exact ⟨hcode, m.operations, hafter⟩
  have hm₂ : m₂ = m := (checkGate_eq_ok hgate).2
  subst m₂
  by_cases hcode : 0x60 < i.code
  · rw [if_pos hcode] at hcount
    obtain ⟨-, rfl, rfl⟩ := require_eq_error (m := { m with operations := m.operations + 1 }) hcount
    exact ⟨by simp [Fault.code, FailureCode.everywhere], _, rfl⟩
  · rw [if_neg hcode] at hcount
    cases hcount

/-- Where nothing is executed an instruction only follows the conditionals, whatever the rules. -/
theorem enter_of_skipping (m : Machine) (hskipping : m.branches.isExecuting = false) :
    enter r script offset i m =
      if i.isConditional then onBranches (·.passing i.operation) (m.noting offset i)
      else .ok () m := by
  cases hi : i.isConditional with
  | false => exact enter_of_passive hskipping hi
  | true =>
    rw [enter_of_conditional hskipping hi, if_pos rfl]
    rcases operation_of_conditional hi with ⟨onTrue, hop⟩ | hop | hop
    all_goals
      rw [perform_flow hop, hop]
      rfl

/-- What can become of an instruction where nothing is executed. -/
inductive Skips (m : Machine) (i : Instruction) : EStateM.Result Fault Machine Unit → Prop
  /-- It is not admitted. -/
  | refused {fault : Fault} {operations : Nat} (hcode : fault.code ∈ FailureCode.everywhere) :
      Skips m i (.error fault { m with operations })
  /-- It is a conditional that does not match. -/
  | unmatched {fault : Fault} {events : List Event}
      (hb : m.branches.passing i.operation = .error fault) :
      Skips m i (.error fault
        (Machine.logging { m with operations := m.operations + i.cost } events))
  /-- It is counted, and conditionals are followed. -/
  | passed {branches : Branches} {events : List Event}
      (hb : m.branches.passing i.operation = .ok branches) :
      Skips m i (.ok ()
        (Machine.logging { m with branches, operations := m.operations + i.cost } events))

theorem skips_step (hskipping : m.branches.isExecuting = false) :
    Skips m i (step r script offset i m) := by
  rw [step_eq]
  cases hinspect : inspect r i m with
  | error fault after =>
    rw [bind_of_error hinspect]
    obtain ⟨hcode, operations, rfl⟩ := inspect_eq_error hinspect
    exact .refused hcode
  | ok u m₁ =>
    rw [bind_of_ok hinspect]
    obtain ⟨-, rfl⟩ := inspect_eq_ok hinspect
    rw [enter_of_skipping { m with operations := m.operations + i.cost } hskipping]
    cases hi : i.isConditional with
    | false => exact .passed (Branches.passing_of_mark (Operation.mark?_eq_none hi))
    | true =>
      rw [if_pos rfl]
      cases hb : m.branches.passing i.operation with
      | error fault =>
        rw [onBranches_of_error hb]
        exact .unmatched hb
      | ok branches =>
        rw [onBranches_of_ok hb]
        exact .passed hb

/-- **Where nothing is executed the transaction has no part in what an instruction does.** -/
theorem step_of_skipping (hskipping : m.branches.isExecuting = false) (context : Option Context)
    (input : Nat) :
    step { r with context, input } script offset i m = step r script offset i m := by
  rw [step_eq, step_eq]
  show (inspect r i >>= fun _ => enter { r with context, input } script offset i) m = _
  cases hinspect : inspect r i m with
  | error fault after => rw [bind_of_error hinspect, bind_of_error hinspect]
  | ok u m₁ =>
    rw [bind_of_ok hinspect, bind_of_ok hinspect]
    obtain ⟨-, rfl⟩ := inspect_eq_ok hinspect
    rw [enter_of_skipping { m with operations := m.operations + i.cost } hskipping,
      enter_of_skipping { m with operations := m.operations + i.cost } hskipping]

/-! ## Blocks -/

/-- Follows instructions one after another, of which the first has the given number. -/
def steps (r : Rules) (script : List Instruction) : (offset : Nat) → List Instruction → Run Unit
  | _, [] => return ()
  | offset, i :: is => do
    step r script offset i
    steps r script (offset + 1) is

variable {b : Branches} {turned turned' : List Bool}

/-- The marks of a block, of which the first instruction has been read. -/
theorem track_cons (h : (Script.skeleton (i :: block)).foldlM Mark.track turned = some turned') :
    ∃ between, i.operation.mark?.toList.foldlM Mark.track turned = some between ∧
      (Script.skeleton block).foldlM Mark.track between = some turned' := by
  rw [Script.skeleton_cons, List.foldlM_append, Instruction.mark?_of_operation rfl] at h
  exact Option.bind_eq_some_iff.mp h

/-- The first instruction of a block fails, or the conditionals are followed. -/
theorem step_of_track (hskipping : b.isExecuting = false) (hm : m.branches = b.enclosing turned)
    (h : (Script.skeleton (i :: block)).foldlM Mark.track turned = some turned') :
    (∃ fault after, step r script offset i m = .error fault after ∧
      fault.code ∈ FailureCode.everywhere) ∨
    ∃ between events, (Script.skeleton block).foldlM Mark.track between = some turned' ∧
      step r script offset i m = .ok () (Machine.logging
        { m with branches := b.enclosing between, operations := m.operations + i.cost }
        events) := by
  obtain ⟨between, hmark, hrest⟩ := track_cons h
  have hpassing : m.branches.passing i.operation = .ok (b.enclosing between) := by
    rw [hm]
    exact Branches.passing_of_track hmark
  have hexecuting : m.branches.isExecuting = false := by
    rw [hm]
    exact Branches.isExecuting_enclosing hskipping turned
  have hskips : Skips m i (step r script offset i m) := skips_step hexecuting
  generalize step r script offset i m = result at hskips
  cases hskips with
  | refused hcode => exact .inl ⟨_, _, rfl, hcode⟩
  | unmatched hb =>
    rw [hpassing] at hb
    cases hb
  | @passed branches events hb =>
    rw [hpassing] at hb
    cases hb
    exact .inr ⟨between, events, hrest, rfl⟩

/-- **What becomes of a block where nothing is executed**, by induction on its instructions.  The
open conditionals are always those before the block with the reader's inside. -/
theorem steps_of_track (hskipping : b.isExecuting = false) (hm : m.branches = b.enclosing turned)
    (h : (Script.skeleton block).foldlM Mark.track turned = some turned') :
    (∃ fault after, steps r script offset block m = .error fault after ∧
      fault.code ∈ FailureCode.everywhere) ∨
    ∃ events, steps r script offset block m = .ok () (Machine.logging
      { m with
        branches := b.enclosing turned'
        operations := m.operations + block.countP (fun i => decide (0x60 < i.code)) } events) := by
  induction block generalizing offset m turned with
  | nil =>
    cases h
    rw [← hm]
    exact .inr ⟨m.journal.events, rfl⟩
  | cons i block ih =>
    rcases step_of_track hskipping hm h with
      ⟨fault, after, hstep, hcode⟩ | ⟨between, events, hrest, hstep⟩
    · exact .inl ⟨fault, after, bind_of_error hstep, hcode⟩
    · have hcost : (i :: block).countP (fun i => decide (0x60 < i.code)) =
          i.cost + block.countP (fun i => decide (0x60 < i.code)) := by
        rw [List.countP_cons, Instruction.cost, Nat.add_comm]
        simp
      have hblock := @ih (offset + 1) (Machine.logging
        { m with branches := b.enclosing between, operations := m.operations + i.cost } events)
        between rfl hrest
      unfold steps
      rw [bind_of_ok hstep, hcost, ← Nat.add_assoc]
      exact hblock

/-- Where nothing is executed the stacks stay as they are, so that a script stops there for their
size only if they were too large before. -/
theorem instructions_of_track (hskipping : b.isExecuting = false)
    (hm : m.branches = b.enclosing turned)
    (h : (Script.skeleton block).foldlM Mark.track turned = some turned')
    (hsize : m.main.length + m.alt.length ≤ r.limits.maxStackSize) :
    instructions r script offset block m = steps r script offset block m := by
  induction block generalizing offset m turned with
  | nil => rfl
  | cons i block ih =>
    unfold instructions steps
    rcases step_of_track hskipping hm h with
      ⟨fault, after, hstep, -⟩ | ⟨between, events, hrest, hstep⟩
    · rw [bind_of_error hstep, bind_of_error hstep]
    · rw [bind_of_ok hstep, bind_of_ok hstep]
      show (require (decide (m.main.length + m.alt.length ≤ r.limits.maxStackSize)) _ >>=
        fun _ => instructions r script (offset + 1) block) _ = _
      rw [require_bind_of_true (decide_eq_true hsize)]
      exact ih rfl hrest hsize

/-- **Code that is not executed is inert.**  Wherever nothing is executed, an instruction does the
same without a transaction as with one.  It fails, or it changes nothing but the count of operations
and the open conditionals; and no failure changes the stacks either.

Hence a block of instructions with matching conditionals, each of at most two arms, fails by one of
the rules that hold everywhere, or it ends as it began, with the operations counted.  In a script it
is stopped by nothing else, unless the stacks were too large before. -/
theorem skipped_code_inert (r : Rules) (script : List Instruction) (offset : Nat) (m : Machine)
    (hskipping : m.branches.isExecuting = false) :
    (∀ i : Instruction,
      (∀ context input,
        step { r with context, input } script offset i m = step r script offset i m) ∧
      ((∃ fault operations events, step r script offset i m =
          .error fault (Machine.logging { m with operations } events)) ∨
        ∃ branches events, step r script offset i m = .ok ()
          (Machine.logging { m with branches, operations := m.operations + i.cost } events))) ∧
    ∀ block : List Instruction, Nested (Script.skeleton block) →
      ((∃ fault after, steps r script offset block m = .error fault after ∧
          fault.code ∈ FailureCode.everywhere) ∨
        ∃ events, steps r script offset block m = .ok () (Machine.logging
          { m with
            operations := m.operations + block.countP (fun i => decide (0x60 < i.code)) }
          events)) ∧
      (m.main.length + m.alt.length ≤ r.limits.maxStackSize →
        instructions r script offset block m = steps r script offset block m) := by
  refine ⟨fun i => ⟨step_of_skipping hskipping, ?_⟩, fun block hnested => ?_⟩
  · have hskips : Skips m i (step r script offset i m) := skips_step hskipping
    generalize step r script offset i m = result at hskips
    cases hskips with
    | @refused fault operations _ => exact .inl ⟨fault, operations, m.journal.events, rfl⟩
    | @unmatched fault events _ => exact .inl ⟨fault, _, events, rfl⟩
    | @passed branches events _ => exact .inr ⟨branches, events, rfl⟩
  · have htrack : (Script.skeleton block).foldlM Mark.track [] = some [] :=
      Mark.track_of_nested hnested []
    exact ⟨steps_of_track hskipping (Branches.enclosing_nil _).symm htrack,
      instructions_of_track hskipping (Branches.enclosing_nil _).symm htrack⟩

/-- With an empty stack a conditional and a signature check are passed over, and four operations are
counted. -/
theorem skipped_code_inert_checkSig :
    let r : Rules := ⟨.consensus, .none, .secp256k1, none, 0⟩
    let m : Machine := { Machine.start with branches := Branches.none.openingSkipped }
    let block : List Instruction := [⟨0x63, none⟩, ⟨0x67, none⟩, ⟨0x68, none⟩, ⟨0xac, none⟩]
    m.branches.isExecuting = false ∧ Nested (Script.skeleton block) ∧
    ∃ events, instructions r block 0 block m =
      .ok () (Machine.logging { m with operations := 4 } events) := by
  intro r m block
  have hskipping : m.branches.isExecuting = false := rfl
  have hnested : Nested (Script.skeleton block) := .twoArms .nil .nil .nil
  obtain ⟨-, hblock⟩ := skipped_code_inert r block 0 m hskipping
  obtain ⟨hends, hwhole⟩ := hblock block hnested
  refine ⟨hskipping, hnested, ?_⟩
  rw [hwhole (by decide)]
  rcases hends with ⟨fault, after, hfails, -⟩ | hends
  · have hpasses : EStateM.run' (steps r block 0 block) m = some () := by decide +kernel
    obtain ⟨_, hok⟩ := exists_eq_ok hpasses
    rw [hfails] at hok
    cases hok
  · exact hends

end Run

end CoinScript
