import CoinScript.Proofs.Machine.Acceptance
import CoinScript.Proofs.Machine.Straight
import CoinScript.Proofs.Script.OpenConditionals
import Mathlib.Data.List.Forall2

/-!
# Conditionals

The machine keeps a frame for every open conditional and counts those that do not stand in the arm
they take.  What this comes to is told by the instructions: the open conditionals of a place and the
arms in which it stands (`Script.OpenAt`), and what each of them found on the stack when it was
reached (`Run.Selects`).

* `Run.nesting_of_reaches`: the frames are the records of the open conditionals, by induction on the
  way to the place.  `Run.Steered` says what one instruction does to them.
* `Run.step_eq_error`: an instruction that fails leaves them as they were; only `ELSE` and `ENDIF`
  find that conditionals do not match.
* `conditionals_follow_nesting` puts both together.
-/

namespace CoinScript

/-- The opcodes of the conditionals. -/
theorem Operation.conditional_iff (op : Opcode) :
    (Operation.ofCode op = .flow (.opening true) ↔ op = 0x63) ∧
      (Operation.ofCode op = .flow (.opening false) ↔ op = 0x64) ∧
      (Operation.ofCode op = .flow .turning ↔ op = 0x67) ∧
      (Operation.ofCode op = .flow .closing ↔ op = 0x68) :=
  of_decide_eq_true (Opcode.forall_of_lt
    (p := fun op => decide ((Operation.ofCode op = .flow (.opening true) ↔ op = 0x63) ∧
      (Operation.ofCode op = .flow (.opening false) ↔ op = 0x64) ∧
      (Operation.ofCode op = .flow .turning ↔ op = 0x67) ∧
      (Operation.ofCode op = .flow .closing ↔ op = 0x68))) (by decide +kernel) op)

namespace Run

variable {r : Rules} {is : List Instruction} {first m after : Machine} {offset : Nat}
  {i : Instruction} {fault : Fault}

/-! ## What one instruction does to the frames -/

/-- What an instruction that succeeds makes of the open conditionals. -/
inductive Steered (m : Machine) (i : Instruction) : Branches → Prop
  | plain (hmark : i.code.mark? = none) : Steered m i m.branches
  | opened {onTrue : Bool} {top : Bytes} {rest : Stack}
      (hop : i.operation = .flow (.opening onTrue)) (hexecuting : m.branches.isExecuting = true)
      (hmain : m.main = top :: rest) :
      Steered m i (m.branches.opening (Number.truth top == onTrue))
  | passed {onTrue : Bool} (hop : i.operation = .flow (.opening onTrue))
      (hskipping : m.branches.isExecuting = false) : Steered m i m.branches.openingSkipped
  | turned {b : Branches} (hop : i.operation = .flow .turning)
      (hb : m.branches.turning = .ok b) : Steered m i b
  | closed {b : Branches} (hop : i.operation = .flow .closing)
      (hb : m.branches.closing = .ok b) : Steered m i b

theorem steered_of_perform {journal : Journal} {operations : Nat}
    (h : perform r is offset m.branches.isExecuting i { m with operations, journal } =
      .ok () after) : Steered m i after.branches := by
  have hframe := frame_steady r.limits.maxOps
  cases hi : i.isConditional with
  | false =>
    rw [(moves_perform hframe is offset _ hi _ () after h).branches]
    exact .plain ((Instruction.mark?_of_operation rfl).trans (Operation.mark?_eq_none hi))
  | true =>
    rcases operation_of_conditional hi with ⟨onTrue, hop⟩ | hop | hop
    all_goals rw [perform_flow hop] at h
    · cases hexecuting : m.branches.isExecuting with
      | true =>
        rw [hexecuting] at h
        obtain ⟨condition, m₁, hpop, hopen⟩ := bind_eq_ok h
        obtain ⟨top, rest, hmain, rfl⟩ := popCondition_eq_ok hpop
        obtain ⟨b, hb, rfl⟩ := onBranches_eq_ok hopen
        cases hb
        rw [(moves_popCondition hframe _ _ _ hpop).branches]
        exact .opened hop hexecuting hmain
      | false =>
        rw [hexecuting] at h
        have hopen : onBranches (fun b => .ok b.openingSkipped) _ = .ok () after := h
        obtain ⟨b, hb, rfl⟩ := onBranches_eq_ok hopen
        cases hb
        exact .passed hop hexecuting
    · obtain ⟨b, hb, rfl⟩ := onBranches_eq_ok h
      exact .turned hop hb
    · obtain ⟨b, hb, rfl⟩ := onBranches_eq_ok h
      exact .closed hop hb

theorem steered_of_step (h : step r is offset i m = .ok () after) :
    Steered m i after.branches := by
  obtain ⟨-, -, -, hwhat⟩ := step_eq_ok h
  rcases hwhat with ⟨-, hplain, rfl⟩ | ⟨-, -, journal, hperform⟩
  · exact .plain ((Instruction.mark?_of_operation rfl).trans (Operation.mark?_eq_none hplain))
  · exact steered_of_perform hperform

/-! ## Failures -/

/-- The law that the open conditionals stay, and are not found not to match. -/
def unturned : Law where
  moves m m' := m'.branches = m.branches
  fails m fault m' := m'.branches = m.branches ∧ ¬fault.Unbalanced

theorem frames_unturned (r : Rules) : unturned.Frames r where
  refl _ := rfl
  trans h h' := h'.trans h
  before h h' := ⟨h'.1.trans h, h'.2⟩
  stop _ _ h := ⟨rfl, h.not_unbalanced⟩
  main _ _ := rfl
  alt _ _ := rfl
  count _ _ _ := rfl
  overcount _ _ _ := ⟨rfl, fun h => by cases h.1⟩

/-- Under this law nothing follows from a fault of conditionals. -/
theorem stays_of_fails {P : Prop} (h : unturned.fails m fault after) :
    after.branches = m.branches ∧ (fault.Unbalanced → P) :=
  ⟨h.1, fun hfault => absurd hfault h.2⟩

/-- The conditionals of a machine are found not to match the instruction. -/
def Refuses (b : Branches) (i : Instruction) (fault : Fault) : Prop :=
  i.operation = .flow .turning ∧ b.turning = .error fault ∨
    i.operation = .flow .closing ∧ b.closing = .error fault

theorem Refuses.code {b : Branches} (h : Refuses b i fault) : i.code = 0x67 ∨ i.code = 0x68 := by
  obtain ⟨-, -, hturning, hclosing⟩ := Operation.conditional_iff i.code
  rcases h with ⟨hop, -⟩ | ⟨hop, -⟩
  · exact .inl (hturning.mp hop)
  · exact .inr (hclosing.mp hop)

theorem Refuses.lt_code {b : Branches} (h : Refuses b i fault) : 0x60 < i.code := by
  rcases h.code with hcode | hcode <;> rw [hcode] <;> decide

theorem perform_eq_error {executing : Bool}
    (h : perform r is offset executing i m = .error fault after) :
    after.branches = m.branches ∧ (fault.Unbalanced → Refuses m.branches i fault) := by
  have hL := frames_unturned r
  cases hi : i.isConditional with
  | false =>
    have hkeeps : Keeps unturned (perform r is offset executing i) m := by
      refine keeps_perform hL is offset executing i (fun hconditional => ?_) (fun _ => rfl) ?_
      · rw [hi] at hconditional
        cases hconditional
      · exact fun t _ q _ events => rfl
    exact stays_of_fails (hkeeps.fails h)
  | true =>
    rcases operation_of_conditional hi with ⟨onTrue, hop⟩ | hop | hop
    all_goals rw [perform_flow hop] at h
    · cases executing with
      | true =>
        rcases bind_eq_error h with hpop | ⟨condition, m₁, -, hopen⟩
        · exact stays_of_fails ((keeps_popCondition hL).fails hpop)
        · cases hopen
      | false => cases h
    · obtain ⟨hb, rfl⟩ := onBranches_eq_error h
      exact ⟨rfl, fun _ => .inl ⟨hop, hb⟩⟩
    · obtain ⟨hb, rfl⟩ := onBranches_eq_error h
      exact ⟨rfl, fun _ => .inr ⟨hop, hb⟩⟩

/-- What an instruction that has been admitted does if it fails. -/
theorem enter_eq_error (h : enter r is offset i m = .error fault after) :
    after.branches = m.branches ∧ (fault.Unbalanced → Refuses m.branches i fault) := by
  cases hexecuting : m.branches.isExecuting with
  | true =>
    rw [enter_of_executing hexecuting] at h
    rcases bind_eq_error h with hcheck | ⟨u, m₁, hcheck, hperform⟩
    · have hL := (frames_unturned r).toInherited
      exact stays_of_fails (m := m.noting offset i) ((keeps_checkExecuted hL i).fails hcheck)
    · obtain ⟨-, -, rfl⟩ := checkExecuted_eq_ok hcheck
      exact perform_eq_error (m := m.noting offset i) hperform
  | false =>
    cases hi : i.isConditional with
    | true =>
      rw [enter_of_conditional hexecuting hi] at h
      exact perform_eq_error (m := m.noting offset i) h
    | false =>
      rw [enter_of_passive hexecuting hi] at h
      cases h

/-- **What one instruction does if it fails.**  The open conditionals stay as they were.  They are
found not to match only by an `ELSE` or an `ENDIF` that has passed its checks. -/
theorem step_eq_error (h : step r is offset i m = .error fault after) :
    after.branches = m.branches ∧ (fault.Unbalanced → i.data.length ≤ r.limits.maxElementSize ∧
      m.operations + i.cost ≤ r.limits.maxOps ∧ Refuses m.branches i fault) := by
  rw [step_eq] at h
  rcases bind_eq_error h with hinspect | ⟨u, m₁, hinspect, henter⟩
  · exact stays_of_fails ((keeps_inspect (frames_unturned r) i).fails hinspect)
  obtain ⟨hgrants, rfl⟩ := inspect_eq_ok hinspect
  obtain ⟨hbranches, hrefuses⟩ := enter_eq_error henter
  refine ⟨hbranches, fun hfault => ⟨hgrants.size, ?_, hrefuses hfault⟩⟩
  have hcode := (hrefuses hfault).lt_code
  rw [Instruction.cost, if_pos hcode]
  exact hgrants.count hcode

/-! ## The frames at a place -/

/-- The conditional that opens at the place is executed, and takes its first arm exactly if
`condition` holds: `IF` takes it if the operand on top of the stack is true, `NOTIF` if it is
false. -/
def Chooses (r : Rules) (is : List Instruction) (first : Machine) (place : Nat)
    (condition : Bool) : Prop :=
  ∃ i found top rest, Executes r is first place i found ∧ found.main = top :: rest ∧
    (i.code = 0x63 ∧ Number.truth top = condition ∨ i.code = 0x64 ∧ Number.truth top = !condition)

/-- The conditional is executed, and takes the arm that has begun. -/
def Selects (r : Rules) (is : List Instruction) (first : Machine) (c : Conditional) : Prop :=
  Chooses r is first c.place (!c.second)

variable {condition condition' : Bool} {place : Nat} {frame : Branch} {c : Conditional}
  {opened : List Conditional} {b : Branches}

theorem Chooses.unique (h : Chooses r is first place condition)
    (h' : Chooses r is first place condition') : condition' = condition := by
  obtain ⟨i, found, top, rest, hexecutes, hmain, hcode⟩ := h
  obtain ⟨i', found', top', rest', hexecutes', hmain', hcode'⟩ := h'
  obtain rfl := hexecutes.reaches.unique hexecutes'.reaches
  cases hexecutes.instruction.symm.trans hexecutes'.instruction
  cases hmain.symm.trans hmain'
  rcases hcode with ⟨hif, rfl⟩ | ⟨hnotif, hcondition⟩
  · rcases hcode' with ⟨-, rfl⟩ | ⟨hnotif, -⟩
    · rfl
    · rw [hif] at hnotif
      exact absurd hnotif (by decide)
  · rcases hcode' with ⟨hif, -⟩ | ⟨-, hcondition'⟩
    · rw [hnotif] at hif
      exact absurd hif (by decide)
    · exact Bool.not_inj (hcondition'.symm.trans hcondition)

/-- The frame is the record of the open conditional. -/
structure Records (r : Rules) (is : List Instruction) (first : Machine) (frame : Branch)
    (c : Conditional) : Prop where
  turned : frame.turned = c.second
  passed : frame.skipped = true → frame.taken = false ∧
    ∀ condition, ¬Chooses r is first c.place condition
  opened : frame.skipped = false → Chooses r is first c.place (frame.taken != c.second)

/-- A frame is taken exactly if its conditional takes the arm that has begun. -/
theorem Records.taken_iff (h : Records r is first frame c) :
    frame.taken = true ↔ Selects r is first c := by
  cases hskipped : frame.skipped with
  | true =>
    obtain ⟨htaken, hnone⟩ := h.passed hskipped
    rw [htaken]
    exact ⟨fun hfalse => (by cases hfalse), fun hselects => absurd hselects (hnone _)⟩
  | false =>
    have hchooses := h.opened hskipped
    constructor
    · intro htaken
      rw [htaken, Bool.true_bne] at hchooses
      exact hchooses
    · intro hselects
      have hcondition := hselects.unique hchooses
      cases htaken : frame.taken with
      | true => rfl
      | false =>
        rw [htaken, Bool.false_bne] at hcondition
        exact absurd hcondition (by cases c.second <;> decide)

/-- All frames are taken exactly if all open conditionals take the arm that has begun. -/
theorem forall_taken_iff {frames : List Branch}
    (h : List.Forall₂ (Records r is first) frames opened) :
    (∀ frame ∈ frames, frame.taken = true) ↔ ∀ c ∈ opened, Selects r is first c := by
  induction h with
  | nil => exact ⟨fun _ c hc => (by cases hc), fun _ frame hframe => (by cases hframe)⟩
  | cons hrecord _ ih =>
    rw [List.forall_mem_cons, List.forall_mem_cons, hrecord.taken_iff, ih]

/-- At a place: the frames are the records of the open conditionals, and have been counted. -/
structure Nesting (r : Rules) (is : List Instruction) (first : Machine) (offset : Nat)
    (b : Branches) (opened : List Conditional) : Prop where
  openAt : Script.OpenAt is offset opened
  records : List.Forall₂ (Records r is first) b.frames opened
  tallied : b.Tallied

/-- A conditional that is executed begins its first arm. -/
theorem records_opening {onTrue : Bool} {top : Bytes} {rest : Stack}
    (h : Executes r is first offset i m) (hop : i.operation = .flow (.opening onTrue))
    (hmain : m.main = top :: rest) :
    Records r is first ⟨Number.truth top == onTrue, false, false⟩ ⟨offset, false⟩ where
  turned := rfl
  passed hskipped := by cases hskipped
  opened _ := by
    obtain ⟨hif, hnotif, -, -⟩ := Operation.conditional_iff i.code
    refine ⟨i, m, top, rest, h, hmain, ?_⟩
    cases onTrue with
    | true => exact .inl ⟨hif.mp hop, by cases Number.truth top <;> rfl⟩
    | false => exact .inr ⟨hnotif.mp hop, by cases Number.truth top <;> rfl⟩

/-- A conditional that is passed over takes neither arm. -/
theorem records_passing (h : Reaches r is first offset m)
    (hskipping : m.branches.isExecuting = false) :
    Records r is first ⟨false, true, false⟩ ⟨offset, false⟩ where
  turned := rfl
  passed _ := by
    refine ⟨rfl, ?_⟩
    rintro condition ⟨i, found, top, rest, hexecutes, -, -⟩
    obtain rfl := h.unique hexecutes.reaches
    rw [hexecutes.executing] at hskipping
    cases hskipping
  opened hskipped := by cases hskipped

/-- The other arm begins. -/
theorem Records.turning (h : Records r is first frame ⟨place, false⟩) :
    Records r is first { frame with
      turned := true, taken := if frame.skipped then frame.taken else !frame.taken }
      ⟨place, true⟩ where
  turned := rfl
  passed hskipped := by
    obtain ⟨htaken, hnone⟩ := h.passed hskipped
    exact ⟨(if_pos hskipped).trans htaken, hnone⟩
  opened hskipped := by
    have hchooses := h.opened hskipped
    dsimp only at hskipped ⊢
    rw [hskipped, if_neg Bool.false_ne_true]
    cases htaken : frame.taken <;> rw [htaken] at hchooses <;> exact hchooses

/-- From one place to the next. -/
theorem Nesting.next (h : Nesting r is first offset m.branches opened)
    (hreaches : Reaches r is first offset m) (hi : is[offset]? = some i) (hb : Steered m i b) :
    ∃ opened', Nesting r is first (offset + 1) b opened' := by
  obtain ⟨hopenAt, hrecords, htallied⟩ := h
  cases hb with
  | plain hmark => exact ⟨opened, hopenAt.plain hi hmark, hrecords, htallied⟩
  | opened hop hexecuting hmain =>
    exact ⟨⟨offset, false⟩ :: opened, hopenAt.opening hi (Instruction.mark?_of_operation hop),
      .cons (records_opening ⟨hreaches, hi, hexecuting⟩ hop hmain) hrecords, htallied.add _⟩
  | passed hop hskipping =>
    exact ⟨⟨offset, false⟩ :: opened, hopenAt.opening hi (Instruction.mark?_of_operation hop),
      .cons (records_passing hreaches hskipping) hrecords, htallied.add _⟩
  | turned hop hb =>
    obtain ⟨frame, frames, hframes, hturned, hframes'⟩ := Branches.turning_eq_ok hb
    rw [hframes] at hrecords
    cases hrecords with
    | @cons _ c _ outer hrecord houter =>
      obtain ⟨place, second⟩ := c
      obtain rfl : false = second := hturned.symm.trans hrecord.turned
      refine ⟨⟨place, true⟩ :: outer, hopenAt.turning hi (Instruction.mark?_of_operation hop), ?_,
        htallied.turning hb⟩
      rw [hframes']
      exact .cons hrecord.turning houter
  | closed hop hb =>
    obtain ⟨frame, hframes⟩ := Branches.closing_eq_ok hb
    rw [hframes] at hrecords
    cases hrecords with
    | @cons _ c _ outer _ houter =>
      exact ⟨outer, hopenAt.closing hi (Instruction.mark?_of_operation hop), houter,
        htallied.closing hb⟩

/-- **The frames at every place**, by induction on the way to it. -/
theorem nesting_of_reaches (h : Reaches r is first offset m) :
    ∃ opened, Nesting r is first offset m.branches opened := by
  induction h with
  | start => exact ⟨[], .start is, .nil, rfl⟩
  | next hreaches hi hstep _ ih =>
    obtain ⟨opened, hnesting⟩ := ih
    exact hnesting.next hreaches hi (steered_of_step hstep)

/-! ## Conditionals that do not match -/

/-- The run comes to the instruction, and neither its payload nor its number is over the limits. -/
structure Enters (r : Rules) (is : List Instruction) (first : Machine) (offset : Nat)
    (i : Instruction) (m : Machine) : Prop where
  reaches : Reaches r is first offset m
  instruction : is[offset]? = some i
  size : i.data.length ≤ r.limits.maxElementSize
  count : m.operations + i.cost ≤ r.limits.maxOps

/-- **What the machine refuses is what does not match**, and that is told by the instructions. -/
theorem Nesting.mismatched_iff (h : Nesting r is first offset b opened) :
    Script.Mismatched is offset i ↔ ∃ fault, Refuses b i fault := by
  obtain ⟨hopenAt, hrecords, -⟩ := h
  obtain ⟨-, -, hturning, hclosing⟩ := Operation.conditional_iff i.code
  constructor
  · rintro (⟨hcode, hopen⟩ | ⟨hcode, hopen⟩ | ⟨hcode, hopen⟩)
    all_goals obtain rfl := hopen.unique hopenAt
    · have hframes := List.forall₂_nil_right_iff.mp hrecords
      exact ⟨_, .inl ⟨hturning.mpr hcode, Branches.turning_of_nil hframes⟩⟩
    · obtain ⟨frame, frames, hrecord, -, hframes⟩ := List.forall₂_cons_right_iff.mp hrecords
      exact ⟨_, .inl ⟨hturning.mpr hcode, Branches.turning_of_turned hframes hrecord.turned⟩⟩
    · have hframes := List.forall₂_nil_right_iff.mp hrecords
      exact ⟨_, .inr ⟨hclosing.mpr hcode, Branches.closing_of_nil hframes⟩⟩
  · rintro ⟨fault, ⟨hop, hb⟩ | ⟨hop, hb⟩⟩
    · rcases Branches.turning_eq_error hb with ⟨hframes, -⟩ | ⟨⟨frame, frames, hframes, hturned⟩, -⟩
      · rw [hframes] at hrecords
        obtain rfl := List.forall₂_nil_left_iff.mp hrecords
        exact .turnOutside (hturning.mp hop) hopenAt
      · rw [hframes] at hrecords
        obtain ⟨⟨place, second⟩, outer, hrecord, -, rfl⟩ := List.forall₂_cons_left_iff.mp hrecords
        obtain rfl : true = second := hturned.symm.trans hrecord.turned
        exact .turnAgain (hturning.mp hop) hopenAt
    · obtain ⟨hframes, -⟩ := Branches.closing_eq_error hb
      rw [hframes] at hrecords
      obtain rfl := List.forall₂_nil_left_iff.mp hrecords
      exact .closeOutside (hclosing.mp hop) hopenAt

theorem Refuses.isConditional (h : Refuses b i fault) : i.isConditional = true := by
  unfold Instruction.isConditional
  rcases h with ⟨hop, -⟩ | ⟨hop, -⟩ <;> rw [hop] <;> rfl

/-- `ELSE` and `ENDIF` need no operand, and no flag opens or closes them. -/
theorem Enters.lets_of_refuses (h : Enters r is first offset i m)
    (hrefuses : Refuses m.branches i fault) : r.Lets i m.main.length m.operations where
  size := h.size
  gate := by rcases hrefuses with ⟨hop, -⟩ | ⟨hop, -⟩ <;> rw [hop] <;> exact trivial
  count := h.count
  minimal hle := by
    rcases hrefuses.code with hcode | hcode <;> rw [hcode] at hle <;> exact absurd hle (by decide)
  arity := by rcases hrefuses with ⟨hop, -⟩ | ⟨hop, -⟩ <;> rw [hop] <;> exact Nat.zero_le _

/-- An instruction that the run enters and the conditionals refuse fails for that. -/
theorem Enters.step_of_refuses (h : Enters r is first offset i m)
    (hrefuses : Refuses m.branches i fault) :
    ∃ after, step r is offset i m = .error fault after := by
  have hany : (m.branches.isExecuting || i.isConditional) = true := by
    rw [hrefuses.isConditional, Bool.or_true]
  rw [step_of_lets (h.lets_of_refuses hrefuses) hany]
  rcases hrefuses with ⟨hop, hb⟩ | ⟨hop, hb⟩
  all_goals
    rw [perform_flow hop]
    exact ⟨_, onBranches_of_error hb⟩

theorem Refuses.unbalanced (h : Refuses b i fault) : fault.Unbalanced := by
  rcases h with ⟨-, hb⟩ | ⟨-, hb⟩
  · exact unbalanced_of_turning hb
  · exact unbalanced_of_closing hb

/-- **When an instruction finds that conditionals do not match.** -/
theorem unbalanced_step_iff (hreaches : Reaches r is first offset m) (hi : is[offset]? = some i) :
    (∃ fault after, step r is offset i m = .error fault after ∧ fault.Unbalanced) ↔
      Enters r is first offset i m ∧ Script.Mismatched is offset i := by
  obtain ⟨opened, hnesting⟩ := nesting_of_reaches hreaches
  rw [hnesting.mismatched_iff]
  constructor
  · rintro ⟨fault, after, hstep, hfault⟩
    obtain ⟨hsize, hcount, hrefuses⟩ := (step_eq_error hstep).2 hfault
    exact ⟨⟨hreaches, hi, hsize, hcount⟩, fault, hrefuses⟩
  · rintro ⟨henters, fault, hrefuses⟩
    obtain ⟨after, hstep⟩ := henters.step_of_refuses hrefuses
    exact ⟨fault, after, hstep, hrefuses.unbalanced⟩

/-! ## Scripts -/

/-- A fault of conditionals comes from an instruction. -/
theorem exists_step_of_instructions {left : List Instruction} (hdrop : is.drop offset = left)
    (hreaches : Reaches r is first offset m)
    (h : instructions r is offset left m = .error fault after) (hfault : fault.Unbalanced) :
    ∃ k i m' after', Reaches r is first k m' ∧ is[k]? = some i ∧
      step r is k i m' = .error fault after' := by
  induction left generalizing offset m with
  | nil => cases h
  | cons i left ih =>
    obtain ⟨hget, htail⟩ := getElem?_of_drop hdrop
    rcases bind_eq_error h with hstep | ⟨u, m', hstep, hrest⟩
    · exact ⟨offset, i, m, after, hreaches, hget, hstep⟩
    · change (require (decide (m'.main.length + m'.alt.length ≤ r.limits.maxStackSize)) _ >>=
        fun _ => instructions r is (offset + 1) left) m' = _ at hrest
      rcases bind_eq_error hrest with hsize | ⟨u, m'', hsize, hinstructions⟩
      · have hi := (frames_unturned r).toInherited
        have hkept := (keeps_require hi _ (by trivial)).fails hsize
        exact absurd hfault hkept.2
      · obtain ⟨hle, rfl⟩ := require_eq_ok hsize
        exact ih htail (hreaches.next hget hstep (of_decide_eq_true hle)) hinstructions

/-- What is done after the instructions of a script. -/
theorem script_eq (r : Rules) (is : List Instruction) (first : Machine) :
    Run.script r is first = (instructions r is 0 is >>= fun _ => (do
      require (decide ((← get).branches.frames = [])) .neverClosed
      modify fun m => { m with alt := [] } : Run Unit)) first.afresh := rfl

/-- A script fails in its instructions, or at its end. -/
theorem script_eq_error (h : Run.script r is first = .error fault after) :
    instructions r is 0 is first.afresh = .error fault after ∨
      ∃ m, Reaches r is first is.length m ∧ m.branches.frames ≠ [] := by
  rw [script_eq] at h
  rcases bind_eq_error h with hinstructions | ⟨u, m, hinstructions, hend⟩
  · exact .inl hinstructions
  · have hreaches := reaches_of_instructions List.drop_zero .start hinstructions
    rw [Nat.zero_add] at hreaches
    refine .inr ⟨m, hreaches, fun hframes => ?_⟩
    change (require (decide (m.branches.frames = [])) _ >>= fun _ => _) m = _ at hend
    rw [require_bind_of_true (decide_eq_true hframes)] at hend
    cases hend

/-- An instruction that fails ends the script. -/
theorem script_of_step_error (hreaches : Reaches r is first offset m) (hi : is[offset]? = some i)
    (hstep : step r is offset i m = .error fault after) :
    Run.script r is first = .error fault after := by
  rw [script_eq]
  refine bind_of_error ?_
  rw [instructions_of_reaches hreaches, drop_eq_cons hi]
  exact bind_of_error hstep

/-- An open conditional at the end is a failure. -/
theorem script_of_open (hreaches : Reaches r is first is.length m)
    (hopen : m.branches.frames ≠ []) : Run.script r is first = .error .neverClosed m := by
  have hrun : instructions r is 0 is first.afresh = .ok () m := by
    rw [instructions_of_reaches hreaches, List.drop_length]
    rfl
  rw [script_eq, bind_of_ok hrun]
  show (require (decide (m.branches.frames = [])) _ >>= fun _ => _) m = _
  rw [decide_eq_false hopen]
  rfl

/-- **When the run of a script finds that conditionals do not match**: at an instruction that does
not, or at the end if one is still open. -/
theorem unbalanced_script_iff :
    (∃ fault after, Run.script r is first = .error fault after ∧ fault.Unbalanced) ↔
      (∃ offset i m, Enters r is first offset i m ∧ Script.Mismatched is offset i) ∨
      ∃ m c outer, Reaches r is first is.length m ∧ Script.OpenAt is is.length (c :: outer) := by
  constructor
  · rintro ⟨fault, after, h, hfault⟩
    rcases script_eq_error h with hinstructions | ⟨m, hreaches, hopen⟩
    · obtain ⟨offset, i, m, after', hreaches, hi, hstep⟩ :=
        exists_step_of_instructions List.drop_zero .start hinstructions hfault
      have hmismatched := (unbalanced_step_iff hreaches hi).mp ⟨fault, after', hstep, hfault⟩
      exact .inl ⟨offset, i, m, hmismatched⟩
    · obtain ⟨opened, hopenAt, hrecords, -⟩ := nesting_of_reaches hreaches
      cases opened with
      | nil => exact absurd (List.forall₂_nil_right_iff.mp hrecords) hopen
      | cons c outer => exact .inr ⟨m, c, outer, hreaches, hopenAt⟩
  · rintro (⟨offset, i, m, henters, hmismatched⟩ | ⟨m, c, outer, hreaches, hopenAt⟩)
    · obtain ⟨fault, after, hstep, hfault⟩ :=
        (unbalanced_step_iff henters.reaches henters.instruction).mpr ⟨henters, hmismatched⟩
      exact ⟨fault, after, script_of_step_error henters.reaches henters.instruction hstep, hfault⟩
    · obtain ⟨opened, hopened, hrecords, -⟩ := nesting_of_reaches hreaches
      obtain rfl := hopenAt.unique hopened
      obtain ⟨frame, frames, -, -, hframes⟩ := List.forall₂_cons_right_iff.mp hrecords
      have hopen : m.branches.frames ≠ [] := by
        rw [hframes]
        exact List.cons_ne_nil frame frames
      exact ⟨.neverClosed, m, script_of_open hreaches hopen, rfl, nofun⟩

end Run

/-- **Conditional execution follows the nesting of `IF`, `ELSE` and `ENDIF`.**  At every place that a
run comes to, whatever the operands were: instructions are executed there exactly if every open
conditional was executed when it was reached, and takes the arm in which the place stands; the frames
are the records of the open conditionals, and the number kept beside them, from which one is taken
only for a frame that is not taken, is the number of those that are not; and an instruction that
fails leaves them as they were.  That conditionals do not match is found exactly at an `ELSE` or
`ENDIF` within the limits that has no open conditional or, an `ELSE`, the second arm of one, and at
the end if one is open.  Which conditionals are open is told by the instructions alone. -/
theorem conditionals_follow_nesting (r : Rules) (is : List Instruction) (first : Machine) :
    (∀ offset m, Run.Reaches r is first offset m →
      (∃ opened, Script.OpenAt is offset opened) ∧
      (∀ opened, Script.OpenAt is offset opened →
        (m.branches.isExecuting = true ↔ ∀ c ∈ opened, Run.Selects r is first c) ∧
        List.Forall₂ (fun frame c => frame.turned = c.second ∧
          (frame.taken = true ↔ Run.Selects r is first c)) m.branches.frames opened) ∧
      m.branches.notTaken = m.branches.frames.countP (fun frame => !frame.taken) ∧
      (∀ frame ∈ m.branches.frames, frame.taken = false → 0 < m.branches.notTaken) ∧
      ∀ i, is[offset]? = some i →
        (∀ fault after, Run.step r is offset i m = .error fault after →
          after.branches = m.branches) ∧
        ((∃ fault after, Run.step r is offset i m = .error fault after ∧ fault.Unbalanced) ↔
          Run.Enters r is first offset i m ∧ Script.Mismatched is offset i)) ∧
    ((∃ fault after, Run.script r is first = .error fault after ∧ fault.Unbalanced) ↔
      (∃ offset i m, Run.Enters r is first offset i m ∧ Script.Mismatched is offset i) ∨
      ∃ m c outer, Run.Reaches r is first is.length m ∧
        Script.OpenAt is is.length (c :: outer)) := by
  refine ⟨fun offset m hreaches => ?_, Run.unbalanced_script_iff⟩
  obtain ⟨opened, hopenAt, hrecords, htallied⟩ := Run.nesting_of_reaches hreaches
  refine ⟨⟨opened, hopenAt⟩, fun opened' hopened => ?_, htallied, fun frame => htallied.pos,
    fun i hi => ⟨fun fault after hstep => (Run.step_eq_error hstep).1,
      Run.unbalanced_step_iff hreaches hi⟩⟩
  obtain rfl := hopenAt.unique hopened
  exact ⟨htallied.isExecuting_iff.trans (Run.forall_taken_iff hrecords),
    hrecords.imp fun _ _ hrecord => ⟨hrecord.turned, hrecord.taken_iff⟩⟩

/-! ## An arm inside an arm -/

namespace NestedArms

/-- The limits for blocks, and no flags. -/
def rules : Rules := ⟨.consensus, .none, .secp256k1, none, 0⟩

/-- `0 IF 1 IF ELSE NOP ENDIF ELSE NOP ENDIF`: the inner conditional stands in an arm that is not
taken, and so neither of its arms is. -/
def script : List Instruction :=
  [⟨0x00, none⟩, ⟨0x63, none⟩, ⟨0x51, none⟩, ⟨0x63, none⟩, ⟨0x67, none⟩, ⟨0x61, none⟩, ⟨0x68, none⟩,
    ⟨0x67, none⟩, ⟨0x61, none⟩, ⟨0x68, none⟩]

/-- The first arm of the outer conditional, in which the second arm of the inner one stands. -/
def inner : List Conditional := [⟨3, true⟩, ⟨1, false⟩]

/-- The second arm of the outer conditional. -/
def outer : List Conditional := [⟨1, true⟩]

theorem openAt_one : Script.OpenAt script 1 [] := (Script.OpenAt.start script).plain rfl rfl

theorem openAt_four : Script.OpenAt script 4 [⟨3, false⟩, ⟨1, false⟩] :=
  ((openAt_one.opening rfl rfl).plain rfl rfl).opening rfl rfl

theorem openAt_inner : Script.OpenAt script 5 inner := openAt_four.turning rfl rfl

theorem openAt_outer : Script.OpenAt script 8 outer :=
  ((openAt_inner.plain rfl rfl).closing rfl rfl).turning rfl rfl

/-- The run comes to the instruction, and whether it is executed is known. -/
theorem reaches {offset : Nat} {executing : Bool} (hle : offset ≤ script.length)
    (h : EStateM.run' (do
      Run.instructions rules script 0 (script.take offset)
      return (← get).branches.isExecuting : Run Bool) Machine.start.afresh = some executing) :
    ∃ m, Run.Reaches rules script .start offset m ∧ m.branches.isExecuting = executing := by
  obtain ⟨after, hok⟩ := Run.exists_eq_ok h
  obtain ⟨_, m, hrun, hread⟩ := bind_eq_ok hok
  have hdrop : script.drop 0 = script.take offset ++ script.drop offset :=
    (List.take_append_drop offset script).symm
  have hreaches := Run.reaches_of_part hdrop .start hrun
  rw [Nat.zero_add, List.length_take, Nat.min_eq_left hle] at hreaches
  have hread : EStateM.Result.ok m.branches.isExecuting m = .ok executing after := hread
  exact ⟨m, hreaches, (EStateM.Result.ok.inj hread).1⟩

/-- Of the outer conditional the second arm is taken.  The inner one takes neither, and an `ENDIF` by
itself does not match. -/
theorem second_arm_selected :
    (∃ m, Run.Reaches rules script .start 8 m ∧ m.branches.isExecuting = true ∧
      Run.Selects rules script .start ⟨1, true⟩) ∧
    (∃ m, Run.Reaches rules script .start 5 m ∧ m.branches.isExecuting = false ∧
      ¬∀ c ∈ inner, Run.Selects rules script .start c) ∧
    ∃ fault after, Run.script rules [⟨0x68, none⟩] .start = .error fault after ∧
      fault.Unbalanced := by
  refine ⟨?_, ?_, ?_⟩
  · obtain ⟨m, hreaches, hexecuting⟩ : ∃ m, Run.Reaches rules script .start 8 m ∧
        m.branches.isExecuting = true := reaches (by decide) (by decide +kernel)
    obtain ⟨-, hopened, -⟩ := (conditionals_follow_nesting rules script .start).1 8 m hreaches
    obtain ⟨hselects, -⟩ := hopened outer openAt_outer
    exact ⟨m, hreaches, hexecuting, hselects.mp hexecuting _ (List.mem_singleton_self _)⟩
  · obtain ⟨m, hreaches, hskipping⟩ : ∃ m, Run.Reaches rules script .start 5 m ∧
        m.branches.isExecuting = false := reaches (by decide) (by decide +kernel)
    obtain ⟨-, hopened, -⟩ := (conditionals_follow_nesting rules script .start).1 5 m hreaches
    obtain ⟨hselects, -⟩ := hopened inner openAt_inner
    refine ⟨m, hreaches, hskipping, fun hall => ?_⟩
    rw [hselects.mpr hall] at hskipping
    cases hskipping
  · refine (conditionals_follow_nesting rules [⟨0x68, none⟩] .start).2.mpr (.inl ?_)
    exact ⟨0, _, _, ⟨.start, rfl, Nat.zero_le _, by decide⟩, .closeOutside rfl (.start _)⟩

end NestedArms

end CoinScript
