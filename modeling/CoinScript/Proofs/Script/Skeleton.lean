import CoinScript.Machine.Operation

/-!
# The skeleton of conditionals

Of the instructions of a script only those that open, turn or close a conditional matter for its
nesting.  They are the `Mark`s of the script, and its `skeleton` is the list of them.  `Nested` is
the grammar of skeletons in which every conditional has one arm or two, and is closed.

A reader that goes through the marks from left to right needs a list of truth values, innermost
first, that says of each open conditional whether it has turned to its second arm.  `track` is its
step.  The machine is such a reader, and `nested_of_track` is what its success says of the skeleton.

## Reading off the grammar

What is still to come while conditionals are open is not nested by itself.  `Closes turned marks`
says what it is: for each open conditional the rest of its arms and the mark that closes it, and
nested marks at last.  A mark in front of what closes some conditionals closes those that were open
before it, so the proof is an induction on the marks alone.
-/

namespace CoinScript

/-- What an instruction does to the open conditionals. -/
inductive Mark
  | opening
  | turning
  | closing
deriving DecidableEq, Repr

/-- The mark of an opcode: `IF` and `NOTIF` open, `ELSE` turns, `ENDIF` closes. -/
def Opcode.mark? (op : Opcode) : Option Mark :=
  if op = 0x63 ∨ op = 0x64 then some .opening
  else if op = 0x67 then some .turning
  else if op = 0x68 then some .closing
  else none

/-- The mark of an operation. -/
def Operation.mark? : Operation → Option Mark
  | flow (.opening _) => some .opening
  | flow .turning => some .turning
  | flow .closing => some .closing
  | _ => none

/-- What holds of the numbers below 256 holds of all opcodes. -/
theorem Opcode.forall_of_lt {p : Opcode → Bool} (h : ∀ n < 256, p (UInt8.ofNat n) = true)
    (op : Opcode) : p op = true := by
  have hop := h op.toNat op.toNat_lt
  rwa [UInt8.ofNat_toNat] at hop

/-- The table of operations marks those four opcodes and no others. -/
theorem Operation.mark?_ofCode (op : Opcode) : (Operation.ofCode op).mark? = op.mark? :=
  of_decide_eq_true (Opcode.forall_of_lt
    (p := fun op => decide ((Operation.ofCode op).mark? = op.mark?)) (by decide +kernel) op)

theorem Instruction.mark?_of_operation {i : Instruction} {x : Operation} (h : i.operation = x) :
    i.code.mark? = x.mark? := by
  rw [← h]
  exact (Operation.mark?_ofCode i.code).symm

/-- The conditional operations are those with a mark. -/
theorem Operation.mark?_eq_none {x : Operation} (h : x.isConditional = false) :
    x.mark? = none := by
  cases x with
  | flow y => cases y <;> first | rfl | cases h
  | _ => rfl

/-- The marks of a sequence of instructions. -/
def Script.skeleton (is : List Instruction) : List Mark := is.filterMap fun i => i.code.mark?

theorem Script.skeleton_cons (i : Instruction) (is : List Instruction) :
    skeleton (i :: is) = i.code.mark?.toList ++ skeleton is := by
  unfold skeleton
  rw [List.filterMap_cons]
  cases i.code.mark? <;> rfl

/-- Every conditional is closed, and turns to a second arm at most once. -/
inductive Nested : List Mark → Prop
  | nil : Nested []
  | oneArm {body rest : List Mark} (hbody : Nested body) (hrest : Nested rest) :
    Nested (.opening :: (body ++ .closing :: rest))
  | twoArms {first second rest : List Mark} (hfirst : Nested first) (hsecond : Nested second)
    (hrest : Nested rest) :
    Nested (.opening :: (first ++ .turning :: (second ++ .closing :: rest)))

namespace Mark

/-- One step of a reader.  Of every open conditional, innermost first, it knows whether it has
turned. -/
def track : (turned : List Bool) → Mark → Option (List Bool)
  | turned, opening => some (false :: turned)
  | false :: outer, turning => some (true :: outer)
  | _ :: outer, closing => some outer
  | _, _ => none

theorem foldlM_track_singleton (turned : List Bool) (mark : Mark) :
    [mark].foldlM track turned = track turned mark := by
  rw [List.foldlM_cons]
  cases track turned mark <;> rfl

/-- What closes the open conditionals, innermost first: nested marks and a closing mark for each,
with a turning mark in between where the conditional may still turn. -/
def Closes : (turned : List Bool) → List Mark → Prop
  | [], marks => Nested marks
  | true :: outer, marks =>
    ∃ body rest, marks = body ++ closing :: rest ∧ Nested body ∧ Closes outer rest
  | false :: outer, marks =>
    (∃ body rest, marks = body ++ closing :: rest ∧ Nested body ∧ Closes outer rest) ∨
    ∃ first second rest, marks = first ++ turning :: (second ++ closing :: rest) ∧
      Nested first ∧ Nested second ∧ Closes outer rest

/-- A conditional that is closed may stand in front. -/
theorem closes_append {unit marks : List Mark} {turned : List Bool}
    (hunit : ∀ ms, Nested ms → Nested (unit ++ ms)) (h : Closes turned marks) :
    Closes turned (unit ++ marks) := by
  cases turned with
  | nil => exact hunit marks h
  | cons t outer =>
    cases t with
    | true =>
      obtain ⟨body, rest, rfl, hbody, hrest⟩ := h
      exact ⟨unit ++ body, rest, (List.append_assoc ..).symm, hunit body hbody, hrest⟩
    | false =>
      rcases h with ⟨body, rest, rfl, hbody, hrest⟩ |
        ⟨first, second, rest, rfl, hfirst, hsecond, hrest⟩
      · exact .inl ⟨unit ++ body, rest, (List.append_assoc ..).symm, hunit body hbody, hrest⟩
      · exact .inr ⟨unit ++ first, second, rest, (List.append_assoc ..).symm, hunit first hfirst,
          hsecond, hrest⟩

theorem closes_opening {marks : List Mark} {turned : List Bool}
    (h : Closes (false :: turned) marks) : Closes turned (opening :: marks) := by
  rcases h with ⟨body, rest, rfl, hbody, hrest⟩ |
    ⟨first, second, rest, rfl, hfirst, hsecond, hrest⟩
  · have hunit : ∀ ms, Nested ms → Nested (opening :: (body ++ [closing]) ++ ms) := by
      intro ms hms
      simpa using Nested.oneArm hbody hms
    simpa using closes_append hunit hrest
  · have hunit : ∀ ms, Nested ms →
        Nested (opening :: (first ++ turning :: (second ++ [closing])) ++ ms) := by
      intro ms hms
      simpa using Nested.twoArms hfirst hsecond hms
    simpa using closes_append hunit hrest

theorem closes_closing {marks : List Mark} {t : Bool} {outer : List Bool}
    (h : Closes outer marks) : Closes (t :: outer) (closing :: marks) := by
  cases t with
  | true => exact ⟨[], marks, rfl, .nil, h⟩
  | false => exact .inl ⟨[], marks, rfl, .nil, h⟩

theorem closes_turning {marks : List Mark} {outer : List Bool} (h : Closes (true :: outer) marks) :
    Closes (false :: outer) (turning :: marks) := by
  obtain ⟨body, rest, rfl, hbody, hrest⟩ := h
  exact .inr ⟨[], body, rest, rfl, .nil, hbody, hrest⟩

/-- What a reader goes through until nothing is open closes what was open. -/
theorem closes_of_track {turned : List Bool} {marks : List Mark}
    (h : marks.foldlM track turned = some []) : Closes turned marks := by
  induction marks generalizing turned with
  | nil =>
    cases h
    exact Nested.nil
  | cons mark marks ih =>
    rw [List.foldlM_cons] at h
    cases mark with
    | opening => exact closes_opening (ih h)
    | turning =>
      match turned, h with
      | false :: outer, h => exact closes_turning (ih h)
    | closing =>
      match turned, h with
      | t :: outer, h => exact closes_closing (ih (by cases t <;> exact h))

/-- **A reader that ends with nothing open has read nested marks.** -/
theorem nested_of_track {marks : List Mark} (h : marks.foldlM track [] = some []) :
    Nested marks := closes_of_track h

end Mark

end CoinScript
