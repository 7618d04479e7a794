import CoinScript.Proofs.Machine.Looser
import CoinScript.Proofs.Machine.Stepping
import CoinScript.Proofs.Machine.Verdict
import CoinScript.Proofs.Script.Skeleton

/-!
# What is accepted is well formed

A script is well formed under rules (`Rules.WellFormed`) if it is not too long, reads as
instructions to its end, holds only instructions that the rules admit, at most as many operations as
are allowed, and conditionals that are properly nested.  All of this is said of the bytes of the
script, executed or not.

`wellFormed_of_execute_ok` says that every script that took part in an accepted spend is well
formed: the unlocking script, the locking script and, with a lock by script hash, the script that is
named.

## The walk

The machine looks at every instruction of a script, whatever arms are taken.  `walks_step` says what
one instruction leaves behind: it is admitted, it has been counted, and the open conditionals are
those that a reader of the skeleton has (`Mark.track`).  `walks_instructions` is the induction, and
the end of the script, where no conditional may be open, makes the skeleton nested.
-/

namespace CoinScript

namespace Opcode

/-- `2MUL`, `2DIV`, `VERIF` and `VERNOTIF`. -/
def neverAdmitted : List Opcode := [0x8d, 0x8e, 0x65, 0x66]

/-- `CAT`, `SPLIT`, `NUM2BIN`, `BIN2NUM`, `AND`, `OR`, `XOR`, `DIV` and `MOD`. -/
def extendedSetA : List Opcode := [0x7e, 0x7f, 0x80, 0x81, 0x84, 0x85, 0x86, 0x96, 0x97]

/-- `INVERT`, `MUL`, `LSHIFT` and `RSHIFT`. -/
def extendedSetB : List Opcode := [0x83, 0x95, 0x98, 0x99]

theorem gate_of_mem_neverAdmitted :
    ∀ op ∈ neverAdmitted, (Operation.ofCode op).gate = .never := by decide +kernel

theorem gate_of_mem_extendedSetA :
    ∀ op ∈ extendedSetA, (Operation.ofCode op).gate = .extendedA := by decide +kernel

theorem gate_of_mem_extendedSetB :
    ∀ op ∈ extendedSetB, (Operation.ofCode op).gate = .extendedB := by decide +kernel

end Opcode

namespace Rules

/-- The instruction may stand in a script, whether it is executed or not. -/
structure Admits (r : Rules) (i : Instruction) : Prop where
  payload : i.data.length ≤ r.limits.maxElementSize
  notNever : i.code ∉ Opcode.neverAdmitted
  extendedA : i.code ∈ Opcode.extendedSetA → r.flags.has .extendedA = true
  extendedB : i.code ∈ Opcode.extendedSetB → r.flags.has .extendedB = true

theorem admits_of_opens {r : Rules} {i : Instruction}
    (hpayload : i.data.length ≤ r.limits.maxElementSize) (h : r.Opens i.operation.gate) :
    r.Admits i := by
  unfold Instruction.operation at h
  refine ⟨hpayload, fun hmem => ?_, fun hmem => ?_, fun hmem => ?_⟩
  · rw [Opcode.gate_of_mem_neverAdmitted _ hmem] at h
    exact h
  · rw [Opcode.gate_of_mem_extendedSetA _ hmem] at h
    exact h
  · rw [Opcode.gate_of_mem_extendedSetB _ hmem] at h
    exact h

/-- What holds of the bytes of a script that was accepted. -/
structure WellFormed (r : Rules) (s : Script) : Prop where
  size : s.length ≤ r.limits.maxScriptSize
  parses : Script.decode s = .ok (Script.scan s).1
  admitted : ∀ i ∈ (Script.scan s).1, r.Admits i
  operations : (Script.scan s).1.countP (fun i => decide (0x60 < i.code)) ≤ r.limits.maxOps
  nested : Nested (Script.skeleton (Script.scan s).1)

end Rules

/-- Of every open conditional, innermost first, whether it has turned. -/
def Branches.turns (b : Branches) : List Bool := b.frames.map Branch.turned

namespace Run

variable {r : Rules} {m after : Machine}

/-! ## Conditionals -/

theorem track_turning {b b' : Branches} (h : b.turning = .ok b') :
    Mark.track b.turns .turning = some b'.turns := by
  obtain ⟨frame, outer, hframes, hturned, hframes'⟩ := Branches.turning_eq_ok h
  unfold Branches.turns
  rw [hframes, hframes', List.map_cons, List.map_cons, hturned]
  rfl

theorem track_closing {b b' : Branches} (h : b.closing = .ok b') :
    Mark.track b.turns .closing = some b'.turns := by
  obtain ⟨frame, hframes⟩ := Branches.closing_eq_ok h
  unfold Branches.turns
  rw [hframes, List.map_cons]
  cases frame.turned <;> rfl

/-- The open conditionals are the same, and operations are only counted, up to the limit. -/
structure Steady (limit : Nat) (m m' : Machine) : Prop where
  branches : m'.branches = m.branches
  counted : m.operations ≤ m'.operations
  limited : m.operations ≤ limit → m'.operations ≤ limit

theorem frame_steady (limit : Nat) : Frame limit (Steady limit) where
  refl _ := ⟨rfl, Nat.le_refl _, id⟩
  trans h h' := ⟨h'.branches.trans h.branches, Nat.le_trans h.counted h'.counted,
    fun hle => h'.limited (h.limited hle)⟩
  main _ _ := ⟨rfl, Nat.le_refl _, id⟩
  alt _ _ := ⟨rfl, Nat.le_refl _, id⟩
  journal _ _ := ⟨rfl, Nat.le_refl _, id⟩
  codeStart _ _ := ⟨rfl, Nat.le_refl _, id⟩
  count _ n h := ⟨rfl, Nat.le_add_right _ n, fun _ => h⟩

/-- What an operation leaves of the machine, as far as the form of scripts goes. -/
structure Walks (limit : Nat) (x : Operation) (m m' : Machine) : Prop where
  tracked : x.mark?.toList.foldlM Mark.track m.branches.turns = some m'.branches.turns
  counted : m.operations ≤ m'.operations
  limited : m.operations ≤ limit → m'.operations ≤ limit

theorem Steady.walks {limit : Nat} {x : Operation} {m m' : Machine} (h : Steady limit m m')
    (hx : x.mark? = none) : Walks limit x m m' := by
  refine ⟨?_, h.counted, h.limited⟩
  rw [hx, h.branches]
  rfl

theorem walks_flow {executing : Bool} {op : Opcode} {x : FlowOp}
    (h : flow r executing op x m = .ok () after) :
    Walks r.limits.maxOps (.flow x) m after := by
  have hframe := frame_steady r.limits.maxOps
  cases x with
  | opening onTrue =>
    cases executing with
    | true =>
      obtain ⟨condition, m', hpop, hopen⟩ := bind_eq_ok h
      have hsteady := moves_popCondition hframe m condition m' hpop
      obtain ⟨b, hb, rfl⟩ := onBranches_eq_ok hopen
      cases hb
      refine ⟨?_, hsteady.counted, hsteady.limited⟩
      rw [← hsteady.branches]
      rfl
    | false =>
      have hopen : onBranches (fun b => .ok b.openingSkipped) m = .ok () after := h
      obtain ⟨b, hb, rfl⟩ := onBranches_eq_ok hopen
      cases hb
      exact ⟨rfl, Nat.le_refl _, id⟩
  | turning =>
    obtain ⟨b, hb, rfl⟩ := onBranches_eq_ok h
    refine ⟨?_, Nat.le_refl _, id⟩
    rw [← track_turning hb]
    exact Mark.foldlM_track_singleton _ _
  | closing =>
    obtain ⟨b, hb, rfl⟩ := onBranches_eq_ok h
    refine ⟨?_, Nat.le_refl _, id⟩
    rw [← track_closing hb]
    exact Mark.foldlM_track_singleton _ _
  | verify => exact (moves_verifyTop hframe op m () after h).walks rfl
  | giveUp => cases h

theorem walks_perform {script : List Instruction} {offset : Nat} {executing : Bool}
    {i : Instruction} (h : perform r script offset executing i m = .ok () after) :
    Walks r.limits.maxOps i.operation m after := by
  cases hi : i.isConditional with
  | false =>
    exact (moves_perform (frame_steady r.limits.maxOps) script offset executing hi m () after
      h).walks (Operation.mark?_eq_none hi)
  | true =>
    rcases operation_of_conditional hi with ⟨onTrue, hop⟩ | hop | hop
    all_goals
      rw [perform_flow hop] at h
      rw [hop]
      exact walks_flow h

/-! ## Instructions -/

/-- **What one instruction leaves behind.**  It is admitted, whether it was executed or not; its
mark is followed and its cost is counted, and the count stays within the limit. -/
theorem walks_step {script : List Instruction} {offset : Nat} {i : Instruction}
    (h : step r script offset i m = .ok () after) (hm : m.operations ≤ r.limits.maxOps) :
    r.Admits i ∧
      i.code.mark?.toList.foldlM Mark.track m.branches.turns = some after.branches.turns ∧
      m.operations + i.cost ≤ after.operations ∧ after.operations ≤ r.limits.maxOps := by
  obtain ⟨hpayload, hopens, hcount, hwhat⟩ := step_eq_ok h
  refine ⟨Rules.admits_of_opens hpayload hopens, ?_⟩
  have hcounted : m.operations + i.cost ≤ r.limits.maxOps := by
    by_cases hcode : 0x60 < i.code
    · exact hcount hcode
    · rw [Instruction.cost, if_neg hcode]
      exact hm
  rw [Instruction.mark?_of_operation rfl]
  rcases hwhat with ⟨-, hplain, rfl⟩ | ⟨-, -, journal, hperform⟩
  · rw [Operation.mark?_eq_none hplain]
    exact ⟨rfl, Nat.le_refl _, hcounted⟩
  · have hwalks := walks_perform hperform
    exact ⟨hwalks.tracked, hwalks.counted, hwalks.limited hcounted⟩

/-- **What the instructions of a script leave behind**, by induction on them. -/
theorem walks_instructions {script is : List Instruction} {offset : Nat}
    (h : instructions r script offset is m = .ok () after) (hm : m.operations ≤ r.limits.maxOps) :
    (∀ i ∈ is, r.Admits i) ∧
      (Script.skeleton is).foldlM Mark.track m.branches.turns = some after.branches.turns ∧
      m.operations + is.countP (fun i => decide (0x60 < i.code)) ≤ after.operations ∧
      after.operations ≤ r.limits.maxOps := by
  induction is generalizing offset m with
  | nil =>
    cases h
    exact ⟨fun i hi => (by cases hi), rfl, Nat.le_refl _, hm⟩
  | cons i is ih =>
    obtain ⟨m', hstep, -, hrest⟩ := instructions_cons_eq_ok h
    obtain ⟨hadmitted, htracked, hcounted, hlimited⟩ := walks_step hstep hm
    obtain ⟨hadmittedRest, htrackedRest, hcountedRest, hend⟩ := ih hrest hlimited
    refine ⟨?_, ?_, ?_, hend⟩
    · intro j hj
      rcases List.mem_cons.mp hj with rfl | hj
      · exact hadmitted
      · exact hadmittedRest j hj
    · rw [Script.skeleton_cons, List.foldlM_append, htracked]
      exact htrackedRest
    · have hcost : (i :: is).countP (fun i => decide (0x60 < i.code)) =
          is.countP (fun i => decide (0x60 < i.code)) + i.cost := by
        rw [List.countP_cons, Instruction.cost]
        simp
      omega

/-- A script that runs to its end is well formed. -/
theorem wellFormed_of_script {s : Script} (hsize : s.length ≤ r.limits.maxScriptSize)
    (htail : (Script.scan s).2 = []) (h : Run.script r (Script.scan s).1 m = .ok () after) :
    r.WellFormed s := by
  obtain ⟨m', hinstructions, hclosed, -⟩ := script_eq_ok h
  obtain ⟨hadmitted, htracked, hcounted, hlimited⟩ :=
    walks_instructions hinstructions (Nat.zero_le _)
  refine ⟨hsize, ?_, hadmitted, ?_, ?_⟩
  · unfold Script.decode
    rw [if_pos htail]
  · rw [Nat.zero_add] at hcounted
    exact Nat.le_trans hcounted hlimited
  · refine Mark.nested_of_track (htracked.trans ?_)
    unfold Branches.turns
    rw [hclosed]
    rfl

end Run

namespace Rules

/-- The main stack that an unlocking script leaves to the locking script. -/
def leaves (r : Rules) (unlocking : Script) : Option Stack :=
  match Run.script r (Script.scan unlocking).1 .start with
  | .ok () m => some m.main
  | .error _ _ => none

/-- What a script leaves does not depend on the journal. -/
theorem leaves_of_script {r : Rules} {unlocking : Script} {m after : Machine}
    (hm : m.Alike .start) (h : Run.script r (Script.scan unlocking).1 m = .ok () after) :
    r.leaves unlocking = some after.main := by
  have hfollows := Run.follows_script (looser_refl (fun _ => False) r) (Script.scan unlocking).1
    m .start hm
  unfold leaves
  rw [h] at hfollows
  generalize Run.script r (Script.scan unlocking).1 .start = result at hfollows
  cases hfollows with
  | ok halike =>
    obtain ⟨journal, rfl⟩ := halike
    rfl

/-- The rules in force have the limits and the gates that were asked for. -/
theorem wellFormed_of_effective {r e : Rules} {s : Script} (he : r.effective = .ok e)
    (h : e.WellFormed s) : r.WellFormed s := by
  have hlimits := limits_of_effective he
  refine ⟨hlimits ▸ h.size, h.parses, fun i hi => ?_, hlimits ▸ h.operations, h.nested⟩
  have hi := h.admitted i hi
  refine ⟨hlimits ▸ hi.payload, hi.notNever, fun hmem => ?_, fun hmem => ?_⟩
  · rw [← has_eq_of_effective he (by decide)]
    exact hi.extendedA hmem
  · rw [← has_eq_of_effective he (by decide)]
    exact hi.extendedB hmem

end Rules

/-- **Every script of an accepted spend is well formed**: the unlocking script, the locking script
and, if that names the hash of a script, the script on top of what the unlocking script left. -/
theorem wellFormed_of_execute_ok (r : Rules) (unlocking locking : Script)
    (h : (execute r unlocking locking).verdict = .ok ()) :
    r.WellFormed unlocking ∧ r.WellFormed locking ∧
      (r.flags.has .payToScriptHash = true → Script.isPayToScriptHash locking = true →
        ∃ e s below, r.effective = .ok e ∧ e.leaves unlocking = some (s :: below) ∧
          r.WellFormed s) := by
  obtain ⟨e, after, he, hrun⟩ := execute_ok_iff.mp h
  obtain ⟨opened, locked, path⟩ := Run.spend_eq_ok hrun
  have hunlocking := Run.wellFormed_of_script path.unlocking_size path.unlocking_tail path.unlocks
  have hlocking := Run.wellFormed_of_script path.locking_size path.locking_tail path.locks
  refine ⟨Rules.wellFormed_of_effective he hunlocking, Rules.wellFormed_of_effective he hlocking,
    fun hflag hhash => ?_⟩
  have hnamed : Run.byScriptHash e locking = true := by
    obtain ⟨rfl, -⟩ := Rules.effective_eq_ok_iff.mp he
    unfold Run.byScriptHash
    rw [Rules.has_effectiveFlags, hflag, hhash]
    rfl
  obtain ⟨s, below, journal, hleft, hsize, htail, hredeem, -⟩ :=
    Run.redeem_eq_ok (path.redeems hnamed)
  refine ⟨e, s, below, he, ?_, Rules.wellFormed_of_effective he
    (Run.wellFormed_of_script hsize htail hredeem)⟩
  rw [← hleft]
  exact Rules.leaves_of_script ⟨_, rfl⟩ path.unlocks

/-- The script `1 IF 1 ELSE 0 ENDIF`, named by a lock and pushed by the unlocking script, is run and
is well formed. -/
theorem wellFormed_of_namedConditional :
    let r : Rules := ⟨.consensus, .standard, .secp256k1, none, 0⟩
    ∃ e s below, r.effective = .ok e ∧
      e.leaves [6, 0x51, 0x63, 0x51, 0x67, 0x00, 0x68] = some (s :: below) ∧ r.WellFormed s :=
  (wellFormed_of_execute_ok ⟨.consensus, .standard, .secp256k1, none, 0⟩ _
    (Script.payToScriptHash (hash160 [0x51, 0x63, 0x51, 0x67, 0x00, 0x68]))
    (by decide +kernel)).2.2 (by decide) (by decide +kernel)

end CoinScript
