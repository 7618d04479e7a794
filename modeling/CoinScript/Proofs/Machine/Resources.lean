import CoinScript.Proofs.Machine.Acceptance
import CoinScript.Proofs.Machine.ElementSize
import CoinScript.Proofs.Machine.SignedCode

/-!
# The resources of a run

Wherever a run comes to, its elements, its stacks and its count of operations are within the limits.
One instruction keeps the elements within their limit and counts what it costs (`Run.bounded_step`);
the induction over the places of a script is `Run.accounted_of_reaches`, and `Run.ready_of_begins`
goes from one script of a spend to the next.

The count of operations is told apart into what the instructions cost by themselves and the keys of
the checks of several signatures.  How many keys such an instruction has stands on the stack that it
finds, so the count is a sum over the machines found on the way (`Run.Finds`).
-/

namespace CoinScript

/-- The two opcodes that check several signatures. -/
theorem Operation.exists_checkMultisig_iff (op : Opcode) :
    (∃ checked, Operation.ofCode op = .crypto (.checkMultisig checked)) ↔
      op = 0xae ∨ op = 0xaf := by
  have hall : ∀ op : Opcode, decide ((Operation.ofCode op = .crypto (.checkMultisig false) ∨
      Operation.ofCode op = .crypto (.checkMultisig true)) ↔ op = 0xae ∨ op = 0xaf) = true :=
    Opcode.forall_of_lt (by decide +kernel)
  rw [← of_decide_eq_true (hall op), Bool.exists_bool]

/-- Number of keys of an instruction on the machine that it finds: where it is executed and checks
several signatures, what the count on top of the stack is read as, and otherwise none. -/
def Machine.keyCount (m : Machine) (i : Instruction) : Nat :=
  if m.branches.isExecuting = true ∧ (i.code = 0xae ∨ i.code = 0xaf) then
    (Number.clamp 64 (Number.value (m.main.headD []))).toNat
  else 0

/-- The same limits with another one for elements. -/
def Limits.upTo (l : Limits) (size : Nat) : Limits := { l with maxElementSize := size }

/-- A machine on which a script may begin: the elements of the main stack are within the limits, and
there is no other. -/
structure Machine.Ready (l : Limits) (m : Machine) : Prop where
  main : Stack.Within l.maxElementSize m.main
  depth : m.main.length ≤ l.maxStackSize
  alt : m.alt = []

namespace Run

variable {r : Rules} {script : List Instruction} {first m after : Machine}
  {offset size n : Nat} {i : Instruction}

/-- On these machines the run of a script comes to its first instructions, in order. -/
def Finds (r : Rules) (script : List Instruction) (first : Machine) (found : List Machine) : Prop :=
  ∀ k m, found[k]? = some m → Reaches r script first k m

theorem Finds.concat {found : List Machine} (h : Finds r script first found)
    (hreaches : Reaches r script first found.length m) : Finds r script first (found ++ [m]) := by
  intro k machine hk
  rcases Nat.lt_trichotomy k found.length with hlt | rfl | hgt
  · rw [List.getElem?_append_left hlt] at hk
    exact h k machine hk
  · rw [List.getElem?_concat_length] at hk
    cases hk
    exact hreaches
  · have hlength : (found ++ [m]).length ≤ k := by
      rw [List.length_append, List.length_singleton]
      exact hgt
    rw [List.getElem?_eq_none hlength] at hk
    cases hk

/-! ## One instruction -/

/-- **What one instruction counts, and that it makes no element that is too long.** -/
theorem bounded_step (hr : r.Roomy size) (hm : m.Bounded size n)
    (hstack : m.main.length ≤ r.limits.maxStackSize)
    (h : step r script offset i m = .ok () after) :
    after.Bounded size (n + i.cost + m.keyCount i) := by
  obtain ⟨hsize, hopens, -, hwhat⟩ := step_eq_ok h
  have hcounted : m.operations + i.cost = n + i.cost := congrArg (· + i.cost) hm.operations
  unfold Machine.keyCount
  rcases hwhat with ⟨hskipped, -, rfl⟩ | ⟨hany, -, journal, hperform⟩
  · rw [if_neg fun hkeys => by simp [hskipped] at hkeys]
    exact ⟨hm.main, hm.alt, hcounted⟩
  · have hentering : Machine.Bounded size (n + i.cost)
        { m with operations := m.operations + i.cost, journal } := ⟨hm.main, hm.alt, hcounted⟩
    by_cases hcode : i.code = 0xae ∨ i.code = 0xaf
    · obtain ⟨checked, hop⟩ := (Operation.exists_checkMultisig_iff i.code).mpr hcode
      have hoperation : i.operation = .crypto (.checkMultisig checked) := hop
      -- it is no conditional, so it is performed only where it is executed
      have hexecuting : m.branches.isExecuting = true := by
        rw [Instruction.isConditional, hoperation] at hany
        simpa [Operation.isConditional] using hany
      unfold perform at hperform
      rw [hoperation] at hperform
      have hcharged := bounded_multisig hr hentering hperform
      rw [if_pos ⟨hexecuting, hcode⟩]
      exact hcharged
    · have hmultisig : ∀ checked, i.operation ≠ .crypto (.checkMultisig checked) := by
        intro checked hop
        exact hcode ((Operation.exists_checkMultisig_iff i.code).mp ⟨checked, hop⟩)
      have hkept := bounded_perform hr hentering hsize hopens hstack hmultisig hperform
      rw [if_neg fun hkeys => hcode hkeys.2]
      exact hkept

/-! ## Scripts -/

/-- At a place of a script: the elements are within a size and the stacks within the limits, and the
operations are accounted for. -/
structure Accounted (r : Rules) (size : Nat) (script : List Instruction) (first : Machine)
    (offset : Nat) (m : Machine) (found : List Machine) : Prop where
  length : found.length = offset
  finds : Finds r script first found
  bounded : m.Bounded size
    ((script.take offset).countP (fun i => decide (0x60 < i.code)) +
      (List.zipWith Machine.keyCount found (script.take offset)).sum)
  depth : m.main.length + m.alt.length ≤ r.limits.maxStackSize
  limited : m.operations ≤ r.limits.maxOps

/-- **The resources at every place of a script**, by induction on the way to it. -/
theorem accounted_within (hr : r.Roomy size) (hfirst : first.Ready (r.limits.upTo size))
    (h : Reaches r script first offset m) :
    ∃ found, Accounted r size script first offset m found := by
  induction h with
  | start =>
    have halt : first.afresh.alt = [] := hfirst.alt
    refine ⟨[], rfl, ?_, ⟨hfirst.main, ?_, rfl⟩, ?_, Nat.zero_le _⟩
    · intro k m hk
      cases hk
    · intro b hb
      rw [halt] at hb
      cases hb
    · rw [halt]
      exact hfirst.depth
  | @next offset m m' i hreaches hi hstep hsize ih =>
    obtain ⟨found, hfound⟩ := ih
    have hbounded := bounded_step hr hfound.bounded
      (Nat.le_trans (Nat.le_add_right _ _) hfound.depth) hstep
    obtain ⟨-, -, -, hlimited⟩ := walks_step hstep hfound.limited
    have htake : script.take (offset + 1) = script.take offset ++ [i] := by
      rw [List.take_add_one, hi]
      rfl
    have hlength : found.length = (script.take offset).length := by
      obtain ⟨hlt, -⟩ := List.getElem?_eq_some_iff.mp hi
      rw [hfound.length, List.length_take, Nat.min_eq_left (Nat.le_of_lt hlt)]
    have hcost : [i].countP (fun i => decide (0x60 < i.code)) = i.cost := by
      rw [List.countP_singleton, Instruction.cost]
      simp only [decide_eq_true_eq]
    have hkeys : (List.zipWith Machine.keyCount [m] [i]).sum = m.keyCount i := by
      rw [List.zipWith_cons_cons, List.zipWith_nil_left, List.sum_singleton]
    refine ⟨found ++ [m], ?_, hfound.finds.concat ?_, ?_, hsize, hlimited⟩
    · rw [List.length_append, hfound.length, List.length_singleton]
    · rw [hfound.length]
      exact hreaches
    · rw [htake, List.countP_append, List.zipWith_append hlength, List.sum_append, hcost, hkeys,
        Nat.add_add_add_comm, ← Nat.add_assoc]
      exact hbounded

theorem accounted_of_reaches (hr : r.limits.Roomy) (hfirst : first.Ready r.limits)
    (h : Reaches r script first offset m) :
    ∃ found, Accounted r r.limits.maxElementSize script first offset m found :=
  accounted_within hr.rules hfirst h

/-- What a script leaves is within the limits, so that another may begin on it. -/
theorem ready_of_script (hr : r.Roomy size) (hfirst : first.Ready (r.limits.upTo size))
    (h : Run.script r script first = .ok () after) : after.Ready (r.limits.upTo size) := by
  obtain ⟨m, hrun, -, rfl⟩ := script_eq_ok h
  have hreaches : Reaches r script first (0 + script.length) m :=
    reaches_of_instructions List.drop_zero .start hrun
  obtain ⟨found, hfound⟩ := accounted_within hr hfirst hreaches
  exact ⟨hfound.bounded.main, Nat.le_trans (Nat.le_add_right _ _) hfound.depth, rfl⟩

/-! ## Spends -/

variable {unlocking locking s : Script}

/-- **Every script of a spend begins within the limits**: the locking script on what the unlocking
script left, and the named script on the same without its top. -/
theorem ready_within (hr : r.Roomy size) (hm : m.Ready (r.limits.upTo size))
    (h : Begins r unlocking locking m s first) : first.Ready (r.limits.upTo size) := by
  cases h with
  | unlocking _ => exact hm
  | locking _ hunlocks => exact ready_of_script hr hm hunlocks
  | redeem _ hunlocks hlocks hleft _ =>
    have hopened := ready_of_script hr hm hunlocks
    have hlocked := ready_of_script hr hopened hlocks
    have hmain := hopened.main
    have hdepth := hopened.depth
    rw [hleft] at hmain hdepth
    exact ⟨(List.forall_mem_cons.mp hmain).2, Nat.le_trans (Nat.le_succ _) hdepth, hlocked.alt⟩

theorem ready_of_begins (hr : r.limits.Roomy) (hm : m.Ready r.limits)
    (h : Begins r unlocking locking m s first) : first.Ready r.limits :=
  ready_within hr.rules hm h

/-- The first machine has nothing on its stacks. -/
theorem ready_begun (l : Limits) (r : Rules) (unlocking locking : Script) :
    (Machine.begun r unlocking locking).Ready l where
  main b hb := by cases hb
  depth := Nat.zero_le _
  alt := rfl

/-- The place of the separator is not behind the place of the run. -/
theorem codeStart_le_of_reaches (h : Reaches r script first offset m) : m.codeStart ≤ offset := by
  rcases codeStart_of_reaches h with ⟨hzero, -⟩ | ⟨k, hk, -, hstart, -⟩
  · rw [hzero]
    exact Nat.zero_le offset
  · rw [hstart]
    exact hk

end Run

/-- **The resource limits of consensus hold wherever a run comes to**, under all flags, for all
scripts and all transactions: before every instruction, after every one that completes, and so also
where a script begins on what another left.  The operations counted are the instructions above `16`
that the run has walked over in this script and the keys of the checks of several signatures among
them that were executed. -/
theorem resources_of_reaches (r e : Rules) (unlocking locking s : Script) (first m : Machine)
    (offset : Nat) (hlimits : r.limits = .consensus) (he : r.effective = .ok e)
    (hbegins : Run.Begins e unlocking locking (.begun r unlocking locking) s first)
    (hreaches : Run.Reaches e (Script.scan s).1 first offset m) :
    (∀ b ∈ m.main ++ m.alt, b.length ≤ 520) ∧
      m.main.length + m.alt.length ≤ 1000 ∧
      m.operations ≤ 201 ∧
      (∃ found : List Machine, found.length = offset ∧ Run.Finds e (Script.scan s).1 first found ∧
        m.operations = ((Script.scan s).1.take offset).countP (fun i => decide (0x60 < i.code)) +
          (List.zipWith Machine.keyCount found ((Script.scan s).1.take offset)).sum) ∧
      m.codeStart ≤ offset := by
  have hconsensus : e.limits = .consensus := (Rules.limits_of_effective he).trans hlimits
  have hr : e.limits.Roomy := by
    rw [hconsensus]
    exact Limits.roomy_consensus
  have hfirst := Run.ready_of_begins hr (Run.ready_begun e.limits r unlocking locking) hbegins
  obtain ⟨found, hfound⟩ := Run.accounted_of_reaches hr hfirst hreaches
  have hmain := hfound.bounded.main
  have halt := hfound.bounded.alt
  have hdepth := hfound.depth
  have hlimited := hfound.limited
  rw [hconsensus] at hmain halt hdepth hlimited
  exact ⟨fun b hb => (List.mem_append.mp hb).elim (hmain b) (halt b), hdepth, hlimited,
    ⟨found, hfound.length, hfound.finds, hfound.bounded.operations⟩,
    Run.codeStart_le_of_reaches hreaches⟩

/-! ## A check of two keys -/

namespace TwoKeys

/-- An element that is not needed, no signature, two keys and their number. -/
def unlocking : Script := [0x00, 0x00, 0x51, 0x52, 0x52]

/-- A separator and the check. -/
def locking : Script := [0xab, 0xae]

/-- The rules are those in force. -/
theorem effective_rules : OwnSignature.rules.effective = .ok OwnSignature.rules := rfl

/-- Four operations have been counted when the check is done: two instructions and two keys. -/
theorem resources_at_end :
    ∃ first m, Run.Begins OwnSignature.rules unlocking locking
        (.begun OwnSignature.rules unlocking locking) locking first ∧
      Run.Reaches OwnSignature.rules (Script.scan locking).1 first 2 m ∧
      m.operations = 4 ∧ m.codeStart = 1 ∧
      (∀ b ∈ m.main ++ m.alt, b.length ≤ 520) ∧
      m.main.length + m.alt.length ≤ 1000 ∧ m.operations ≤ 201 ∧
      (∃ found : List Machine, found.length = 2 ∧
        Run.Finds OwnSignature.rules (Script.scan locking).1 first found ∧
        m.operations = ((Script.scan locking).1.take 2).countP (fun i => decide (0x60 < i.code)) +
          (List.zipWith Machine.keyCount found ((Script.scan locking).1.take 2)).sum) ∧
      m.codeStart ≤ 2 := by
  have hrun : EStateM.run' (do
      Run.script OwnSignature.rules (Script.scan unlocking).1
      modify Machine.afresh
      Run.instructions OwnSignature.rules (Script.scan locking).1 0 (Script.scan locking).1
      let m ← get
      return (m.operations, m.codeStart) : Run (Nat × Nat))
      (.begun OwnSignature.rules unlocking locking) = some (4, 1) := by
    decide +kernel
  obtain ⟨after, hok⟩ := Run.exists_eq_ok hrun
  obtain ⟨_, opened, hunlocks, h₁⟩ := bind_eq_ok hok
  obtain ⟨_, m₁, hafresh, h₂⟩ := bind_eq_ok h₁
  cases hafresh
  obtain ⟨_, m, hlocks, h₃⟩ := bind_eq_ok h₂
  have hread : EStateM.Result.ok (m.operations, m.codeStart) m = .ok (4, 1) after := h₃
  obtain ⟨hcounts, -⟩ := EStateM.Result.ok.inj hread
  obtain ⟨hoperations, hcodeStart⟩ := Prod.mk.inj hcounts
  have hbegins : Run.Begins OwnSignature.rules unlocking locking
      (.begun OwnSignature.rules unlocking locking) locking opened :=
    .locking (by decide +kernel) hunlocks
  have hlength : 0 + (Script.scan locking).1.length = 2 := by decide +kernel
  have hreaches : Run.Reaches OwnSignature.rules (Script.scan locking).1 opened 2 m := by
    rw [← hlength]
    exact Run.reaches_of_instructions List.drop_zero .start hlocks
  exact ⟨opened, m, hbegins, hreaches, hoperations, hcodeStart,
    resources_of_reaches _ _ _ _ _ _ _ _ rfl effective_rules hbegins hreaches⟩

end TwoKeys

end CoinScript
