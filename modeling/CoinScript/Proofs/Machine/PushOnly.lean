import CoinScript.Proofs.Machine.Stepping
import CoinScript.Proofs.Script.Skeleton

/-!
# Pushes

A script that is asked to hold pushes only may hold the opcodes up to `16`.  One of them, `0x50`, is
no push but reserved, and fails where it is executed.  So a run of such a script that succeeds has
put the value of every instruction on the stack, in order, and has done nothing else: no operation
is counted, no conditional is opened and the alt stack is not touched (`pushes_instructions`).

No element that is put on the stack in this way is longer than the limit for payloads
(`length_le_of_pushes`).
-/

namespace CoinScript

/-- The opcodes up to `16` are pushes, but for the reserved one. -/
theorem Operation.ofCode_of_le {op : Opcode} (hle : op ≤ 0x60) :
    Operation.ofCode op = if op = 0x50 then .reserved false else .push := by
  have hall : ∀ op : Opcode, decide (op ≤ 0x60 →
      Operation.ofCode op = if op = 0x50 then .reserved false else .push) = true :=
    Opcode.forall_of_lt (by decide +kernel)
  exact of_decide_eq_true (hall op) hle

/-- The value of a push is its payload or a single byte. -/
theorem Instruction.length_pushValue_le (i : Instruction) :
    i.pushValue.length ≤ max 1 i.data.length := by
  unfold pushValue
  split
  · exact Nat.le_max_left 1 _
  · split
    · exact Nat.le_max_left 1 _
    · exact Nat.le_max_right 1 _

namespace Run

variable {r : Rules} {m after : Machine} {script is : List Instruction} {offset : Nat}

/-- **What a push does.** -/
theorem pushes_step {i : Instruction} (hle : i.code ≤ 0x60)
    (hexecuting : m.branches.isExecuting = true) (h : step r script offset i m = .ok () after) :
    i.isPush = true ∧ i.data.length ≤ r.limits.maxElementSize ∧
      ∃ journal, after = { m with main := i.pushValue :: m.main, journal } := by
  obtain ⟨hsize, -, journal, hperform⟩ := step_executing_eq_ok hexecuting h
  have hcost : i.cost = 0 := if_neg (UInt8.not_lt.mpr hle)
  have hoperation : i.operation = _ := Operation.ofCode_of_le hle
  unfold perform at hperform
  rw [hoperation, hcost] at hperform
  by_cases hreserved : i.code = 0x50
  · rw [if_pos hreserved] at hperform
    cases hperform
  · rw [if_neg hreserved] at hperform
    cases hperform
    exact ⟨decide_eq_true ⟨hle, hreserved⟩, hsize, journal, rfl⟩

/-- **What pushes do one after the other**, by induction on them. -/
theorem pushes_instructions (his : ∀ i ∈ is, i.code ≤ 0x60)
    (h : instructions r script offset is m = .ok () after)
    (hexecuting : m.branches.isExecuting = true) :
    (∀ i ∈ is, i.isPush = true ∧ i.data.length ≤ r.limits.maxElementSize) ∧
      ∃ journal, after =
        { m with main := (is.map Instruction.pushValue).reverse ++ m.main, journal } := by
  induction is generalizing m offset with
  | nil =>
    cases h
    exact ⟨fun i hi => (by cases hi), after.journal, rfl⟩
  | cons i is ih =>
    obtain ⟨m', hstep, -, hrest⟩ := instructions_cons_eq_ok h
    obtain ⟨hpush, hsize, journal, rfl⟩ := pushes_step (his i List.mem_cons_self) hexecuting hstep
    obtain ⟨hpushes, journal', rfl⟩ :=
      ih (fun j hj => his j (List.mem_cons_of_mem i hj)) hrest hexecuting
    refine ⟨?_, journal', ?_⟩
    · intro j hj
      rcases List.mem_cons.mp hj with rfl | hj
      · exact ⟨hpush, hsize⟩
      · exact hpushes j hj
    · rw [List.map_cons, List.reverse_cons, List.append_assoc]
      rfl

/-- What a script of pushes leaves on the stack. -/
theorem pushes_script (his : isPushOnly is = true) (h : Run.script r is m = .ok () after) :
    (∀ i ∈ is, i.isPush = true ∧ i.data.length ≤ r.limits.maxElementSize) ∧
      after.main = (is.map Instruction.pushValue).reverse ++ m.main := by
  obtain ⟨m', hrun, -, rfl⟩ := script_eq_ok h
  have hcodes : ∀ i ∈ is, i.code ≤ 0x60 := fun i hi =>
    of_decide_eq_true (List.all_eq_true.mp his i hi)
  obtain ⟨hpushes, journal, rfl⟩ := pushes_instructions hcodes hrun rfl
  exact ⟨hpushes, rfl⟩

/-- An element that was pushed is not longer than the limit, or has a single byte. -/
theorem length_le_of_pushes (his : isPushOnly is = true)
    (h : Run.script r is m = .ok () after) {b : Bytes} (hb : b ∈ after.main) :
    b ∈ m.main ∨ b.length ≤ max 1 r.limits.maxElementSize := by
  obtain ⟨hpushes, hmain⟩ := pushes_script his h
  rw [hmain, List.mem_append, List.mem_reverse, List.mem_map] at hb
  rcases hb with ⟨i, hi, rfl⟩ | hbelow
  · obtain ⟨-, hsize⟩ := hpushes i hi
    have hle := i.length_pushValue_le
    exact .inr (by omega)
  · exact .inl hbelow

end Run

end CoinScript
