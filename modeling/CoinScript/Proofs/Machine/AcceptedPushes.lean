import CoinScript.Proofs.Machine.Places
import CoinScript.Proofs.Machine.PushOnly
import CoinScript.Proofs.Machine.ShortestPush

/-!
# Unlocking scripts of pushes

There are two notions of a script that holds pushes only.  A run asks whether the opcodes are at
most that of `16`, which lets the reserved opcode `0x50` through (`Run.isPushOnly`); the reader of
scripts asks whether every instruction is a push (`Script.isPushOnly`).

The reserved opcode fails wherever it is executed, and where there are only pushes everything is
executed.  So of an accepted spend the unlocking script holds pushes by both notions or by neither
(`isPushOnly_eq_of_execute_ok`).  If it does, what its run has done so far is known at every
instruction: the elements of the pushes before it have been put on an empty stack, and nothing else
has happened (`Run.reaches_of_pushes`).  What the locking script finds is the case of the end.
-/

namespace CoinScript

/-- The element that a push stands for: its payload, or the number that its opcode names. -/
def Instruction.element (i : Instruction) : Bytes :=
  if i.code ≤ 0x4e then i.data else Number.encode ((i.code.toNat : Int) - 0x50)

theorem Instruction.pushValue_eq_element {i : Instruction} (h : i.isPush = true) :
    i.pushValue = i.element := by
  obtain ⟨hle, hne⟩ := of_decide_eq_true h
  unfold element
  by_cases hdata : i.code ≤ 0x4e
  · rw [if_pos hdata, pushValue_of_le hdata]
  · have hbare : i.pushValue = pushValue ⟨i.code, none⟩ := by
      unfold pushValue
      by_cases hminus : i.code = 0x4f
      · rw [if_pos hminus, if_pos hminus]
      · rw [if_neg hminus, if_neg hminus, if_pos (by grind), if_pos (by grind)]
    have hnumbers : ∀ op : Opcode, decide (¬op ≤ 0x4e → op ≤ 0x60 → op ≠ 0x50 →
        pushValue ⟨op, none⟩ = Number.encode ((op.toNat : Int) - 0x50)) = true :=
      Opcode.forall_of_lt (by decide +kernel)
    rw [if_neg hdata, hbare]
    exact of_decide_eq_true (hnumbers i.code) hdata hle hne

namespace Run

variable {r : Rules} {first m after : Machine} {is : List Instruction} {offset : Nat}

/-- The notion of a run is wider by the reserved opcode. -/
theorem isPushOnly_iff :
    isPushOnly is = true ↔ ∀ i ∈ is, i.isPush = true ∨ i.code = 0x50 := by
  have hone : ∀ op : Opcode, op ≤ 0x60 ↔ (op ≤ 0x60 ∧ op ≠ 0x50) ∨ op = 0x50 := by grind
  simp only [isPushOnly, Instruction.isPush, List.all_eq_true, decide_eq_true_eq]
  exact forall₂_congr fun i _ => hone i.code

/-- **What pushes have done before an instruction**, by induction on the places of the run. -/
theorem reaches_of_pushes (his : isPushOnly is = true) (h : Reaches r is first offset m) :
    ∃ journal, m = { first.afresh with
      main := ((is.take offset).map Instruction.pushValue).reverse ++ first.main, journal } := by
  induction h with
  | start => exact ⟨first.journal, rfl⟩
  | @next offset m m' i _ hi hstep _ ih =>
    obtain ⟨journal, rfl⟩ := ih
    have hcode : i.code ≤ 0x60 :=
      of_decide_eq_true (List.all_eq_true.mp his i (List.mem_of_getElem? hi))
    obtain ⟨-, -, journal', rfl⟩ := pushes_step hcode rfl hstep
    obtain ⟨hlt, rfl⟩ := List.getElem?_eq_some_iff.mp hi
    refine ⟨journal', ?_⟩
    rw [List.take_succ_eq_append_getElem hlt, List.map_append, List.reverse_append]
    rfl

/-- What a run of pushes leaves, if it succeeds. -/
theorem script_of_pushes (his : isPushOnly is = true) (h : Run.script r is m = .ok () after) :
    (∀ i ∈ is, i.isPush = true) ∧ ∃ journal, after = { m.afresh with
      main := (is.map Instruction.pushValue).reverse ++ m.main, alt := [], journal } := by
  obtain ⟨m', hrun, -, rfl⟩ := script_eq_ok h
  have hcodes : ∀ i ∈ is, i.code ≤ 0x60 := fun i hi =>
    of_decide_eq_true (List.all_eq_true.mp his i hi)
  obtain ⟨hpushes, journal, rfl⟩ := pushes_instructions hcodes hrun rfl
  exact ⟨fun i hi => (hpushes i hi).1, journal, rfl⟩

end Run

variable {r : Rules} {unlocking locking : Script}

/-- **On accepted spends the two notions agree.** -/
theorem isPushOnly_eq_of_execute_ok (h : (execute r unlocking locking).verdict = .ok ()) :
    Script.isPushOnly unlocking = Run.isPushOnly (Script.scan unlocking).1 := by
  obtain ⟨e, after, -, hspend⟩ := execute_ok_iff.mp h
  obtain ⟨opened, locked, path⟩ := Run.spend_eq_ok hspend
  have htail : decide ((Script.scan unlocking).2 = []) = true := decide_eq_true path.unlocking_tail
  unfold Script.isPushOnly
  rw [htail, Bool.true_and, Bool.eq_iff_iff]
  constructor
  · intro hpushes
    exact Run.isPushOnly_iff.mpr fun i hi => .inl (List.all_eq_true.mp hpushes i hi)
  · intro his
    exact List.all_eq_true.mpr (Run.script_of_pushes his path.unlocks).1

/-- **The unlocking script of an accepted spend, where pushes are asked for.**  The two notions
agree on every accepted spend, although that of a run admits the reserved opcode.  Where pushes are
asked for, by the flag or because the lock names the hash of a script, the unlocking script holds
pushes and no reserved opcode.  The locking script finds the elements that were pushed, the last on
top, and apart from them and the journal the first machine; and so it was at every instruction on
the way. -/
theorem accepted_pushes (r : Rules) (unlocking locking : Script)
    (h : (execute r unlocking locking).verdict = .ok ()) :
    (∀ is, Run.isPushOnly is = true ↔ ∀ i ∈ is, i.isPush = true ∨ i.code = 0x50) ∧
    Script.isPushOnly unlocking = Run.isPushOnly (Script.scan unlocking).1 ∧
    (r.flags.has .pushOnly = true ∨
        r.flags.has .payToScriptHash = true ∧ Script.isPayToScriptHash locking = true →
      Script.isPushOnly unlocking = true ∧
      (∀ i ∈ (Script.scan unlocking).1, i.code ≠ 0x50) ∧
      ∃ e opened locked, r.effective = .ok e ∧
        Run.script e (Script.scan unlocking).1 (.begun r unlocking locking) = .ok () opened ∧
        Run.script e (Script.scan locking).1 opened = .ok () locked ∧
        (∃ journal, opened = { Machine.start with
          main := ((Script.scan unlocking).1.map Instruction.element).reverse, journal }) ∧
        ∀ offset m,
          Run.Reaches e (Script.scan unlocking).1 (.begun r unlocking locking) offset m →
          ∃ journal, m = { Machine.start with
            main := (((Script.scan unlocking).1.take offset).map Instruction.element).reverse,
            journal }) := by
  refine ⟨fun is => Run.isPushOnly_iff, isPushOnly_eq_of_execute_ok h, fun hasked => ?_⟩
  have hagree := isPushOnly_eq_of_execute_ok h
  obtain ⟨e, after, he, hspend⟩ := execute_ok_iff.mp h
  obtain ⟨opened, locked, path⟩ := Run.spend_eq_ok hspend
  have his : Run.isPushOnly (Script.scan unlocking).1 = true := by
    refine path.pushOnly ?_
    unfold Run.byScriptHash
    rwa [Rules.has_eq_of_effective he (by decide), Rules.has_eq_of_effective he (by decide),
      Bool.and_eq_true]
  obtain ⟨hpushes, journal, hopened⟩ := Run.script_of_pushes his path.unlocks
  have helements : ∀ is : List Instruction, (∀ i ∈ is, i.isPush = true) →
      is.map Instruction.pushValue = is.map Instruction.element := fun is his =>
    List.map_congr_left fun i hi => Instruction.pushValue_eq_element (his i hi)
  refine ⟨hagree.trans his, fun i hi => (of_decide_eq_true (hpushes i hi)).2, e, opened, locked, he,
    path.unlocks, path.locks, ⟨journal, ?_⟩, fun offset m hreaches => ?_⟩
  · rw [hopened, helements _ hpushes]
    exact congrArg (fun main => { Machine.start with main, journal }) (List.append_nil _)
  · obtain ⟨journal', hm⟩ := Run.reaches_of_pushes his hreaches
    refine ⟨journal', ?_⟩
    rw [hm, helements _ fun i hi => hpushes i (List.mem_of_mem_take hi)]
    exact congrArg (fun main => { Machine.start with main, journal := journal' })
      (List.append_nil _)

/-- A lock by script hash is opened by the script `1`, and finds it on the stack. -/
theorem accepted_pushes_scriptHash :
    let r : Rules := ⟨.consensus, .standard, .secp256k1, none, 0⟩
    let locking := Script.payToScriptHash (hash160 [0x51])
    (execute r [1, 0x51] locking).verdict = .ok () ∧ Script.isPushOnly [1, 0x51] = true ∧
    ∃ e opened, r.effective = .ok e ∧
      Run.script e (Script.scan [1, 0x51]).1 (.begun r [1, 0x51] locking) = .ok () opened ∧
      opened.main = [[0x51]] := by
  intro r locking
  have hok : (execute r [1, 0x51] locking).verdict = .ok () := by decide +kernel
  obtain ⟨-, -, hpushes⟩ := accepted_pushes r [1, 0x51] locking hok
  obtain ⟨hpushOnly, -, e, opened, locked, he, hunlocks, -, ⟨journal, hopened⟩, -⟩ :=
    hpushes (.inr ⟨by decide, by decide +kernel⟩)
  have hvalues : ((Script.scan [1, 0x51]).1.map Instruction.element).reverse = [[0x51]] := by
    decide +kernel
  refine ⟨hok, hpushOnly, e, opened, he, hunlocks, ?_⟩
  rw [hopened, ← hvalues]

end CoinScript
