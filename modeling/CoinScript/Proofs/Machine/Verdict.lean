import CoinScript.Machine.Execute

/-!
# Verdicts

`execute` gives its verdict on a spend from the rules that are in force (`Rules.effective`) and from
a run that starts with an empty machine and the first event in the journal.  Here the verdict is
tied to that run: `execute_ok_iff` says when a spend is accepted, `verdict_of_effective` which
verdict there is, and `effective_eq_ok_iff` which rules are in force.
-/

namespace CoinScript

namespace Flag

theorem all_bit (x : Flag) : Flag.all[x.bit]? = some x := by cases x <;> rfl

theorem bit_lt (x : Flag) : x.bit < 32 := by cases x <;> decide

theorem bit_inj {x y : Flag} (h : x.bit = y.bit) : x = y := by
  have hx := all_bit x
  rw [h, all_bit y] at hx
  exact (Option.some.inj hx).symm

end Flag

namespace Flags

/-- A flag is set after another was added if it is that one or was set before. -/
theorem has_insert (f : Flags) (x y : Flag) :
    (f.insert y).has x = (f.has x || decide (x = y)) := by
  have hbit : (1 <<< y.bit : BitVec 32).getLsbD x.bit = decide (x = y) := by
    show (1#32 <<< y.bit).getLsbD x.bit = _
    rw [← BitVec.twoPow_eq, BitVec.getLsbD_twoPow]
    have hiff : y.bit = x.bit ↔ x = y := ⟨fun h => Flag.bit_inj h.symm, fun h => by rw [h]⟩
    simp [Flag.bit_lt, hiff]
  unfold has insert
  rw [BitVec.getLsbD_or, hbit]

/-- The flags can be run under: a clean stack is asked for only together with locks by script
hash. -/
def Accepted (f : Flags) : Prop := f.has .cleanStack = true → f.has .payToScriptHash = true

instance (f : Flags) : Decidable f.Accepted := by
  unfold Accepted
  infer_instance

theorem has_of_includes {f g : Flags} (h : f.includes g = true) {x : Flag}
    (hx : g.has x = true) : f.has x = true := by
  have hword : f.word &&& g.word = g.word := by simpa [includes] using h
  unfold has at hx ⊢
  rw [← hword, BitVec.getLsbD_and, Bool.and_eq_true] at hx
  exact hx.1

end Flags

namespace Rules

/-- The flags in force. -/
def effectiveFlags (f : Flags) : Flags := if f.has .forkId then f.insert .strictEncoding else f

theorem has_effectiveFlags (f : Flags) (x : Flag) :
    (effectiveFlags f).has x = (f.has x || (f.has .forkId && decide (x = .strictEncoding))) := by
  unfold effectiveFlags
  split
  · next h => rw [Flags.has_insert, h, Bool.true_and]
  · next h => simp [h]

/-- Rules are refused only for asking for a clean stack without locks by script hash. -/
theorem effective_eq_ok_iff {r e : Rules} :
    r.effective = .ok e ↔ e = { r with flags := effectiveFlags r.flags } ∧
      (r.flags.has .cleanStack = true → r.flags.has .payToScriptHash = true) := by
  have hclean := has_effectiveFlags r.flags .cleanStack
  have hhash := has_effectiveFlags r.flags .payToScriptHash
  simp only [reduceCtorEq, decide_false, Bool.and_false, Bool.or_false] at hclean hhash
  show (if (effectiveFlags r.flags).has .cleanStack &&
      !(effectiveFlags r.flags).has .payToScriptHash
    then (.error .cleanStackWithoutScriptHash : Except Fault Rules)
    else .ok { r with flags := effectiveFlags r.flags }) = .ok e ↔ _
  rw [hclean, hhash]
  cases r.flags.has .cleanStack <;> cases r.flags.has .payToScriptHash <;> simp [eq_comm]

theorem accepted_iff {r : Rules} : r.flags.Accepted ↔ ∃ e, r.effective = .ok e := by
  simp only [effective_eq_ok_iff, Flags.Accepted, exists_and_right, exists_eq, true_and]

theorem limits_of_effective {r e : Rules} (h : r.effective = .ok e) : e.limits = r.limits := by
  obtain ⟨rfl, -⟩ := effective_eq_ok_iff.mp h
  rfl

/-- Only strict encodings are added to the flags that were asked for. -/
theorem has_eq_of_effective {r e : Rules} (h : r.effective = .ok e) {x : Flag}
    (hx : x ≠ .strictEncoding) : e.flags.has x = r.flags.has x := by
  obtain ⟨rfl, -⟩ := effective_eq_ok_iff.mp h
  rw [has_effectiveFlags, decide_eq_false hx, Bool.and_false, Bool.or_false]

/-- The digest with the amount is in use in a run exactly if it is asked for. -/
theorem has_forkId_of_effective {r e : Rules} (h : r.effective = .ok e) :
    e.flags.has .forkId = r.flags.has .forkId :=
  has_eq_of_effective h (by decide)

/-- The digest with the amount comes with strict encodings. -/
theorem has_strictEncoding_of_effective {r e : Rules} (h : r.effective = .ok e)
    (hforkId : r.flags.has .forkId = true) : e.flags.has .strictEncoding = true := by
  obtain ⟨rfl, -⟩ := effective_eq_ok_iff.mp h
  simp [has_effectiveFlags, hforkId]

theorem effective_eq_error {r : Rules} {fault : Fault} (h : r.effective = .error fault) :
    fault = .cleanStackWithoutScriptHash := by
  change (if (effectiveFlags r.flags).has .cleanStack &&
      !(effectiveFlags r.flags).has .payToScriptHash
    then (.error .cleanStackWithoutScriptHash : Except Fault Rules)
    else .ok { r with flags := effectiveFlags r.flags }) = .error fault at h
  split at h
  · cases h
    rfl
  · cases h

theorem effective_eq_error_iff {r : Rules} {fault : Fault} :
    r.effective = .error fault ↔ ¬r.flags.Accepted ∧ fault = .cleanStackWithoutScriptHash := by
  constructor
  · intro h
    refine ⟨fun haccepted => ?_, effective_eq_error h⟩
    obtain ⟨e, he⟩ := accepted_iff.mp haccepted
    rw [h] at he
    cases he
  · rintro ⟨hrefused, rfl⟩
    cases h : r.effective with
    | ok e => exact absurd (accepted_iff.mpr ⟨e, h⟩) hrefused
    | error fault => rw [effective_eq_error h]

end Rules

/-- Whether a spend is accepted can be computed. -/
instance (v : Except Fault Unit) : Decidable (v = .ok ()) :=
  decidable_of_iff (v.toBool = true) (by cases v <;> simp [Except.toBool])

/-- Whether a spend is refused with a given fault can be computed. -/
instance (v : Except Fault Unit) (fault : Fault) : Decidable (v = .error fault) :=
  match v with
  | .ok () => isFalse (by simp)
  | .error found => decidable_of_iff (found = fault) (by simp)

/-- The machine in which a spend begins. -/
def Machine.begun (r : Rules) (unlocking locking : Script) : Machine :=
  { Machine.start with journal :=
    ⟨[.started r.input unlocking.length locking.length r.flags.word.toNat], []⟩ }

/-- **When a spend is accepted**: the rules are, and the run succeeds. -/
theorem execute_ok_iff {r : Rules} {unlocking locking : Script} :
    (execute r unlocking locking).verdict = .ok () ↔
      ∃ e after, r.effective = .ok e ∧
        Run.spend e unlocking locking (Machine.begun r unlocking locking) = .ok () after := by
  show (runSpend r unlocking locking (Machine.begun r unlocking locking)).verdict = .ok () ↔ _
  unfold runSpend
  cases r.effective with
  | error fault => simp
  | ok e =>
    cases hrun : Run.spend e unlocking locking (Machine.begun r unlocking locking) with
    | ok u after => simp [hrun]
    | error fault after => simp [hrun]

/-- The verdict that goes with the result of a run. -/
def verdictOf : EStateM.Result Fault Machine Unit → Except Fault Unit
  | .ok () _ => .ok ()
  | .error fault _ => .error fault

theorem verdict_of_effective {r e : Rules} (he : r.effective = .ok e) (unlocking locking : Script) :
    (execute r unlocking locking).verdict =
      verdictOf (Run.spend e unlocking locking (Machine.begun r unlocking locking)) := by
  show (runSpend r unlocking locking (Machine.begun r unlocking locking)).verdict = _
  unfold runSpend
  rw [he]
  dsimp only
  cases Run.spend e unlocking locking (Machine.begun r unlocking locking) <;> rfl

theorem verdict_of_effective_error {r : Rules} {fault : Fault} (he : r.effective = .error fault)
    (unlocking locking : Script) : (execute r unlocking locking).verdict = .error fault := by
  show (runSpend r unlocking locking (Machine.begun r unlocking locking)).verdict = _
  unfold runSpend
  rw [he]

end CoinScript
