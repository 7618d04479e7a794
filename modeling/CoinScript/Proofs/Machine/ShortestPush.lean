import CoinScript.Proofs.Machine.PushOnly
import CoinScript.Proofs.Machine.Straight
import CoinScript.Proofs.Script.Parsing

/-!
# One shortest push for each element

An element can be put on the stack by several scripts: an opcode that stands for it, and pushes under
headers of four widths.  Where shortest pushes are asked for, one of them is left.

The check for it looks at an opcode and a payload that were read, and what it leaves are the scripts
whose single instruction is `Instruction.shortest` (`eq_shortest`).  For sixteen numbers and minus one
that is an opcode alone (`Opcode.StandsFor`), which is not checked at all; the pushes of these
seventeen elements are what the check refuses.  For all other elements it is the push that is written
at the end of a script.

The header of that push is chosen by the length of the element alone.  `IsHeader` says which bytes in
front of an element make them a push of it, and `IsHeader.eq_or_length_lt` that the one that is chosen is
the shortest, with no other of its length.
-/

namespace CoinScript

/-- The opcodes that put an element of one byte on the stack by themselves: the numbers from one to
sixteen, and minus one. -/
inductive Opcode.StandsFor : Opcode → Bytes → Prop
  | small {x : UInt8} (hlow : 1 ≤ x) (hhigh : x ≤ 16) : StandsFor (0x50 + x) [x]
  | minusOne : StandsFor 0x4f [0x81]

/-- The pushes are the opcodes up to `16`, but for the reserved one. -/
theorem Operation.ofCode_eq_push_iff (op : Opcode) :
    Operation.ofCode op = .push ↔ op ≤ 0x60 ∧ op ≠ 0x50 :=
  of_decide_eq_true (Opcode.forall_of_lt
    (p := fun op => decide (Operation.ofCode op = .push ↔ op ≤ 0x60 ∧ op ≠ 0x50))
    (by decide +kernel) op)

namespace Instruction

variable {b : Bytes} {i : Instruction}

/-! ## Opcodes that stand for an element -/

theorem bareCode?_eq_some_iff {op : Opcode} :
    bareCode? b = some op ↔ (op = 0x00 ∧ b = []) ∨ op.StandsFor b := by
  constructor
  · intro h
    unfold bareCode? at h
    split at h
    · cases h
      exact .inl ⟨rfl, rfl⟩
    · split at h
      · next hsmall =>
        cases h
        exact .inr (.small hsmall.1 hsmall.2)
      · split at h
        · next hminus =>
          cases h
          rw [hminus]
          exact .inr .minusOne
        · cases h
    · cases h
  · rintro (⟨rfl, rfl⟩ | h)
    · rfl
    · cases h with
      | small hlow hhigh => exact if_pos ⟨hlow, hhigh⟩
      | minusOne => rfl

/-- What an opcode that stands for an element puts on the stack is that element. -/
theorem pushValue_of_standsFor {op : Opcode} (h : op.StandsFor b) :
    pushValue ⟨op, none⟩ = b ∧ 0x4e < op ∧ op ≤ 0x60 ∧ op ≠ 0x50 := by
  cases h with
  | @small x hlow hhigh =>
    have hminus : 0x50 + x ≠ 0x4f := by grind
    have hrange : 0x51 ≤ 0x50 + x ∧ 0x50 + x ≤ 0x60 := by grind
    have hback : 0x50 + x - 0x50 = x := by grind
    refine ⟨?_, by grind, hrange.2, by grind⟩
    rw [pushValue, if_neg hminus, if_pos hrange, hback]
  | minusOne => decide

theorem bare_of_standsFor {op : Opcode} (h : op.StandsFor b) : op.carriesData = false :=
  (Opcode.carriesData_eq_false_iff op).mpr (.inr (pushValue_of_standsFor h).2.1)

/-- A push with an opcode above the headers puts what the opcode stands for on the stack. -/
theorem standsFor_pushValue (hpush : i.operation = .push) (hbare : 0x4e < i.code) :
    i.code.StandsFor i.pushValue := by
  obtain ⟨hle, hne⟩ := (Operation.ofCode_eq_push_iff i.code).mp hpush
  by_cases hminus : i.code = 0x4f
  · rw [pushValue, if_pos hminus, hminus]
    exact .minusOne
  · have hrange : 0x51 ≤ i.code ∧ i.code ≤ 0x60 := by grind
    have hback : 0x50 + (i.code - 0x50) = i.code := by grind
    have hstands : (0x50 + (i.code - 0x50)).StandsFor [i.code - 0x50] :=
      .small (by grind) (by grind)
    rw [pushValue, if_neg hminus, if_pos hrange]
    rwa [hback] at hstands

/-- Below those, what is put on the stack is the payload. -/
theorem pushValue_of_le (h : i.code ≤ 0x4e) : i.pushValue = i.data := by
  rw [pushValue, if_neg (by grind), if_neg (by grind)]

/-! ## The shortest instruction -/

/-- The instruction that puts an element on the stack in the shortest way. -/
def shortest (b : Bytes) : Instruction :=
  match bareCode? b with
  | some op => ⟨op, none⟩
  | none => push b

theorem shortest_of_standsFor {op : Opcode} (h : op.StandsFor b) : shortest b = ⟨op, none⟩ := by
  rw [shortest, bareCode?_eq_some_iff.mpr (.inr h)]

theorem shortest_of_not_standsFor (h : ∀ op : Opcode, ¬op.StandsFor b) : shortest b = push b := by
  unfold shortest
  split
  · next op hop =>
    rcases bareCode?_eq_some_iff.mp hop with ⟨rfl, rfl⟩ | hstands
    · rfl
    · exact absurd hstands (h op)
  · rfl

/-- The shortest instruction is an opcode that stands for the element, or else the push of it. -/
theorem shortest_cases (b : Bytes) :
    (∃ op : Opcode, op.StandsFor b ∧ shortest b = ⟨op, none⟩) ∨ shortest b = push b := by
  by_cases h : ∃ op : Opcode, op.StandsFor b
  · obtain ⟨op, h⟩ := h
    exact .inl ⟨op, h, shortest_of_standsFor h⟩
  · exact .inr (shortest_of_not_standsFor (not_exists.mp h))

/-- The opcode that is asked for of a push is that of the shortest instruction. -/
theorem code_shortest (b : Bytes) : (shortest b).code = minimalCode b := by
  unfold shortest minimalCode
  cases bareCode? b <;> rfl

theorem readable_shortest (hb : b.length < UInt32.size) : (shortest b).Readable := by
  rcases shortest_cases b with ⟨op, h, heq⟩ | heq
  · rw [heq]
    exact .bare (bare_of_standsFor h)
  · rw [heq]
    exact readable_push hb

theorem pushValue_shortest (b : Bytes) : (shortest b).pushValue = b := by
  rcases shortest_cases b with ⟨op, h, heq⟩ | heq
  · rw [heq, (pushValue_of_standsFor h).1]
  · rw [heq, Run.pushValue_push]

theorem operation_shortest (b : Bytes) : (shortest b).operation = .push := by
  rcases shortest_cases b with ⟨op, h, heq⟩ | heq
  · rw [heq]
    exact (Operation.ofCode_eq_push_iff op).mpr (pushValue_of_standsFor h).2.2
  · rw [heq, Run.operation_push]

theorem isMinimal_shortest (hle : (shortest b).code ≤ 0x4e) : (shortest b).isMinimal = true := by
  rw [isMinimal, ← pushValue_of_le hle, pushValue_shortest, code_shortest]
  exact beq_self_eq_true _

/-- **The check leaves one instruction for each element.** -/
theorem eq_shortest (hi : i.Readable) (hpush : i.operation = .push)
    (hminimal : i.code ≤ 0x4e → i.isMinimal = true) (hb : i.pushValue.length < UInt32.size) :
    i = shortest i.pushValue := by
  by_cases hle : i.code ≤ 0x4e
  · have hcode : (shortest i.pushValue).code = i.code := by
      rw [code_shortest, pushValue_of_le hle]
      exact (beq_iff_eq.mp (hminimal hle)).symm
    have hdata : (shortest i.pushValue).data = i.data := by
      rw [← pushValue_of_le (by rwa [hcode]), pushValue_shortest, pushValue_of_le hle]
    exact encode_injOn hi (readable_shortest hb)
      (encode_of_parts (Prod.ext hcode.symm hdata.symm))
  · have hbare : i = ⟨i.code, none⟩ := by
      cases hi with
      | bare _ => rfl
      | direct h _ _ => exact absurd (Opcode.le_of_carriesData h) hle
      | counted hw _ =>
        exact absurd (Opcode.le_of_carriesData (Opcode.carriesData_of_lengthWidth hw)) hle
    rw [shortest_of_standsFor (standsFor_pushValue hpush (UInt8.not_le.mp hle))]
    exact hbare

end Instruction

/-! ## The machine -/

namespace Run

variable {r : Rules} {m : Machine} {e : Script} {b : Bytes}

/-- The script is a single instruction, and the machine executes it as a push of the element: it is
one of the pushes, passes the checks of what is executed and puts the element on the stack. -/
def PutsAlone (r : Rules) (m : Machine) (e : Script) (b : Bytes) : Prop :=
  ∃ i, parse e m = .ok [i] m ∧ i.operation = .push ∧ checkExecuted r i m = .ok () m ∧
    perform r [i] 0 true i m = .ok () { m with main := b :: m.main }

/-- A push is executed without looking at the stack below. -/
theorem checkExecuted_push_eq_ok_iff {i : Instruction} (hpush : i.operation = .push) :
    checkExecuted r i m = .ok () m ↔
      (r.flags.has .minimalData = true → i.code ≤ 0x4e → i.isMinimal = true) := by
  constructor
  · intro h
    exact (checkExecuted_eq_ok h).1
  · intro h
    have hminimal : (!(r.flags.has .minimalData && decide (i.code ≤ 0x4e)) || i.isMinimal) = true := by
      by_cases hflag : r.flags.has .minimalData = true
      · by_cases hle : i.code ≤ 0x4e
        · rw [h hflag hle, Bool.or_true]
        · rw [decide_eq_false hle, Bool.and_false]
          rfl
      · rw [Bool.not_eq_true _ |>.mp hflag]
        rfl
    unfold checkExecuted
    rw [require_bind_of_true hminimal, hpush]
    rfl

theorem perform_push {i : Instruction} (hpush : i.operation = .push) :
    perform r [i] 0 true i m = .ok () { m with main := i.pushValue :: m.main } := by
  unfold perform
  rw [hpush]
  rfl

/-- **Where shortest pushes are asked for, one script puts an element on the stack.** -/
theorem putsAlone_iff (hr : r.flags.has .minimalData = true) (hb : b.length < UInt32.size) :
    PutsAlone r m e b ↔ e = (Instruction.shortest b).encode := by
  constructor
  · rintro ⟨i, hparse, hpush, hcheck, hperform⟩
    obtain ⟨hcarries, hencode⟩ := Script.decode_eq_ok_iff.mp (parse_eq_ok_iff.mp hparse).1
    have hi : i.Readable := Instruction.readable_iff.mpr (hcarries i List.mem_cons_self)
    have hminimal := (checkExecuted_push_eq_ok_iff hpush).mp hcheck hr
    obtain rfl : i.pushValue = b := by
      rw [perform_push hpush] at hperform
      injection hperform with _ hmachine
      exact List.head_eq_of_cons_eq (congrArg Machine.main hmachine)
    rw [← Instruction.eq_shortest hi hpush hminimal hb, ← hencode]
    exact List.append_nil _
  · rintro rfl
    have hpush := Instruction.operation_shortest b
    refine ⟨Instruction.shortest b, parse_eq_ok_iff.mpr ⟨Script.decode_eq_ok_iff.mpr ⟨?_, ?_⟩, rfl⟩,
      hpush, (checkExecuted_push_eq_ok_iff hpush).mpr fun _ => Instruction.isMinimal_shortest, ?_⟩
    · intro i hi
      obtain rfl := List.mem_singleton.mp hi
      exact Instruction.readable_iff.mp (Instruction.readable_shortest hb)
    · exact List.append_nil _
    · rw [perform_push hpush, Instruction.pushValue_shortest]

end Run

/-! ## Headers -/

/-- Among the opcodes that can announce a payload, the one that is chosen for its length is the only
one with a length of so few bytes. -/
theorem Opcode.eq_forPush_or_lengthWidth_lt {op : Opcode} {payload : Option Bytes} (hle : op ≤ 0x4e)
    (h : op.Carries payload) :
    op = forPush (payload.getD []).length ∨
      lengthWidth (forPush (payload.getD []).length) < op.lengthWidth := by
  cases payload with
  | none =>
    rcases h with rfl | hlt
    · exact .inl rfl
    · exact absurd hlt (UInt8.not_lt.mpr hle)
  | some b =>
    rw [Option.getD_some]
    rcases h with ⟨hlow, hhigh, hb⟩ | ⟨rfl, hb⟩ | ⟨rfl, hb⟩ | ⟨rfl, hb⟩
    · have hshort : b.length ≤ 75 := by
        rw [hb]
        exact UInt8.le_iff_toNat_le.mp hhigh
      rw [forPush, if_pos hshort, hb, UInt8.ofNat_toNat]
      exact .inl rfl
    all_goals
      rcases forPush_cases b.length with ⟨-, -, hw⟩ | ⟨-, hlt, hop⟩ | ⟨hge, hlt, hop⟩ | ⟨hge, hop⟩
    · exact .inr (by rw [hw]; decide)
    · exact .inl hop.symm
    · omega
    · omega
    · exact .inr (by rw [hw]; decide)
    · exact .inr (by rw [hop]; decide)
    · exact .inl hop.symm
    · omega
    · exact .inr (by rw [hw]; decide)
    · exact .inr (by rw [hop]; decide)
    · exact .inr (by rw [hop]; decide)
    · exact .inl hop.symm

namespace Script

variable {b header : Bytes}

/-- In front of the element the bytes make one push of it, under a header of any width. -/
def IsHeader (header b : Bytes) : Prop :=
  ∃ i, decode (header ++ b) = .ok [i] ∧ i.code ≤ 0x4e ∧ i.data = b

/-- A header is an opcode with as many bytes of length as the opcode asks for. -/
theorem IsHeader.exists_eq (h : IsHeader header b) :
    ∃ (op : Opcode) (payload : Option Bytes), op ≤ 0x4e ∧ op.Carries payload ∧ payload.getD [] = b ∧
      header = op :: Bytes.ofNatLE op.lengthWidth b.length := by
  obtain ⟨i, hdecode, hle, hdata⟩ := h
  obtain ⟨hcarries, hencode⟩ := decode_eq_ok_iff.mp hdecode
  refine ⟨i.code, i.payload, hle, hcarries i List.mem_cons_self, hdata, ?_⟩
  rw [encode_cons, encode_nil, List.append_nil, Instruction.encode, if_pos hle, hdata,
    ← List.cons_append] at hencode
  exact (List.append_cancel_right hencode).symm

/-- **The header that is chosen is the shortest**, and the only one of its length. -/
theorem IsHeader.eq_or_length_lt (h : IsHeader header b) {chosen : Bytes}
    (hchosen : pushHeader b.length = .ok chosen) :
    header = chosen ∨ chosen.length < header.length := by
  obtain ⟨op, payload, hle, hcarries, rfl, rfl⟩ := h.exists_eq
  have hsize : (payload.getD []).length < UInt32.size := by
    by_contra hlong
    rw [pushHeader_of_le (Nat.not_lt.mp hlong)] at hchosen
    cases hchosen
  rw [pushHeader_eq hsize] at hchosen
  obtain rfl := Except.ok.inj hchosen
  rcases Opcode.eq_forPush_or_lengthWidth_lt hle hcarries with heq | hlt
  · rw [← heq]
    exact .inl rfl
  · rw [List.length_cons, List.length_cons, Bytes.length_ofNatLE, Bytes.length_ofNatLE]
    exact .inr (Nat.succ_lt_succ hlt)

/-- The push that is written at the end of a script reads as one instruction. -/
theorem decode_encode_push (hb : b.length < UInt32.size) :
    decode (Instruction.push b).encode = .ok [.push b] := by
  refine decode_eq_ok_iff.mpr ⟨fun i hi => ?_, List.append_nil _⟩
  obtain rfl := List.mem_singleton.mp hi
  exact Instruction.readable_iff.mp (Instruction.readable_push hb)

theorem appendPush_eq (hb : b.length < UInt32.size) (s : Script) :
    appendPush s b = .ok (s ++ (Instruction.push b).encode) := by
  rw [appendPush, pushed_eq hb]

end Script

/-! ## The statement -/

/-- **Every element has one shortest push.**  Where shortest pushes are asked for, one script is read
as a single push, passes the check and puts the element on the stack.  For the numbers from one to
sixteen and for minus one it is an opcode; for any other element it is what is written at the end of a
script to push it.  The header that is written is the only one of its length that makes a push of the
element, the others are longer, and with the element it is read back as one push of it. -/
theorem shortest_push_exact (b : Bytes) (hb : b.length ≤ 2 ^ 32 - 1) :
    (∃ e, (∀ (r : Rules) (m : Machine), r.flags.has .minimalData = true →
        ∀ e', Run.PutsAlone r m e' b ↔ e' = e) ∧
      (∀ op : Opcode, op.StandsFor b → e = [op]) ∧
      ((∀ op : Opcode, ¬op.StandsFor b) → ∀ s, Script.appendPush s b = .ok (s ++ e))) ∧
    ∃ header, (∀ s, Script.appendPush s b = .ok (s ++ (header ++ b))) ∧ Script.IsHeader header b ∧
      ∀ other, Script.IsHeader other b → other = header ∨ header.length < other.length := by
  have hsize : b.length < UInt32.size := Nat.lt_of_le_of_lt hb (by decide)
  constructor
  · refine ⟨(Instruction.shortest b).encode, fun r m hr e' => Run.putsAlone_iff hr hsize,
      fun op hop => ?_, fun hnone s => ?_⟩
    · rw [Instruction.shortest_of_standsFor hop]
      exact Instruction.encode_bare (Instruction.bare_of_standsFor hop)
    · rw [Instruction.shortest_of_not_standsFor hnone, Script.appendPush_eq hsize]
  · have hle : (Instruction.push b).code ≤ 0x4e := Opcode.forPush_le b.length
    have hencode : (Instruction.push b).encode = (Opcode.forPush b.length ::
        Bytes.ofNatLE (Opcode.lengthWidth (.forPush b.length)) b.length) ++ b := by
      rw [Instruction.encode, if_pos hle, Instruction.data_push, Instruction.code_push,
        List.cons_append]
    have hread := Script.decode_encode_push hsize
    rw [hencode] at hread
    refine ⟨_, fun s => ?_, ⟨_, hread, hle, Instruction.data_push b⟩, fun other hother =>
      hother.eq_or_length_lt (Script.pushHeader_eq hsize)⟩
    rw [Script.appendPush_eq hsize, hencode]

namespace Sixteen

/-- Shortest pushes are asked for, among the rest that is asked for of what is relayed. -/
def rules : Rules := ⟨.consensus, .standard, .secp256k1, none, 0⟩

/-- The number sixteen is put on the stack by its opcode, and not by a push of one byte; an element of
76 bytes is pushed under a header of two bytes, and all others are longer. -/
theorem shortest_push_sixteen :
    rules.flags.has .minimalData = true ∧
    (∀ m e, Run.PutsAlone rules m e [0x10] ↔ e = [0x60]) ∧
    (∀ m, ¬Run.PutsAlone rules m [0x01, 0x10] [0x10]) ∧
    ∀ other, Script.IsHeader other (List.replicate 76 0x00) →
      other = [0x4c, 0x4c] ∨ 2 < other.length := by
  have hflag : rules.flags.has .minimalData = true := by decide
  obtain ⟨⟨e, hputs, hstands, -⟩, -⟩ := shortest_push_exact [0x10] (by decide)
  obtain rfl : e = [0x60] := hstands (0x50 + 0x10) (.small (by decide) (by decide))
  refine ⟨hflag, fun m => hputs rules m hflag, fun m hpush => ?_, ?_⟩
  · exact absurd ((hputs rules m hflag _).mp hpush) (by decide)
  · obtain ⟨-, header, happend, -, hshortest⟩ := shortest_push_exact (List.replicate 76 0x00)
      (by decide)
    have hpushed : Script.appendPush [] (List.replicate 76 0x00) =
        .ok ([0x4c, 0x4c] ++ List.replicate 76 0x00) := rfl
    have hsame : header ++ List.replicate 76 0x00 = [0x4c, 0x4c] ++ List.replicate 76 0x00 :=
      Except.ok.inj ((happend []).symm.trans hpushed)
    obtain rfl := List.append_cancel_right hsame
    exact hshortest

end Sixteen

end CoinScript
