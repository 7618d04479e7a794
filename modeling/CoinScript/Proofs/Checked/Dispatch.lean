import CoinScript.Proofs.Checked.Signatures

/-!
# One instruction on words and arrays

What is known of an opcode stands in a table with one entry for each byte: the family that it belongs
to, its gate, and the number of elements that it finds.  The table is made from a list of ranges
(`rows`), of which the first that has the opcode counts; an opcode in none of them is invalid.

That the families have an arm for every opcode that the table sends to them is a fact about two lists
that are written down apart from each other (`routed_eq_true`).  It is what keeps a run from the crash
of `handle`.
-/

namespace CoinScript.Checked

/-- The families of operations. -/
inductive Category
  | push
  | flow
  | stack
  | splice
  | bitwise
  | arithmetic
  | crypto
  | lockTime
  | nop
  | reserved
  | disabled
  | invalid
deriving DecidableEq, Repr

/-- What is known of an opcode. -/
structure OpcodeInfo where
  category : Category
  gate : Gate
  /-- Number of elements that it finds on the main stack. -/
  arity : Nat
deriving DecidableEq, Repr

/-! ## The table -/

/-- What is known of the opcodes in some ranges. -/
def rows : List (List (Opcode × Opcode) × OpcodeInfo) :=
  [([(0x00, 0x4f), (0x51, 0x60)], ⟨.push, .always, 0⟩),
    ([(0x50, 0x50), (0x62, 0x62), (0x89, 0x89), (0x8a, 0x8a)], ⟨.reserved, .always, 0⟩),
    ([(0x65, 0x65), (0x66, 0x66)], ⟨.reserved, .never, 0⟩),
    ([(0x61, 0x61), (0xb0, 0xb0), (0xb3, 0xb9)], ⟨.nop, .always, 0⟩),
    ([(0x63, 0x63), (0x64, 0x64), (0x69, 0x69)], ⟨.flow, .always, 1⟩),
    ([(0x67, 0x67), (0x68, 0x68), (0x6a, 0x6a)], ⟨.flow, .always, 0⟩),
    ([(0x6c, 0x6c), (0x74, 0x74)], ⟨.stack, .always, 0⟩),
    ([(0x6b, 0x6b), (0x73, 0x73), (0x75, 0x75), (0x76, 0x76), (0x79, 0x79), (0x7a, 0x7a)],
      ⟨.stack, .always, 1⟩),
    ([(0x6d, 0x6d), (0x6e, 0x6e), (0x77, 0x77), (0x78, 0x78), (0x7c, 0x7c), (0x7d, 0x7d)],
      ⟨.stack, .always, 2⟩),
    ([(0x6f, 0x6f), (0x7b, 0x7b)], ⟨.stack, .always, 3⟩),
    ([(0x70, 0x70), (0x72, 0x72)], ⟨.stack, .always, 4⟩),
    ([(0x71, 0x71)], ⟨.stack, .always, 6⟩),
    ([(0x7e, 0x7e), (0x7f, 0x7f), (0x80, 0x80)], ⟨.splice, .extendedA, 2⟩),
    ([(0x81, 0x81)], ⟨.splice, .extendedA, 1⟩),
    ([(0x82, 0x82)], ⟨.splice, .always, 1⟩),
    ([(0x83, 0x83)], ⟨.bitwise, .extendedB, 1⟩),
    ([(0x84, 0x84), (0x85, 0x85), (0x86, 0x86)], ⟨.bitwise, .extendedA, 2⟩),
    ([(0x87, 0x87), (0x88, 0x88)], ⟨.bitwise, .always, 2⟩),
    ([(0x8d, 0x8d), (0x8e, 0x8e)], ⟨.disabled, .never, 1⟩),
    ([(0x8b, 0x8b), (0x8c, 0x8c), (0x8f, 0x8f), (0x90, 0x90), (0x91, 0x91), (0x92, 0x92)],
      ⟨.arithmetic, .always, 1⟩),
    ([(0x95, 0x95), (0x98, 0x98), (0x99, 0x99)], ⟨.arithmetic, .extendedB, 2⟩),
    ([(0x96, 0x96), (0x97, 0x97)], ⟨.arithmetic, .extendedA, 2⟩),
    ([(0x93, 0x93), (0x94, 0x94), (0x9a, 0xa4)], ⟨.arithmetic, .always, 2⟩),
    ([(0xa5, 0xa5)], ⟨.arithmetic, .always, 3⟩),
    ([(0xa6, 0xaa)], ⟨.crypto, .always, 1⟩),
    ([(0xab, 0xab)], ⟨.crypto, .always, 0⟩),
    ([(0xac, 0xac), (0xad, 0xad)], ⟨.crypto, .always, 2⟩),
    ([(0xae, 0xae), (0xaf, 0xaf)], ⟨.crypto, .always, 1⟩),
    ([(0xb1, 0xb1), (0xb2, 0xb2)], ⟨.lockTime, .always, 0⟩)]

/-- What is known of an opcode, from the first row that has it. -/
def info (op : Opcode) : OpcodeInfo :=
  match rows.find? fun row => row.1.any fun range => decide (range.1 ≤ op ∧ op ≤ range.2) with
  | some row => row.2
  | none => ⟨.invalid, .always, 0⟩

/-- One entry for each byte. -/
def table : List OpcodeInfo := (List.range 256).map fun i => info (UInt8.ofNat i)

/-- The family of an operation. -/
def Category.of : Operation → Category
  | .push => push
  | .flow _ => flow
  | .stack _ => stack
  | .splice _ => splice
  | .bitwise _ => bitwise
  | .arithmetic _ => arithmetic
  | .crypto _ => crypto
  | .lockTime _ => lockTime
  | .nop _ => nop
  | .reserved _ => reserved
  | .disabled => disabled
  | .invalid => invalid

/-- The rows say what the program knows of an opcode. -/
theorem info_eq (op : Opcode) :
    info op = ⟨.of (.ofCode op), (Operation.ofCode op).gate, (Operation.ofCode op).arity⟩ :=
  Bytes.forall_byte (p := fun op => info op =
    ⟨.of (.ofCode op), (Operation.ofCode op).gate, (Operation.ofCode op).arity⟩)
    (by decide +kernel) op

/-- **Every byte has an entry.** -/
theorem index_table (op : Opcode) :
    (index table op.toNat : Checked Fault OpcodeInfo) = .ok (info op) := by
  refine index_of_getElem? ?_
  rw [table, List.getElem?_map, List.getElem?_range op.toNat_lt, Option.map_some, UInt8.ofNat_toNat]

/-! ## Pushes -/

/-- The opcode that alone puts the byte string on the stack, if there is one. -/
def bareCode : Bytes → Checked Fault (Option Opcode)
  | [] => return some 0x00
  | [v] => do
    if 1 ≤ v ∧ v ≤ 16 then return some (← subByte (← addByte 0x51 v) 1)
    else if v = 0x81 then return some 0x4f
    else return none
  | _ => return none

/-- A push does so in the shortest way. -/
def isMinimal (i : Instruction) : Checked Fault Bool := do
  match ← bareCode i.data with
  | some op => return i.code == op
  | none => return i.code == .forPush i.data.length

/-- What a push puts on the stack: a small number, or the payload. -/
def pushValue (i : Instruction) : Checked Fault Bytes := do
  if i.code = 0x4f then return [0x81]
  else if 0x51 ≤ i.code ∧ i.code ≤ 0x60 then return [← subByte i.code (← subByte 0x51 1)]
  else return i.data

/-- The opcode opens, turns or closes a conditional. -/
def isConditional (op : Opcode) : Bool := [0x63, 0x64, 0x67, 0x68].contains op

theorem bareCode_eq (b : Bytes) : bareCode b = .ok (Instruction.bareCode? b) := by
  match b with
  | [] => rfl
  | [v] =>
    rw [bareCode, Instruction.bareCode?]
    by_cases hsmall : 1 ≤ v ∧ v ≤ 16
    · have hbounds : (0x51 : UInt8).toNat + v.toNat < 256 ∧ (1 : UInt8) ≤ 0x51 + v ∧
          0x51 + v - 1 = 0x50 + v :=
        Bytes.forall_byte (p := fun v => 1 ≤ v ∧ v ≤ 16 → (0x51 : UInt8).toNat + v.toNat < 256 ∧
          (1 : UInt8) ≤ 0x51 + v ∧ 0x51 + v - 1 = 0x50 + v) (by decide +kernel) v hsmall
      rw [if_pos hsmall, if_pos hsmall, addByte_of_lt hbounds.1, ok_bind, subByte_of_le hbounds.2.1,
        ok_bind, hbounds.2.2]
      rfl
    · rw [if_neg hsmall, if_neg hsmall]
      split <;> rfl
  | _ :: _ :: _ => rfl

theorem isMinimal_eq (i : Instruction) : isMinimal i = .ok i.isMinimal := by
  rw [isMinimal, bareCode_eq, ok_bind, Instruction.isMinimal, Instruction.minimalCode]
  cases Instruction.bareCode? i.data <;> rfl

theorem pushValue_eq (i : Instruction) : pushValue i = .ok i.pushValue := by
  unfold pushValue Instruction.pushValue
  split
  · rfl
  split
  · next hsmall =>
    have hle : (0x50 : UInt8) ≤ i.code :=
      Bytes.forall_byte (p := fun op => 0x51 ≤ op ∧ op ≤ 0x60 → 0x50 ≤ op) (by decide +kernel)
        i.code hsmall
    rw [subByte_of_le (by decide : (1 : UInt8) ≤ 0x51), ok_bind]
    exact congrArg (fun x => x >>= fun op => .ok [op]) (subByte_of_le hle)
  · rfl

theorem isConditional_eq (i : Instruction) : isConditional i.code = i.isConditional :=
  Bytes.forall_byte (p := fun op => isConditional op = (Operation.ofCode op).isConditional)
    (by decide +kernel) i.code

namespace Run

open CoinScript.Checked.Stack (InMemory Room)

variable {ample : Prop} {n offset : Nat} {r : Rules} {script : List Instruction} {op : Opcode}

/-! ## Arms -/

/-- The family that the table sends an opcode to has an arm for it, with the operation of the
program. -/
def routed (op : Opcode) : Bool :=
  match Operation.ofCode op with
  | .flow x => flowArms.lookup op == some x
  | .stack x => stackArms.lookup op == some x && decide (Blocks x)
  | .splice x => spliceArms.lookup op == some x
  | .bitwise x => bitwiseArms.lookup op == some x
  | .arithmetic x => arithmeticArms.lookup op == some x
  | .crypto x => cryptoArms.lookup op == some x
  | .lockTime x => lockTimeArms.lookup op == some x && op != 0x61
  | .nop upgradable => (op != 0x61) == upgradable
  | _ => true

theorem routed_eq_true (op : Opcode) : routed op = true :=
  Bytes.forall_byte (p := fun op => routed op = true) (by decide +kernel) op

/-! ## One instruction -/

/-- The gate of an opcode is open. -/
def checkGate (r : Rules) (op : Opcode) (info : OpcodeInfo) : Steps Unit :=
  match info.gate with
  | .always => return ()
  | .extendedA => require (r.flags.has .extendedA) (.notEnabled op .extendedA)
  | .extendedB => require (r.flags.has .extendedB) (.notEnabled op .extendedB)
  | .never => throw (.refused (if info.category = .disabled then .disabled op else .reserved op))

/-- What holds of every instruction that is executed. -/
def checkExecuted (r : Rules) (i : Instruction) (arity : Nat) : Steps Unit := do
  if r.flags.has .minimalData && decide (i.code ≤ 0x4e) then
    require (← checked (isMinimal i)) (.notMinimalPush i)
  let depth := (← get).main.length
  require (decide (arity ≤ depth)) (.tooShallow i.code arity depth)

/-- Hands an instruction to its family. -/
def perform (r : Rules) (script : List Instruction) (offset : Nat) (executing : Bool)
    (category : Category) (i : Instruction) : Steps Unit :=
  match category with
  | .push => do
    push (← checked (pushValue i))
  | .flow => handle flowArms (flow r executing i.code) i.code
  | .stack => handle stackArms (stack r) i.code
  | .splice => handle spliceArms (splice r) i.code
  | .bitwise => handle bitwiseArms (bitwise i.code) i.code
  | .arithmetic => handle arithmeticArms (arithmetic r i.code) i.code
  | .crypto => handle cryptoArms (crypto r script offset i.code) i.code
  | .lockTime => handle lockTimeArms (lockTime r i.code) i.code
  | .nop => nop r i.code
  | .reserved => throw (.refused (.reserved i.code))
  | .disabled => throw (.refused (.disabled i.code))
  | .invalid => throw (.refused (.invalidOpcode i.code))

/-- Follows the instruction at a place of a script. -/
def step (r : Rules) (script : List Instruction) (offset : Nat) (i : Instruction) : Steps Unit := do
  let info ← checked (index table i.code.toNat)
  require (decide (i.data.length ≤ r.limits.maxElementSize))
    (.elementTooLong i.data.length r.limits.maxElementSize)
  checkGate r i.code info
  if 0x60 < i.code then
    countOperations r 1
  let executing := (← get).branches.isExecuting
  if executing || isConditional i.code then
    let m ← get
    lift (CoinScript.Run.record (.instruction offset i.code m.main.length m.branches.depth))
    if executing then
      checkExecuted r i info.arity
    perform r script offset executing info.category i

/-! ## It does what the program does -/

theorem tracks_checkGate {I : Machine → Prop} (op : Opcode) (x : Operation) :
    Tracks ample I I Any (checkGate r op ⟨.of x, x.gate, x.arity⟩)
      (CoinScript.Run.checkGate r op x) := by
  unfold checkGate CoinScript.Run.checkGate
  dsimp only
  cases x.gate with
  | always => exact tracks_pure trivial
  | extendedA => exact tracks_check _ _
  | extendedB => exact tracks_check _ _
  | never =>
    have hcategory : (Category.of x = .disabled) = (x = .disabled) := by
      cases x <;> simp [Category.of]
    simp only [hcategory]
    exact tracks_throw _

theorem tracks_checkExecuted {I : Machine → Prop} (i : Instruction) :
    Tracks ample I I Any (checkExecuted r i i.operation.arity)
      (CoinScript.Run.checkExecuted r i) := by
  unfold checkExecuted CoinScript.Run.checkExecuted
  cases r.flags.has .minimalData && decide (i.code ≤ 0x4e) with
  | true =>
    refine .of_ok (isMinimal_eq i) (tracks_require_bind fun _ => .get_bind fun m hm => ?_)
    exact tracks_check _ _ m hm
  | false =>
    refine Tracks.get_bind fun m hm => ?_
    exact tracks_check _ _ m hm

theorem tracks_perform (hr : ample → Modest r.limits) (hn : n ≤ addressSpace)
    (hroom : Room ample (n + 3)) (hoffset : offset + 1 < wordSize) (executing : Bool)
    {i : Instruction} (hsize : i.data.length ≤ r.limits.maxElementSize) :
    Tracks ample (Held n) (Held (n + 3)) Any
      (perform r script offset executing (.of i.operation) i)
      (CoinScript.Run.perform r script offset executing i) := by
  have hrouted := routed_eq_true i.code
  have hone : n + 1 ≤ n + 3 := Nat.le_add_right (n + 1) 2
  have hle : n ≤ n + 3 := Nat.le_add_right n 3
  unfold routed at hrouted
  unfold perform CoinScript.Run.perform Instruction.operation
  cases hop : Operation.ofCode i.code <;> rw [hop] at hrouted <;>
    dsimp only [Category.of] at hrouted ⊢
  case push =>
    refine .of_ok (pushValue_eq i) (tracks_weaken ?_ hone)
    refine tracks_push (hroom.mono hone) fun hyes => ?_
    exact Nat.le_trans i.length_pushValue_le
      (Nat.max_le.mpr ⟨by decide, Nat.le_trans hsize (hr hyes).element⟩)
  case flow x =>
    have hflow := tracks_flow (r := r) (hroom.mono hone) executing i.code x
    exact tracks_handle (eq_of_beq hrouted) (tracks_weaken hflow hone)
  case stack x =>
    obtain ⟨harm, hblocks⟩ := Bool.and_eq_true_iff.mp hrouted
    exact tracks_handle (eq_of_beq harm) (tracks_stack hroom (of_decide_eq_true hblocks))
  case splice x => exact tracks_handle (eq_of_beq hrouted) (tracks_splice hr hroom x)
  case bitwise x => exact tracks_handle (eq_of_beq hrouted) (tracks_bitwise hroom _ x)
  case arithmetic x => exact tracks_handle (eq_of_beq hrouted) (tracks_arithmetic hr hroom _ x)
  case crypto x =>
    exact tracks_handle (eq_of_beq hrouted) (tracks_crypto hr hn hroom hoffset script _ x)
  case lockTime x =>
    obtain ⟨harm, hcode⟩ := Bool.and_eq_true_iff.mp hrouted
    exact tracks_handle (eq_of_beq harm) (tracks_weaken (tracks_lockTime hcode x) hle)
  case nop upgradable => exact tracks_weaken (tracks_nop (eq_of_beq hrouted)) hle
  case reserved | disabled | invalid => exact tracks_throw _

/-- **One instruction does what the program does**, and adds at most four to the operations counted, the
elements on both stacks and the open conditionals. -/
theorem tracks_step (hr : ample → Modest r.limits) (hn : n < addressSpace)
    (hroom : Room ample (n + 4)) (hoffset : offset + 1 < wordSize) (i : Instruction) :
    Tracks ample (Held n) (Held (n + 4)) Any (step r script offset i)
      (CoinScript.Run.step r script offset i) := by
  have hword : addressSpace < wordSize := by decide
  refine .of_ok (index_table i.code) ?_
  rw [info_eq]
  refine tracks_require_bind fun hsize => ?_
  refine (tracks_checkGate i.code i.operation).bind fun _ _ => ?_
  refine tracks_when (fun _ => tracks_countOperations (k := 1) (by omega))
    (fun m hm => hm.mono (Nat.le_add_right n 1)) (.get_bind fun m hm => ?_)
  rw [isConditional_eq]
  refine tracks_ite (I := Held (n + 1)) (fun _ => .get_bind fun m hm => ?_)
    (fun _ => tracks_weaken (tracks_pure trivial) (Nat.le_add_right (n + 1) 3)) m hm
  refine (tracks_record _).bind (fun _ _ => ?_) m hm
  exact tracks_when (fun _ => tracks_checkExecuted i) (fun _ hm => hm)
    (tracks_perform hr hn hroom hoffset _ (of_decide_eq_true hsize))

end Run

end CoinScript.Checked
