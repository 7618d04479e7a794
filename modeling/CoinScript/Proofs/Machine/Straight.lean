import CoinScript.Proofs.Machine.Places
import CoinScript.Proofs.Script.Decoding

/-!
# Straight runs

A script without conditionals and separators is run from its first instruction to its last, each on
what the one before it left.  To follow such a run forward it is enough to keep the main stack and
the count of operations: `Holds` says that a machine has these and nothing else of interest, and
`Comes r script first offset main operations` that the run comes to the instruction with the given
number on such a machine.  `Comes.step` goes on by one instruction that passes its checks
(`Rules.Lets`), and `script_of_comes` ends the script.

Below are the instructions of which the locks by the hash of a key and by the hash of a script
consist.
-/

namespace CoinScript

/-- The checks that an instruction has to pass when it is executed on a stack with so many elements,
after so many operations. -/
structure Rules.Lets (r : Rules) (i : Instruction) (depth operations : Nat) : Prop where
  size : i.data.length ≤ r.limits.maxElementSize
  gate : r.Opens i.operation.gate
  count : operations + i.cost ≤ r.limits.maxOps
  minimal : i.code ≤ 0x4e → i.isMinimal = true
  arity : i.operation.arity ≤ depth

theorem Rules.Lets.readies {r : Rules} {i : Instruction} {depth operations : Nat}
    (h : r.Lets i depth operations) : r.Readies i operations where
  size := h.size
  gate := h.gate
  count hcode := by
    have hcount := h.count
    rwa [Instruction.cost, if_pos hcode] at hcount
  minimal _ := h.minimal

/-- Inside a script without conditionals and separators: what is on the main stack and the number of
operations, with an empty alt stack. -/
structure Machine.Holds (m : Machine) (main : Stack) (operations : Nat) : Prop where
  main : m.main = main
  alt : m.alt = []
  branches : m.branches = .none
  codeStart : m.codeStart = 0
  operations : m.operations = operations

namespace Run

variable {r : Rules} {script : List Instruction} {first m m' : Machine} {offset operations : Nat}
  {i : Instruction} {main main' : Stack}

/-! ## One instruction -/

/-- An opcode above the small numbers, without payload, has to pass no check of pushes. -/
theorem lets_of_bare {code : Opcode} {depth : Nat} (hcode : 0x60 < code)
    (hgate : r.Opens (Operation.ofCode code).gate) (hcount : operations + 1 ≤ r.limits.maxOps)
    (harity : (Operation.ofCode code).arity ≤ depth) :
    r.Lets ⟨code, none⟩ depth operations where
  size := Nat.zero_le _
  gate := hgate
  count := by
    rw [Instruction.cost, if_pos hcode]
    exact hcount
  minimal hle := by
    have hlt : (0x60 : Opcode).toNat < (0x4e : Opcode).toNat :=
      Nat.lt_of_lt_of_le (UInt8.lt_iff_toNat_lt.mp hcode) (UInt8.le_iff_toNat_le.mp hle)
    exact absurd hlt (by decide)
  arity := harity

/-- An instruction that passes its checks does its operation, where it is executed or steers. -/
theorem step_of_lets (h : r.Lets i m.main.length m.operations)
    (hany : (m.branches.isExecuting || i.isConditional) = true) :
    step r script offset i m =
      perform r script offset m.branches.isExecuting i (m.entering offset i) := by
  cases hexecuting : m.branches.isExecuting with
  | true => exact step_of_readies hexecuting h.readies h.arity
  | false =>
    rw [hexecuting, Bool.false_or] at hany
    rw [step_eq, bind_of_ok (inspect_of_grants h.readies.toGrants)]
    exact enter_of_conditional (m := { m with operations := m.operations + i.cost }) hexecuting hany

/-! ## Going on -/

theorem holds_entering (h : m.Holds main operations) (offset : Nat) (i : Instruction) :
    (m.entering offset i).Holds main (operations + i.cost) :=
  ⟨h.main, h.alt, h.branches, h.codeStart, by rw [← h.operations]; rfl⟩

/-- The run of a script comes to the instruction with the given number, with this main stack and
after so many operations. -/
def Comes (r : Rules) (script : List Instruction) (first : Machine) (offset : Nat) (main : Stack)
    (operations : Nat) : Prop :=
  ∃ m, Reaches r script first offset m ∧ m.Holds main operations

theorem comes_start (halt : first.alt = []) : Comes r script first 0 first.main 0 :=
  ⟨first.afresh, .start, rfl, halt, rfl, rfl, rfl⟩

/-- An instruction that passes its checks is executed. -/
theorem Comes.executes (h : Comes r script first offset main operations)
    (hi : script[offset]? = some i) :
    ∃ m, Executes r script first offset i m ∧
      (m.entering offset i).Holds main (operations + i.cost) := by
  obtain ⟨m, hreaches, hholds⟩ := h
  refine ⟨m, ⟨hreaches, hi, ?_⟩, holds_entering hholds offset i⟩
  rw [hholds.branches]
  rfl

/-- **From one instruction to the next.**  The operation is told by what it makes of the stack. -/
theorem Comes.step (h : Comes r script first offset main operations)
    (hi : script[offset]? = some i) (hlets : r.Lets i main.length operations)
    (hperform : ∀ m : Machine, m.Holds main (operations + i.cost) →
      ∃ m', perform r script offset true i m = .ok () m' ∧ m'.Holds main' (operations + i.cost))
    (hsize : main'.length ≤ r.limits.maxStackSize) :
    Comes r script first (offset + 1) main' (operations + i.cost) := by
  obtain ⟨m, hexecutes, hentering⟩ := h.executes hi
  obtain ⟨m', hm', hholds⟩ := hperform _ hentering
  have hmain : m.main = main := hentering.main
  have hoperations : m.operations + i.cost = operations + i.cost := hentering.operations
  have hlets : r.Lets i m.main.length m.operations := by
    rw [hmain, Nat.add_right_cancel hoperations]
    exact hlets
  refine ⟨m', hexecutes.reaches.next hi ?_ ?_, hholds⟩
  · rw [step_of_lets hlets (by rw [hexecutes.executing, Bool.true_or]), hexecutes.executing, hm']
  · rw [hholds.main, hholds.alt]
    exact hsize

/-- What a run has reached is what is still to be done. -/
theorem instructions_of_reaches (h : Reaches r script first offset m) :
    instructions r script 0 script first.afresh =
      instructions r script offset (script.drop offset) m := by
  induction h with
  | start => rw [List.drop_zero]
  | @next offset m m' i _ hi hstep hsize ih =>
    rw [ih, drop_eq_cons hi]
    show (Run.step r script offset i >>= fun _ => _) m = _
    rw [bind_of_ok hstep]
    exact require_bind_of_true (decide_eq_true hsize) m'

/-- A run that has come to the end of a script ends well. -/
theorem script_of_comes (h : Comes r script first script.length main operations) :
    ∃ after, Run.script r script first = .ok () after ∧ after.main = main ∧ after.alt = [] := by
  obtain ⟨m, hreaches, hholds⟩ := h
  have hrun : instructions r script 0 script first.afresh = .ok () m := by
    rw [instructions_of_reaches hreaches, List.drop_length]
    rfl
  refine ⟨{ m with alt := [] }, ?_, hholds.main, rfl⟩
  show (instructions r script 0 script >>= fun _ => _) first.afresh = _
  rw [bind_of_ok hrun]
  refine (require_bind_of_true (decide_eq_true ?_) m).trans rfl
  rw [hholds.branches]
  rfl

/-! ## Pushes -/

/-- Putting another stack in place. -/
theorem holds_main (h : m.Holds main operations) (main' : Stack) :
    Machine.Holds { m with main := main' } main' operations :=
  ⟨rfl, h.alt, h.branches, h.codeStart, h.operations⟩

theorem code_push_lt (b : Bytes) : (Instruction.push b).code.toNat < 0x4f :=
  Nat.lt_succ_of_le (UInt8.le_iff_toNat_le.mp (Opcode.forPush_le b.length))

theorem operation_push (b : Bytes) : (Instruction.push b).operation = .push := by
  have hlt := code_push_lt b
  unfold Instruction.operation Operation.ofCode
  rw [if_pos (UInt8.lt_iff_toNat_lt.mpr hlt)]

theorem cost_push (b : Bytes) : (Instruction.push b).cost = 0 := by
  have hlt := code_push_lt b
  unfold Instruction.cost
  rw [if_neg]
  rw [UInt8.lt_iff_toNat_lt]
  exact Nat.not_lt.mpr (Nat.le_trans (Nat.le_of_lt hlt) (by decide))

theorem pushValue_push (b : Bytes) : (Instruction.push b).pushValue = b := by
  have hlt := code_push_lt b
  unfold Instruction.pushValue
  rw [if_neg, if_neg, Instruction.data_push]
  · rintro ⟨hle, -⟩
    rw [UInt8.le_iff_toNat_le] at hle
    exact absurd (Nat.lt_of_le_of_lt hle hlt) (by decide)
  · intro h
    rw [h] at hlt
    exact absurd hlt (by decide)

/-- Byte strings of two bytes and more have no opcode of their own. -/
theorem isMinimal_push {b : Bytes} (h : 2 ≤ b.length) : (Instruction.push b).isMinimal = true := by
  match b, h with
  | x :: y :: ys, _ =>
    rw [Instruction.isMinimal, Instruction.data_push, Instruction.code_push]
    exact beq_self_eq_true _

/-- The shortest push of an element that no opcode puts on the stack alone. -/
theorem Comes.pushMinimal {b : Bytes} (h : Comes r script first offset main operations)
    (hi : script[offset]? = some (.push b)) (hminimal : (Instruction.push b).isMinimal = true)
    (hsize : b.length ≤ r.limits.maxElementSize) (hcount : operations ≤ r.limits.maxOps)
    (hstack : main.length + 1 ≤ r.limits.maxStackSize) :
    Comes r script first (offset + 1) (b :: main) operations := by
  have hcost := cost_push b
  have hlets : r.Lets (.push b) main.length operations := by
    refine ⟨?_, ?_, ?_, fun _ => hminimal, ?_⟩
    · rwa [Instruction.data_push]
    · rw [operation_push]
      exact trivial
    · rwa [hcost]
    · rw [operation_push]
      exact Nat.zero_le _
  have hstep : Comes r script first (offset + 1) (b :: main)
      (operations + (Instruction.push b).cost) := by
    refine h.step hi hlets (fun m hm => ?_) hstack
    refine ⟨{ m with main := b :: main }, ?_, holds_main hm _⟩
    unfold perform
    rw [operation_push]
    show EStateM.Result.ok () { m with main := Instruction.pushValue (.push b) :: m.main } = _
    rw [pushValue_push, hm.main]
  rwa [hcost] at hstep

/-- The shortest push of an element of two bytes and more. -/
theorem Comes.push {b : Bytes} (h : Comes r script first offset main operations)
    (hi : script[offset]? = some (.push b)) (hlength : 2 ≤ b.length)
    (hsize : b.length ≤ r.limits.maxElementSize) (hcount : operations ≤ r.limits.maxOps)
    (hstack : main.length + 1 ≤ r.limits.maxStackSize) :
    Comes r script first (offset + 1) (b :: main) operations :=
  h.pushMinimal hi (isMinimal_push hlength) hsize hcount hstack

/-! ## The instructions of locks by hashes -/

/-- `DUP`. -/
theorem Comes.dup {x : Bytes} (h : Comes r script first offset (x :: main) operations)
    (hi : script[offset]? = some ⟨0x76, none⟩) (hcount : operations + 1 ≤ r.limits.maxOps)
    (hstack : main.length + 2 ≤ r.limits.maxStackSize) :
    Comes r script first (offset + 1) (x :: x :: main) (operations + 1) := by
  have hlets : r.Lets ⟨0x76, none⟩ (x :: main).length operations :=
    lets_of_bare (by decide) trivial hcount (Nat.le_add_left 1 _)
  refine h.step hi hlets (fun m hm => ?_) hstack
  refine ⟨{ m with main := x :: x :: main }, ?_, holds_main hm _⟩
  show onMain (Stack.dup 1) m = _
  unfold onMain
  rw [hm.main]
  rfl

/-- `HASH160`. -/
theorem Comes.hash160 {x : Bytes} (h : Comes r script first offset (x :: main) operations)
    (hi : script[offset]? = some ⟨0xa9, none⟩) (hcount : operations + 1 ≤ r.limits.maxOps)
    (hstack : main.length + 1 ≤ r.limits.maxStackSize) :
    Comes r script first (offset + 1) ((CoinScript.hash160 x).bytes :: main) (operations + 1) := by
  have hlets : r.Lets ⟨0xa9, none⟩ (x :: main).length operations :=
    lets_of_bare (by decide) trivial hcount (Nat.le_add_left 1 _)
  refine h.step hi hlets (fun m hm => ?_) hstack
  refine ⟨{ m with main := (CoinScript.hash160 x).bytes :: main }, ?_, holds_main hm _⟩
  show (pop >>= fun b => Run.push (HashOp.hash160.eval b)) m = _
  rw [bind_of_ok (pop_eq hm.main)]
  rfl

/-- `EQUALVERIFY` on two equal elements. -/
theorem Comes.equalVerify {x : Bytes} (h : Comes r script first offset (x :: x :: main) operations)
    (hi : script[offset]? = some ⟨0x88, none⟩) (hcount : operations + 1 ≤ r.limits.maxOps)
    (hstack : main.length ≤ r.limits.maxStackSize) :
    Comes r script first (offset + 1) main (operations + 1) := by
  have hlets : r.Lets ⟨0x88, none⟩ (x :: x :: main).length operations :=
    lets_of_bare (by decide) trivial hcount (Nat.le_add_left 2 _)
  refine h.step hi hlets (fun m hm => ?_) hstack
  refine ⟨{ m with main }, ?_, holds_main hm _⟩
  have hpushed : pushTruth (x == x) { m with main } =
      .ok () { m with main := Number.ofTruth true :: main } := by
    rw [beq_self_eq_true]
    rfl
  show (pop >>= fun b => pop >>= fun a => pushTruth (b == a) >>= fun _ => verifyTop 0x88) m = _
  rw [bind_of_ok (pop_eq hm.main), bind_of_ok (pop_eq rfl), bind_of_ok hpushed]
  rfl

/-- `EQUAL`. -/
theorem Comes.equal {x y : Bytes} (h : Comes r script first offset (y :: x :: main) operations)
    (hi : script[offset]? = some ⟨0x87, none⟩) (hcount : operations + 1 ≤ r.limits.maxOps)
    (hstack : main.length + 1 ≤ r.limits.maxStackSize) :
    Comes r script first (offset + 1) (Number.ofTruth (y == x) :: main) (operations + 1) := by
  have hlets : r.Lets ⟨0x87, none⟩ (y :: x :: main).length operations :=
    lets_of_bare (by decide) trivial hcount (Nat.le_add_left 2 _)
  refine h.step hi hlets (fun m hm => ?_) hstack
  refine ⟨{ m with main := Number.ofTruth (y == x) :: main }, ?_, holds_main hm _⟩
  show (pop >>= fun b => pop >>= fun a => pushTruth (b == a) >>= fun _ => pure ()) m = _
  rw [bind_of_ok (pop_eq hm.main), bind_of_ok (pop_eq rfl)]
  rfl

/-- The check of one signature on a signature that is valid. -/
theorem checkSingle_of_valid (op : Opcode) {c : Context} {key sig : Bytes} {rest : Stack}
    (hcontext : r.context = some c) (hmain : m.main = key :: sig :: rest)
    (hsignature : r.checkSignature sig = .ok ()) (hkey : r.checkKey key = .ok ())
    (hvalid : r.validity c sig key (codeFor r (signedPart script m.codeStart) [sig] sig) =
      .ok true) :
    ∃ journal, checkSingle r script op m = .ok () { m with main := [1] :: rest, journal } := by
  obtain ⟨journal, heq⟩ := checkSig_eq r c sig key
    (codeFor r (signedPart script m.codeStart) [sig] sig) { m with main := rest }
  rw [hvalid] at heq
  refine ⟨journal, ?_⟩
  unfold checkSingle
  rw [bind_of_ok (requireContext_eq hcontext op m), bind_of_ok (pop_eq hmain),
    bind_of_ok (pop_eq rfl), hsignature, hkey]
  show (checkSig r c sig key (codeFor r (signedPart script m.codeStart) [sig] sig) >>= fun _ => _)
    { m with main := rest } = _
  rw [bind_of_ok heq]
  rfl

/-- `CHECKSIG` on a signature that is valid. -/
theorem Comes.checkSig {c : Context} {key sig : Bytes}
    (h : Comes r script first offset (key :: sig :: main) operations)
    (hi : script[offset]? = some ⟨0xac, none⟩) (hcount : operations + 1 ≤ r.limits.maxOps)
    (hstack : main.length + 1 ≤ r.limits.maxStackSize) (hcontext : r.context = some c)
    (hsignature : r.checkSignature sig = .ok ()) (hkey : r.checkKey key = .ok ())
    (hvalid : r.validity c sig key (codeFor r script [sig] sig) = .ok true) :
    Comes r script first (offset + 1) ([1] :: main) (operations + 1) := by
  have hlets : r.Lets ⟨0xac, none⟩ (key :: sig :: main).length operations :=
    lets_of_bare (by decide) trivial hcount (Nat.le_add_left 2 _)
  refine h.step hi hlets (fun m hm => ?_) hstack
  have hpart : signedPart script m.codeStart = script := by
    rw [hm.codeStart, signedPart, List.drop_zero]
  rw [← hpart] at hvalid
  obtain ⟨journal, heq⟩ := checkSingle_of_valid 0xac hcontext hm.main hsignature hkey hvalid
  refine ⟨{ m with main := [1] :: main, journal }, ?_,
    rfl, hm.alt, hm.branches, hm.codeStart, hm.operations⟩
  show (checkSingle r script 0xac >>= fun _ => pure ()) m = _
  rw [bind_of_ok heq]
  rfl

/-! ## Spends -/

/-- A spend of scripts that are in order, the second of which ends with a single true element. -/
theorem spend_of_runs {unlocking locking : Script} {locked : Machine} {top : Bytes}
    (opened : Machine)
    (hunlockingSize : unlocking.length ≤ r.limits.maxScriptSize)
    (hlockingSize : locking.length ≤ r.limits.maxScriptSize) (hne : locking ≠ [])
    (hunlocking : (Script.scan unlocking).2 = []) (hlocking : (Script.scan locking).2 = [])
    (hpushOnly : isPushOnly (Script.scan unlocking).1 = true)
    (hnamed : byScriptHash r locking = false)
    (hunlocks : Run.script r (Script.scan unlocking).1 m = .ok () opened)
    (hlocks : Run.script r (Script.scan locking).1 opened = .ok () locked)
    (hmain : locked.main = [top]) (htop : Number.truth top = true) :
    spend r unlocking locking m = .ok () locked :=
  spend_of_path {
    unlocking_size := hunlockingSize
    locking_size := hlockingSize
    not_empty := fun h => hne h.2
    unlocking_tail := hunlocking
    locking_tail := hlocking
    pushOnly := fun _ => hpushOnly
    unlocks := hunlocks
    locks := hlocks
    top := checkTop_of_main hmain htop
    redeems := fun h => by
      rw [hnamed] at h
      cases h
    ends := fun _ => rfl
    clean := fun _ => by
      rw [hmain]
      rfl }

end Run

end CoinScript
