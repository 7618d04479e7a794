import CoinScript.Proofs.Checked.Machine
import CoinScript.Proofs.Checked.Shift
import CoinScript.Machine.Step

/-!
# Operations on words and arrays

The families of operations except the one on hashes and signatures.  A family is handed an opcode and
looks for it among its arms (`handle`); an opcode that it does not have comes to the crash that is kept
for it.

Every operation tracks the one of the program, and leaves at most three elements more than it found.
What each of them relies on is established somewhere else: a division on the check of the divisor, the
join of two elements on both being in memory, a cut on the check of the position, the widening of a
number on its shortest form being shorter, and the moves on blocks on the arms of the family, none of
which has an empty block.  Under `Modest` limits memory has room for what is put on the stack, for the
reasons for which elements stay within a size.
-/

namespace CoinScript.Checked.Run

open CoinScript.Checked.Stack (InMemory Room)

variable {ample : Prop} {n : Nat} {α β : Type} {r : Rules} {op : Opcode}

/-! ## Arms -/

/-- What a family of operations does with an opcode. -/
def handle (arms : List (Opcode × β)) (body : β → Steps Unit) (op : Opcode) : Steps Unit :=
  match arms.lookup op with
  | some x => body x
  | none => checked (crash (.noHandler op))

theorem tracks_handle {I J : Machine → Prop} {Q : Unit → Prop} {arms : List (Opcode × β)}
    {body : β → Steps Unit} {x : β} {y : CoinScript.Run Unit} (h : arms.lookup op = some x)
    (hbody : Tracks ample I J Q (body x) y) : Tracks ample I J Q (handle arms body op) y := by
  rw [handle, h]
  exact hbody

/-! ## Steering -/

/-- The operand of a conditional. -/
def popCondition (r : Rules) : Steps Bool := do
  if r.flags.has .minimalIf then
    let b ← pop
    require (decide (b.length ≤ 1)) (.longCondition b.length)
    if b.length = 1 then
      let x ← checked (index b 0)
      require (x == 1) (.oddCondition x)
    checked (truth b)
  else
    onMain Stack.popTruth

/-- Steers. -/
def flow (r : Rules) (executing : Bool) (op : Opcode) : FlowOp → Steps Unit
  | .opening onTrue => do
    if executing then
      let condition ← popCondition r
      onBranches (opening ⟨condition == onTrue, false, false⟩)
    else
      onBranches (opening ⟨false, true, false⟩)
  | .turning => onBranches turning
  | .closing => onBranches closing
  | .verify => verifyTop op
  | .giveUp => throw (.refused .gaveUp)

def flowArms : List (Opcode × FlowOp) :=
  [(0x63, .opening true), (0x64, .opening false), (0x67, .turning), (0x68, .closing),
    (0x69, .verify), (0x6a, .giveUp)]

/-- Does nothing, unless opcodes that may be given a meaning later are refused. -/
def nop (r : Rules) (op : Opcode) : Steps Unit :=
  require (!(op != 0x61 && r.flags.has .discourageNops)) (.discouragedNop op)

/-- A check of a lock time.  Only the reading of the operand uses an operation that has a domain. -/
def lockTime (r : Rules) (op : Opcode) (x : LockTimeOp) : Steps Unit := do
  if r.flags.has (CoinScript.Run.lockTimeFlag x) then
    let c ← lift (r.requireContext op)
    let n ← onMain (Stack.peekNumber ⟨LockTime.operandLength, r.flags.has .minimalData⟩ 0)
    require (decide (0 ≤ n)) (.negativeLockTime n)
    match x with
    | .absolute => lift (CoinScript.Run.checkAbsolute r c n.toNat)
    | .relative => lift (CoinScript.Run.checkRelative r c n.toNat)
  else
    nop r op

def lockTimeArms : List (Opcode × LockTimeOp) := [(0xb1, .absolute), (0xb2, .relative)]

/-! ## Rearranging -/

/-- A depth given as an operand. -/
def popIndex (r : Rules) : Steps Nat := do
  let n ← popNumber r
  require (decide (0 ≤ n)) (.negativeIndex (Number.clamp 64 n))
  return (Number.clamp 64 n).toNat

/-- Rearranges elements. -/
def stack (r : Rules) : StackOp → Steps Unit
  | .toAlt => do
    onAlt (Stack.push (← pop))
  | .fromAlt => do
    push (← onAlt Stack.pop)
  | .drop n => onMain (Stack.drop n)
  | .dup n => onMain (Stack.dup n)
  | .copyOver n => onMain (Stack.copyOver n)
  | .rot n => onMain (Stack.rot n)
  | .swap n => onMain (Stack.swap n)
  | .dupIfTrue => do
    let top ← onMain (Stack.peek 0)
    if ← checked (truth top) then push top
  | .depth => do
    pushNumber (← checked (long (← get).main.length))
  | .nip => onMain (Stack.nip 1)
  | .pick => do
    onMain (Stack.pick (← popIndex r))
  | .roll => do
    onMain (Stack.roll (← popIndex r))
  | .tuck => onMain Stack.tuck

def stackArms : List (Opcode × StackOp) :=
  [(0x6b, .toAlt), (0x6c, .fromAlt), (0x6d, .drop 2), (0x6e, .dup 2), (0x6f, .dup 3),
    (0x70, .copyOver 2), (0x71, .rot 2), (0x72, .swap 2), (0x73, .dupIfTrue), (0x74, .depth),
    (0x75, .drop 1), (0x76, .dup 1), (0x77, .nip), (0x78, .copyOver 1), (0x79, .pick), (0x7a, .roll),
    (0x7b, .rot 1), (0x7c, .swap 1), (0x7d, .tuck)]

/-! ## Cutting and joining -/

/-- Joins the two topmost elements. -/
def cat (r : Rules) : Steps Unit := do
  let b ← pop
  let a ← pop
  let size ← checked (add a.length b.length)
  require (decide (size ≤ r.limits.maxElementSize)) (.joinTooLong size r.limits.maxElementSize)
  push (a ++ b)

/-- Cuts an element in two. -/
def split (r : Rules) : Steps Unit := do
  let n ← popNumber r
  let b ← pop
  let position := Number.clamp 64 n
  require (decide (0 ≤ position ∧ position ≤ b.length)) (.splitOutside position b.length)
  let (front, back) ← checked (cut b position.toNat)
  push front
  push back

/-- The byte string cut off or filled with zeros. -/
def resize (b : Bytes) (size : Nat) : Bytes := b.take size ++ List.replicate (size - b.length) 0

/-- A shortest form brought to `size` bytes: the sign is taken off, zeros are filled in, and the sign is
put behind them. -/
def widen (size : Nat) (b : Bytes) : Checked Fault Bytes :=
  match b.getLast? with
  | none => do return resize b (← sub size 1) ++ [0]
  | some last => do return resize (b.dropLast ++ [last &&& 0x7f]) (← sub size 1) ++ [last &&& 0x80]

/-- Brings a number to a given size. -/
def numToBin (r : Rules) : Steps Unit := do
  let n ← popNumber r
  let b ← pop
  require (decide (0 ≤ n)) (.negativeSize (Number.clamp 64 n))
  let size := (Number.clamp 64 n).toNat
  require (decide (size ≤ r.limits.maxElementSize)) (.sizeTooLarge size r.limits.maxElementSize)
  let least ← checked (minimize b)
  require (decide (least.length ≤ size)) (.valueTooWide least.length size)
  if least.length = size then push least else push (← checked (widen size least))

/-- Brings a number to its shortest form. -/
def binToNum (r : Rules) : Steps Unit := do
  let b ← pop
  let least ← checked (minimize b)
  require (decide (least.length ≤ r.limits.maxNumberLength))
    (.numberTooWide r.limits.maxNumberLength)
  push least

/-- Cuts or joins. -/
def splice (r : Rules) : SpliceOp → Steps Unit
  | .cat => cat r
  | .split => split r
  | .numToBin => numToBin r
  | .binToNum => binToNum r
  | .size => do
    let top ← onMain (Stack.peek 0)
    pushNumber (← checked (long top.length))

def spliceArms : List (Opcode × SpliceOp) :=
  [(0x7e, .cat), (0x7f, .split), (0x80, .numToBin), (0x81, .binToNum), (0x82, .size)]

/-! ## Bits -/

/-- Combines two elements of one length byte by byte. -/
def combine (f : UInt8 → UInt8 → UInt8) : Steps Unit := do
  let b ← pop
  let a ← pop
  require (decide (b.length = a.length)) (.lengthsDiffer a.length b.length)
  push (List.zipWith f b a)

/-- Works on bits. -/
def bitwise (op : Opcode) : BitwiseOp → Steps Unit
  | .invert => do
    push ((← pop).map (~~~ ·))
  | .and => combine (· &&& ·)
  | .or => combine (· ||| ·)
  | .xor => combine (· ^^^ ·)
  | .equal checks => do
    let b ← pop
    let a ← pop
    pushTruth (b == a)
    if checks then verifyTop op

def bitwiseArms : List (Opcode × BitwiseOp) :=
  [(0x83, .invert), (0x84, .and), (0x85, .or), (0x86, .xor), (0x87, .equal false),
    (0x88, .equal true)]

/-! ## Numbers -/

/-- Takes two operands; the second one is on top. -/
def popTwoNumbers (r : Rules) : Steps (Int × Int) := do
  let b ← popNumber r
  let a ← popNumber r
  return (a, b)

/-- Shifts by an amount that must not be negative. -/
def shift (r : Rules) (move : Bytes → Nat → Checked Fault Bytes) : Steps Unit := do
  let n ← popNumber r
  require (decide (0 ≤ n)) (.negativeShift (Number.clamp 64 n))
  let b ← pop
  push (← checked (move b (Number.clamp 64 n).toNat))

/-- Works on numbers. -/
def arithmetic (r : Rules) (op : Opcode) : ArithmeticOp → Steps Unit
  | .unary f => do
    pushNumber (f.eval (← popNumber r))
  | .binary f => do
    let (a, b) ← popTwoNumbers r
    pushNumber (f.eval a b)
  | .quotient => do
    let (a, b) ← popTwoNumbers r
    require (decide (b ≠ 0)) .divisionByZero
    pushNumber (← checked (divide a b))
  | .remainder => do
    let (a, b) ← popTwoNumbers r
    require (decide (b ≠ 0)) .remainderByZero
    pushNumber (← checked (remainder a b))
  | .shiftLeft => shift r shiftLeft
  | .shiftRight => shift r shiftRight
  | .compare f checks => do
    let (a, b) ← popTwoNumbers r
    pushNumber (if f.eval a b then 1 else 0)
    if checks then verifyTop op
  | .within => do
    let above ← popNumber r
    let least ← popNumber r
    let n ← popNumber r
    pushTruth (decide (least ≤ n ∧ n < above))

def arithmeticArms : List (Opcode × ArithmeticOp) :=
  [(0x8b, .unary .increment), (0x8c, .unary .decrement), (0x8f, .unary .negate), (0x90, .unary .abs),
    (0x91, .unary .isZero), (0x92, .unary .isNotZero), (0x93, .binary .add), (0x94, .binary .sub),
    (0x95, .binary .mul), (0x96, .quotient), (0x97, .remainder), (0x98, .shiftLeft),
    (0x99, .shiftRight), (0x9a, .compare .both false), (0x9b, .compare .either false),
    (0x9c, .compare .equal false), (0x9d, .compare .equal true), (0x9e, .compare .notEqual false),
    (0x9f, .compare .less false), (0xa0, .compare .greater false), (0xa1, .compare .lessOrEqual false),
    (0xa2, .compare .greaterOrEqual false), (0xa3, .binary .min), (0xa4, .binary .max),
    (0xa5, .within)]

/-! ## They do what the program does -/

theorem tracks_popCondition :
    Tracks ample (Held n) (Held n) Any (popCondition r) (CoinScript.Run.popCondition r) := by
  refine tracks_ite (fun _ => ?_) fun _ => tracks_onMain_same fun _ => Stack.tracks_popTruth
  refine tracks_pop.bind fun b _ => tracks_require_bind fun hlength => ?_
  rw [truth_eq]
  match b, of_decide_eq_true hlength with
  | [], _ => exact tracks_pure trivial
  | [x], _ => exact tracks_require_bind fun _ => tracks_pure trivial
  | _ :: _ :: _, hlength => simp at hlength

/-- An operation that leaves fewer elements more than another one could. -/
theorem tracks_weaken {j k : Nat} {x : Steps α} {y : CoinScript.Run α} {Q : α → Prop}
    (h : Tracks ample (Held n) (Held j) Q x y) (hle : j ≤ k) :
    Tracks ample (Held n) (Held k) Q x y :=
  h.mono (fun _ hm => hm.mono hle) fun _ h => h

theorem tracks_opening (hn : Room ample (n + 1)) (frame : Branch) :
    Tracks ample (Held n) (Held (n + 1)) Any (onBranches (opening frame))
      (CoinScript.Run.onBranches fun b => .ok (b.add frame)) :=
  tracks_onBranches fun _ hk _ hb => opening_spared hb (hn.mono (Nat.succ_le_succ hk)) frame

theorem tracks_flow (hn : Room ample (n + 1)) (executing : Bool) (op : Opcode) (x : FlowOp) :
    Tracks ample (Held n) (Held (n + 1)) Any (flow r executing op x)
      (CoinScript.Run.flow r executing op x) := by
  have hle : n ≤ n + 1 := Nat.le_add_right n 1
  cases x with
  | opening onTrue =>
    exact tracks_ite (fun _ => tracks_popCondition.bind fun _ _ => tracks_opening hn _)
      fun _ => tracks_opening hn _
  | turning =>
    exact tracks_weaken (tracks_onBranches (d := 0) fun _ _ _ hb => turning_spared hb) hle
  | closing =>
    exact tracks_weaken (tracks_onBranches (d := 0) fun _ _ _ hb => closing_spared hb) hle
  | verify => exact tracks_weaken (tracks_verifyTop op) hle
  | giveUp => exact tracks_throw _

theorem tracks_nop {upgradable : Bool} (h : (op != 0x61) = upgradable) :
    Tracks ample (Held n) (Held n) Any (nop r op) (CoinScript.Run.nop r op upgradable) := by
  subst h
  exact tracks_check _ _

/-- A step of the program that leaves the machine as it is. -/
theorem tracks_lift_of_still {I : Machine → Prop} {y : CoinScript.Run α}
    (h : ∀ m a m', y m = .ok a m' → m' = m) : Tracks ample I I Any (lift y) y :=
  tracks_lift fun m a m' hm hy => ⟨trivial, (h m a m' hy).symm ▸ hm⟩

theorem tracks_requireContext {I : Machine → Prop} (op : Opcode) :
    Tracks ample I I (fun c => r.context = some c) (lift (r.requireContext op))
      (r.requireContext op) := by
  refine tracks_lift fun m c m' hm hc => ?_
  obtain ⟨hcontext, rfl⟩ := CoinScript.Run.requireContext_eq_ok hc
  exact ⟨hcontext, hm⟩

theorem checkAbsolute_eq_ok {c : Context} {required : Nat} {m m' : Machine} {u : Unit}
    (h : CoinScript.Run.checkAbsolute r c required m = .ok u m') : m' = m := by
  obtain ⟨_, m₁, hkind, hrest⟩ := bind_eq_ok h
  obtain ⟨_, m₂, hsequence, hlast⟩ := bind_eq_ok hrest
  obtain ⟨-, rfl⟩ := CoinScript.Run.ofExcept_eq_ok hkind
  obtain ⟨-, rfl⟩ := CoinScript.Run.require_eq_ok hlast
  exact (CoinScript.Run.inputSequence_eq_ok hsequence).2

theorem checkRelative_eq_ok {c : Context} {required : Nat} {m m' : Machine} {u : Unit}
    (h : CoinScript.Run.checkRelative r c required m = .ok u m') : m' = m := by
  unfold CoinScript.Run.checkRelative at h
  split at h
  · cases h
    rfl
  · obtain ⟨-, hrest⟩ := CoinScript.Run.require_bind_eq_ok h
    obtain ⟨_, m₁, hsequence, hlast⟩ := bind_eq_ok hrest
    obtain ⟨-, hkind⟩ := CoinScript.Run.require_bind_eq_ok hlast
    obtain ⟨-, rfl⟩ := CoinScript.Run.ofExcept_eq_ok hkind
    exact (CoinScript.Run.inputSequence_eq_ok hsequence).2

theorem tracks_lockTime (h : (op != 0x61) = true) (x : LockTimeOp) :
    Tracks ample (Held n) (Held n) Any (lockTime r op x) (CoinScript.Run.lockTime r op x) := by
  refine tracks_ite (fun _ => ?_) fun _ => tracks_nop h
  refine (tracks_requireContext op).bind fun c _ => ?_
  refine (tracks_onMain_same fun _ => Stack.tracks_peekNumber _ 0).bind fun v _ => ?_
  refine tracks_require_bind fun _ => ?_
  cases x with
  | absolute => exact tracks_lift_of_still fun _ _ _ => checkAbsolute_eq_ok
  | relative => exact tracks_lift_of_still fun _ _ _ => checkRelative_eq_ok

/-! ### Rearranging -/

/-- The blocks of an operation have one, two or three elements. -/
def Blocks : StackOp → Prop
  | .dup k | .copyOver k | .rot k | .swap k => 0 < k ∧ k ≤ 3
  | _ => True

instance : DecidablePred Blocks
  | .dup k | .copyOver k | .rot k | .swap k => inferInstanceAs (Decidable (0 < k ∧ k ≤ 3))
  | .toAlt | .fromAlt | .drop _ | .dupIfTrue | .depth | .nip | .pick | .roll | .tuck =>
    .isTrue trivial

theorem tracks_popIndex :
    Tracks ample (Held n) (Held n) Any (popIndex r) (CoinScript.Run.popIndex r) :=
  (tracks_popNumber r).bind fun _ _ => tracks_require_bind fun _ => tracks_pure trivial

theorem inMemory_encode {k : Nat} {v : Int} (h : Number.Fits k v) (hk : k ≤ addressSpace) :
    InMemory (Number.encode v) := Nat.le_trans (Number.length_encode_le h) hk

/-- The number of bytes or elements that memory holds is written in few bytes. -/
theorem inMemory_encode_length {k : Nat} (h : k ≤ addressSpace) : InMemory (Number.encode k) :=
  inMemory_encode (Number.fits_length h (by decide)) (Nat.le_refl _)

theorem tracks_stack (hn : Room ample (n + 3)) {x : StackOp} (hx : Blocks x) :
    Tracks ample (Held n) (Held (n + 3)) Any (stack r x) (CoinScript.Run.stack r x) := by
  have hword : 9 < wordSize := by decide
  have hone : n + 1 ≤ n + 3 := Nat.le_add_right (n + 1) 2
  have hnext : Room ample (n + 1) := hn.mono hone
  cases x with
  | toAlt =>
    refine tracks_weaken (tracks_pop.bind fun b hb => ?_) hone
    exact tracks_onAlt fun _ hk => Stack.tracks_push (hnext.mono (Nat.succ_le_succ hk)) fun _ => hb
  | fromAlt =>
    refine tracks_weaken ?_ hone
    exact (tracks_onAlt (d := 0) fun _ _ => Stack.tracks_pop).bind fun b hb =>
      tracks_push hnext fun _ => hb
  | drop k =>
    exact tracks_weaken (tracks_onMain_same fun _ => Stack.tracks_drop k) (Nat.le_add_right ..)
  | dup k =>
    obtain ⟨hpos, hle⟩ := hx
    refine tracks_weaken (tracks_onMain fun j hj => ?_) (Nat.add_le_add_left hle n)
    exact Stack.tracks_dup hpos (hn.mono (by omega))
  | copyOver k =>
    obtain ⟨hpos, hle⟩ := hx
    refine tracks_weaken (tracks_onMain fun j hj => ?_) (Nat.add_le_add_left hle n)
    exact Stack.tracks_copyOver hpos (by omega) (hn.mono (by omega))
  | rot k =>
    obtain ⟨hpos, hle⟩ := hx
    refine tracks_weaken (tracks_onMain fun j hj => ?_) (Nat.add_le_add_left hle n)
    exact Stack.tracks_rot hpos (by omega) (hn.mono (by omega))
  | swap k =>
    obtain ⟨hpos, hle⟩ := hx
    refine tracks_weaken (tracks_onMain fun j hj => ?_) (Nat.add_le_add_left hle n)
    exact Stack.tracks_swap hpos (by omega) (hn.mono (by omega))
  | dupIfTrue =>
    refine (tracks_onMain_same fun _ => Stack.tracks_peek 0).bind fun top htop => ?_
    refine .of_ok (truth_eq top) (tracks_ite (fun _ => ?_) fun _ => ?_)
    · exact tracks_weaken (tracks_push hnext fun _ => htop) hone
    · exact tracks_weaken (tracks_pure trivial) (Nat.le_add_right n 3)
  | depth =>
    refine .get_bind fun m hm => ?_
    have hdepth : m.main.length ≤ addressSpace := by
      have hroom := hm.main.room
      omega
    exact Tracks.of_ok (I := Held n) (long_of_le hdepth)
      (tracks_weaken (tracks_pushNumber hnext fun _ => inMemory_encode_length hdepth) hone) m hm
  | nip =>
    exact tracks_weaken (tracks_onMain_same fun _ => Stack.tracks_nip 1) (Nat.le_add_right ..)
  | pick =>
    refine tracks_popIndex.bind fun i _ => tracks_weaken (tracks_onMain fun j hj => ?_) hone
    exact Stack.tracks_pick i (hnext.mono (Nat.succ_le_succ hj))
  | roll =>
    refine tracks_popIndex.bind fun i _ => tracks_weaken (tracks_onMain fun j hj => ?_) hone
    exact Stack.tracks_roll i (hnext.mono (Nat.succ_le_succ hj))
  | tuck => exact tracks_onMain fun j hj => Stack.tracks_tuck (hn.mono (by omega))

/-! ### Cutting and joining -/

theorem resize_of_le {b : Bytes} {size : Nat} (h : b.length ≤ size) :
    resize b size = b ++ List.replicate (size - b.length) 0 := by
  rw [resize, List.take_of_length_le h]

theorem widen_eq {size : Nat} {b : Bytes} (h : b.length < size) :
    widen size b = .ok (Number.widen size b) := by
  have hsub : (sub size 1 : Checked Fault Nat) = .ok (size - 1) := sub_of_le (by omega)
  rcases List.eq_nil_or_concat' b with rfl | ⟨init, last, rfl⟩
  · obtain ⟨size, rfl⟩ : ∃ k, size = k + 1 := ⟨size - 1, by rw [List.length_nil] at h; omega⟩
    have hzeros : resize [] size ++ [0] = List.replicate (size + 1) 0 := by
      rw [resize_of_le (Nat.zero_le _), List.replicate_succ']
      rfl
    exact congrArg Except.ok hzeros
  · rw [List.length_append, List.length_singleton] at h
    have hlength : (init ++ [last &&& 0x7f]).length = (init ++ [last]).length := by simp
    rw [widen, Number.widen]
    simp only [List.getLast?_concat, List.dropLast_concat]
    rw [hsub, ok_bind, resize_of_le (by simp; omega), hlength]
    simp [pure, Except.pure]

theorem tracks_split (hn : Room ample (n + 2)) :
    Tracks ample (Held n) (Held (n + 2)) Any (split r) (CoinScript.Run.split r) := by
  refine (tracks_popNumber r).bind fun k _ => tracks_pop.bind fun b hb => ?_
  refine tracks_require_bind fun hposition => .of_ok (cut_of_le ?_) ?_
  · have hbounds := of_decide_eq_true hposition
    omega
  · have hfront : InMemory (b.take (Number.clamp 64 k).toNat) :=
      Nat.le_trans (List.length_take_le' _ _) hb
    have hback : InMemory (b.drop (Number.clamp 64 k).toNat) :=
      Nat.le_trans (List.drop_sublist _ b).length_le hb
    exact (tracks_push (hn.mono (by omega)) fun _ => hfront).bind fun _ _ =>
      tracks_push hn fun _ => hback

section

variable (hr : ample → Modest r.limits)

include hr

/-- What is not longer than an element may be. -/
theorem inMemory_of_le_element {b : Bytes} (h : b.length ≤ r.limits.maxElementSize) (hyes : ample) :
    InMemory b := Nat.le_trans h (hr hyes).element

theorem tracks_cat (hn : Room ample (n + 1)) :
    Tracks ample (Held n) (Held (n + 1)) Any (cat r) (CoinScript.Run.cat r) := by
  have hword : addressSpace + addressSpace < wordSize := by decide
  refine tracks_pop.bind fun b hb => tracks_pop.bind fun a ha => ?_
  refine .of_ok (add_of_lt ?_) (tracks_require_bind fun hsize => tracks_push hn ?_)
  · exact Nat.lt_of_le_of_lt (Nat.add_le_add ha hb) hword
  · rw [← List.length_append] at hsize
    exact inMemory_of_le_element hr (of_decide_eq_true hsize)

theorem tracks_numToBin (hn : Room ample (n + 1)) :
    Tracks ample (Held n) (Held (n + 1)) Any (numToBin r) (CoinScript.Run.numToBin r) := by
  refine (tracks_popNumber r).bind fun k _ => tracks_pop.bind fun b _ => ?_
  refine tracks_require_bind fun _ => tracks_require_bind fun hsize => .of_ok (minimize_eq b) ?_
  refine tracks_require_bind fun hwide => ?_
  have hsize := of_decide_eq_true hsize
  have hle := of_decide_eq_true hwide
  by_cases heq : (Number.minimize b).length = (Number.clamp 64 k).toNat
  · rw [if_pos heq, if_pos heq]
    exact tracks_push hn (inMemory_of_le_element hr (Nat.le_trans hle hsize))
  · have hlt : (Number.minimize b).length < (Number.clamp 64 k).toNat := by omega
    rw [if_neg heq, if_neg heq]
    refine .of_ok (widen_eq hlt) (tracks_push hn (inMemory_of_le_element hr ?_))
    rwa [Number.length_widen hlt]

theorem tracks_binToNum (hn : Room ample (n + 1)) :
    Tracks ample (Held n) (Held (n + 1)) Any (binToNum r) (CoinScript.Run.binToNum r) := by
  refine tracks_pop.bind fun b _ => .of_ok (minimize_eq b) (tracks_require_bind fun hsize => ?_)
  refine tracks_push hn fun hyes => Nat.le_trans (of_decide_eq_true hsize) ?_
  have hnumber := (hr hyes).number
  omega

theorem tracks_splice (hn : Room ample (n + 3)) (x : SpliceOp) :
    Tracks ample (Held n) (Held (n + 3)) Any (splice r x) (CoinScript.Run.splice r x) := by
  have hone : n + 1 ≤ n + 3 := Nat.le_add_right (n + 1) 2
  have htwo : n + 2 ≤ n + 3 := Nat.le_add_right (n + 2) 1
  cases x with
  | cat => exact tracks_weaken (tracks_cat hr (hn.mono hone)) hone
  | split => exact tracks_weaken (tracks_split (hn.mono htwo)) htwo
  | numToBin => exact tracks_weaken (tracks_numToBin hr (hn.mono hone)) hone
  | binToNum => exact tracks_weaken (tracks_binToNum hr (hn.mono hone)) hone
  | size =>
    refine (tracks_onMain_same fun _ => Stack.tracks_peek 0).bind fun top htop => ?_
    exact .of_ok (long_of_le htop)
      (tracks_weaken (tracks_pushNumber (hn.mono hone) fun _ => inMemory_encode_length htop) hone)

end

/-! ### Bits and numbers -/

/-- A check that may follow at the end. -/
theorem tracks_verify_if {x : Steps Unit} {y : CoinScript.Run Unit} {checks : Bool}
    (h : Tracks ample (Held n) (Held (n + 1)) Any x y) :
    Tracks ample (Held n) (Held (n + 3)) Any
      (x >>= fun _ => if checks then verifyTop op else pure ())
      (y >>= fun _ => if checks then CoinScript.Run.verifyTop op else pure ()) := by
  refine h.bind fun _ _ => tracks_weaken ?_ (Nat.le_add_right (n + 1) 2)
  exact tracks_ite (fun _ => tracks_verifyTop op) fun _ => tracks_pure trivial

theorem tracks_combine (hn : Room ample (n + 1)) (f : UInt8 → UInt8 → UInt8) :
    Tracks ample (Held n) (Held (n + 1)) Any (combine f) (CoinScript.Run.combine f) := by
  refine tracks_pop.bind fun b hb => tracks_pop.bind fun a _ => tracks_require_bind fun _ => ?_
  refine tracks_push hn fun _ => Nat.le_trans ?_ hb
  rw [List.length_zipWith]
  exact Nat.min_le_left _ _

theorem tracks_bitwise (hn : Room ample (n + 3)) (op : Opcode) (x : BitwiseOp) :
    Tracks ample (Held n) (Held (n + 3)) Any (bitwise op x) (CoinScript.Run.bitwise op x) := by
  have hone : n + 1 ≤ n + 3 := Nat.le_add_right (n + 1) 2
  have hnext : Room ample (n + 1) := hn.mono hone
  cases x with
  | invert =>
    refine tracks_weaken (tracks_pop.bind fun b hb => tracks_push hnext fun _ => ?_) hone
    exact Nat.le_trans (Nat.le_of_eq (List.length_map _)) hb
  | and => exact tracks_weaken (tracks_combine hnext _) hone
  | or => exact tracks_weaken (tracks_combine hnext _) hone
  | xor => exact tracks_weaken (tracks_combine hnext _) hone
  | equal checks =>
    exact tracks_pop.bind fun b _ => tracks_pop.bind fun a _ =>
      tracks_verify_if (tracks_pushTruth _ hnext)

theorem tracks_popTwoNumbers :
    Tracks ample (Held n) (Held n)
      (fun p => Number.Fits r.limits.maxNumberLength p.1 ∧
        Number.Fits r.limits.maxNumberLength p.2)
      (popTwoNumbers r) (CoinScript.Run.popTwoNumbers r) :=
  (tracks_popNumber r).bind fun _ hb => (tracks_popNumber r).bind fun _ ha =>
    tracks_pure ⟨ha, hb⟩

theorem tracks_shift (hn : Room ample (n + 1)) {move : Bytes → Nat → Checked Fault Bytes}
    {move' : Bytes → Nat → Bytes} (h : ∀ b k, InMemory b → move b k = .ok (move' b k))
    (hlength : ∀ b k, (move' b k).length = b.length) :
    Tracks ample (Held n) (Held (n + 1)) Any (shift r move) (CoinScript.Run.shift r move') :=
  (tracks_popNumber r).bind fun _ _ => tracks_require_bind fun _ => tracks_pop.bind fun b hb =>
    .of_ok (h b _ hb) (tracks_push hn fun _ => Nat.le_trans (Nat.le_of_eq (hlength b _)) hb)

/-- A truth value is put on the stack as a number. -/
theorem ofTruth_eq (v : Bool) : Number.ofTruth v = Number.encode (if v then 1 else 0) := by
  cases v <;> decide +kernel

theorem pushTruth_eq (v : Bool) :
    CoinScript.Run.pushTruth v = CoinScript.Run.pushNumber (if v then 1 else 0) :=
  congrArg (fun b => CoinScript.Run.push b) (ofTruth_eq v)

/-- Results of operations are longer than two operands by no more than a byte. -/
theorem inMemory_result (hr : ample → Modest r.limits) {v : Int}
    (h : Number.Fits (2 * r.limits.maxNumberLength + 1) v) (hyes : ample) :
    InMemory (Number.encode v) := inMemory_encode h (hr hyes).number

theorem tracks_arithmetic (hr : ample → Modest r.limits) (hn : Room ample (n + 3)) (op : Opcode)
    (x : ArithmeticOp) :
    Tracks ample (Held n) (Held (n + 3)) Any (arithmetic r op x)
      (CoinScript.Run.arithmetic r op x) := by
  have hone : n + 1 ≤ n + 3 := Nat.le_add_right (n + 1) 2
  have hnext : Room ample (n + 1) := hn.mono hone
  have hlength : r.limits.maxNumberLength < 2 * r.limits.maxNumberLength + 1 := by omega
  cases x with
  | unary f =>
    refine tracks_weaken ((tracks_popNumber r).bind fun v hv => tracks_pushNumber hnext ?_) hone
    exact inMemory_result hr ((hv.next (f.natAbs_eval_le v)).mono hlength)
  | binary f =>
    refine tracks_weaken (tracks_popTwoNumbers.bind fun p hp => tracks_pushNumber hnext ?_) hone
    exact inMemory_result hr (f.fits_eval hp.1 hp.2 hlength fun _ => Nat.le_succ _)
  | quotient =>
    refine tracks_weaken (tracks_popTwoNumbers.bind fun p hp => tracks_require_bind fun hb => ?_) hone
    refine .of_ok (divide_of_ne_zero (of_decide_eq_true hb)) (tracks_pushNumber hnext ?_)
    have hle : (p.1.tdiv p.2).natAbs ≤ p.1.natAbs := by
      rw [Int.natAbs_tdiv]
      exact Nat.div_le_self _ _
    exact inMemory_result hr ((hp.1.of_natAbs_le hle).mono (Nat.le_of_lt hlength))
  | remainder =>
    refine tracks_weaken (tracks_popTwoNumbers.bind fun p hp => tracks_require_bind fun hb => ?_) hone
    refine .of_ok (remainder_of_ne_zero (of_decide_eq_true hb)) (tracks_pushNumber hnext ?_)
    have hle : (p.1.tmod p.2).natAbs ≤ p.1.natAbs := by
      rw [Int.natAbs_tmod]
      exact Nat.mod_le _ _
    exact inMemory_result hr ((hp.1.of_natAbs_le hle).mono (Nat.le_of_lt hlength))
  | shiftLeft =>
    exact tracks_weaken (tracks_shift hnext (fun b k hb => shiftLeft_eq hb.lt_wordSize k)
      Bytes.length_shiftLeft) hone
  | shiftRight =>
    exact tracks_weaken (tracks_shift hnext (fun b k _ => shiftRight_eq b k)
      Bytes.length_shiftRight) hone
  | compare f checks =>
    refine tracks_popTwoNumbers.bind fun p _ => ?_
    show Tracks _ _ _ _ _ (CoinScript.Run.pushTruth (f.eval p.1 p.2) >>= _)
    rw [pushTruth_eq]
    refine tracks_verify_if (tracks_pushNumber hnext fun _ => ?_)
    rw [← ofTruth_eq]
    exact Nat.le_trans (Number.length_ofTruth_le _) (by decide)
  | within =>
    refine tracks_weaken ?_ hone
    exact (tracks_popNumber r).bind fun _ _ => (tracks_popNumber r).bind fun _ _ =>
      (tracks_popNumber r).bind fun _ _ => tracks_pushTruth _ hnext

end CoinScript.Checked.Run
