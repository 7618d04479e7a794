import CoinScript.Machine.Fault

/-!
# The stack

A stack is the list of its elements, top first.  Operations on it are `StackM` computations: they
fail with a fault and, when they fail, leave the stack as far changed as they had come, so that
popping two elements from a stack of one fails with the stack empty.

The block operations `dup`, `copyOver`, `rot` and `swap` on blocks of `n` elements repeat one
elementary move `n` times: the element taken stands at the same depth each time, since everything
above it has moved down by one.  That depth is computed with words (`lastDepth`), so it is the right
one only for as many elements as a word can count.
-/

namespace CoinScript

/-- The elements of a stack, top first. -/
abbrev Stack := List Bytes

/-- A computation on a stack. -/
abbrev StackM (α : Type) := EStateM Fault Stack α

namespace Stack

/-- Puts an element on top. -/
def push (b : Bytes) : StackM Unit := modify (b :: ·)

/-- Puts a number on top, in shortest form. -/
def pushNumber (n : Int) : StackM Unit := push (Number.encode n)

/-- Puts a truth value on top. -/
def pushTruth (v : Bool) : StackM Unit := push (Number.ofTruth v)

/-- The element at a depth; the top is at depth zero. -/
def peek (index : Nat) : StackM Bytes := fun s =>
  match s[index]? with
  | some b => .ok b s
  | none => .error (.noElement index s.length) s

/-- Takes out the element at a depth. -/
def take (index : Nat) : StackM Bytes := fun s =>
  match s[index]? with
  | some b => .ok b (s.eraseIdx index)
  | none => .error (.noElement index s.length) s

/-- Takes the top. -/
def pop : StackM Bytes := take 0

/-- Reads an element as an operand. -/
def asNumber (format : Number.Format) (b : Bytes) : StackM Int :=
  match Number.decode format b with
  | .ok n => pure n
  | .error cause => throw (.number cause)

/-- Takes the top as an operand. -/
def popNumber (format : Number.Format) : StackM Int := do
  asNumber format (← pop)

/-- Takes the top as a truth value. -/
def popTruth : StackM Bool := do
  return Number.truth (← pop)

/-- The operand at a depth. -/
def peekNumber (format : Number.Format) (index : Nat) : StackM Int := do
  asNumber format (← peek index)

/-- The truth value at a depth. -/
def peekTruth (index : Nat) : StackM Bool := do
  return Number.truth (← peek index)

/-- `n` elements from the top, the topmost first. -/
def popMany : (n : Nat) → StackM (List Bytes)
  | 0 => return []
  | n + 1 => do
    let b ← pop
    return b :: (← popMany n)

/-- The same move, `n` times. -/
def times (move : StackM Unit) : (n : Nat) → StackM Unit
  | 0 => return ()
  | n + 1 => do
    move
    times move n

/-- Puts a copy of the element at a depth on top. -/
def pick (index : Nat) : StackM Unit := do
  push (← peek index)

/-- Moves the element at a depth to the top. -/
def roll (index : Nat) : StackM Unit := do
  push (← take index)

/-- Removes the element at a depth. -/
def nip (index : Nat) : StackM Unit := do
  let _ ← take index

/-- Removes `n` elements from the top. -/
def drop (n : Nat) : StackM Unit :=
  times (do let _ ← pop) n

/-- The depth of the last element in `blocks` blocks of `n`, computed with words that run over. -/
def lastDepth (blocks n : Nat) : Nat := (UInt64.ofNat (blocks * n) - 1).toNat

/-- Copies the topmost block of `n`. -/
def dup (n : Nat) : StackM Unit := times (pick (n - 1)) n

/-- Copies the second block of `n` to the top. -/
def copyOver (n : Nat) : StackM Unit := times (pick (lastDepth 2 n)) n

/-- Exchanges the two topmost blocks of `n`. -/
def swap (n : Nat) : StackM Unit := times (roll (lastDepth 2 n)) n

/-- Moves the third block of `n` to the top. -/
def rot (n : Nat) : StackM Unit := times (roll (lastDepth 3 n)) n

/-- Puts a copy of the top below the second element. -/
def tuck : StackM Unit := do
  let top ← pop
  let second ← pop
  push top
  push second
  push top

/-! ## The depth of a block -/

theorem lastDepth_eq_mod (blocks n : Nat) :
    lastDepth blocks n =
      (blocks * n % 0x10000000000000000 + 0xffffffffffffffff) % 0x10000000000000000 := by
  rw [lastDepth, UInt64.toNat_sub, UInt64.toNat_ofNat', Nat.add_comm]
  rfl

/-- Where a word can count the elements, the last one is as deep as their number says. -/
theorem lastDepth_eq {blocks n : Nat} (hpos : 0 < blocks * n) (hword : blocks * n < UInt64.size) :
    lastDepth blocks n = blocks * n - 1 := by
  rw [lastDepth_eq_mod, Nat.mod_eq_of_lt hword]
  have hsize : blocks * n < 0x10000000000000000 := hword
  omega

/-- It is never too deep.  Where a word cannot count the elements it comes out too small. -/
theorem lastDepth_lt {blocks n : Nat} (hpos : 0 < blocks * n) :
    lastDepth blocks n < blocks * n := by
  rw [lastDepth_eq_mod]
  omega

end Stack

end CoinScript
