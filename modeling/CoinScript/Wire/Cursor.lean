import CoinScript.Wire.VarInt

/-!
# Reading wire data

A `Cursor` is what is left of the data together with the number of bytes already read.  A `Reader`
moves a cursor forward or fails; a failing reader leaves the cursor where the last of its parts
stopped, so a failed fixed-size read does not move it and a failed length-prefixed read stands
after the prefix.

The sum of `position` and `remaining` never changes (`take_total`), which is why the position stays
within the data.
-/

namespace CoinScript

/-- Why wire data cannot be read. -/
inductive WireError
  /-- The data ends inside a field. -/
  | unexpectedEnd
deriving DecidableEq, Repr

namespace WireError

/-- The error in words. -/
def message : WireError → String
  | unexpectedEnd => "unexpected end of data"

end WireError

/-- A place in wire data. -/
structure Cursor where
  /-- Bytes read so far. -/
  position : Nat
  /-- Bytes still to be read. -/
  rest : Bytes
deriving DecidableEq

namespace Cursor

/-- The start of the data. -/
def start (data : Bytes) : Cursor := ⟨0, data⟩

/-- Number of bytes still to be read. -/
def remaining (c : Cursor) : Nat := c.rest.length

/-- The cursor after the next `n` bytes. -/
def advance (c : Cursor) (n : Nat) : Cursor := ⟨c.position + n, c.rest.drop n⟩

end Cursor

/-- A step that reads wire data, failing with `ε`. -/
abbrev Reader (ε α : Type) := EStateM ε Cursor α

namespace Reader

/-- The next `n` bytes. -/
def take (n : Nat) : Reader WireError Bytes := fun c =>
  if n ≤ c.rest.length then .ok (c.rest.take n) (c.advance n) else .error .unexpectedEnd c

/-- A little-endian number of `w` bytes. -/
def number (w : Nat) : Reader WireError Nat := do
  return Bytes.toNatLE (← take w)

/-- One byte. -/
def u8 : Reader WireError UInt8 := do
  return UInt8.ofNat (← number 1)

/-- A little-endian 16-bit word. -/
def u16 : Reader WireError UInt16 := do
  return UInt16.ofNat (← number 2)

/-- A little-endian 32-bit word. -/
def u32 : Reader WireError UInt32 := do
  return UInt32.ofNat (← number 4)

/-- A little-endian 64-bit word. -/
def u64 : Reader WireError UInt64 := do
  return UInt64.ofNat (← number 8)

/-- A block of `n` bytes. -/
def block (n : Nat) : Reader WireError (Block n) := fun c =>
  if h : n ≤ c.rest.length then
    .ok ⟨c.rest.take n, List.length_take_of_le h⟩ (c.advance n)
  else .error .unexpectedEnd c

/-- A variable-length count, in any of its forms. -/
def varInt : Reader WireError Nat := do
  let marker ← u8
  if marker = 0xff then return (← u64).toNat
  else if marker = 0xfe then return (← u32).toNat
  else if marker = 0xfd then return (← u16).toNat
  else return marker.toNat

/-- A byte string behind its length. -/
def varBytes : Reader WireError Bytes := do
  take (← varInt)

/-- The same reader with its failures renamed. -/
def mapError {ε δ α : Type} (f : ε → δ) (r : Reader ε α) : Reader δ α := fun c =>
  match r c with
  | .ok a c => .ok a c
  | .error e c => .error (f e) c

/-- `n` readings in a row. -/
def many {ε α : Type} : (n : Nat) → Reader ε α → Reader ε (List α)
  | 0, _ => pure []
  | n + 1, r => do
    let a ← r
    return a :: (← many n r)

/-- Where a reading left off, whether it failed or not. -/
def stop {ε α : Type} : EStateM.Result ε Cursor α → Cursor
  | .ok _ c => c
  | .error _ c => c

theorem take_of_le {n : Nat} {c : Cursor} (h : n ≤ c.rest.length) :
    take n c = .ok (c.rest.take n) (c.advance n) := if_pos h

theorem take_of_lt {n : Nat} {c : Cursor} (h : c.rest.length < n) :
    take n c = .error .unexpectedEnd c := if_neg (Nat.not_le.mpr h)

/-- What is read and what is left always add up to the data. -/
theorem take_total (n : Nat) (c : Cursor) :
    (stop (take n c)).position + (stop (take n c)).remaining = c.position + c.remaining := by
  by_cases h : n ≤ c.rest.length
  · rw [take_of_le h]
    simp only [stop, Cursor.advance, Cursor.remaining, List.length_drop]
    omega
  · rw [take_of_lt (Nat.lt_of_not_le h)]
    rfl

end Reader

end CoinScript
