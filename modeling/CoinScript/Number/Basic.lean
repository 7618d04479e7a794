import CoinScript.Bytes.Hex
import CoinScript.Bytes.Long

/-!
# Numbers and truth values on the stack

Stack elements are byte strings.  Read as a number, an element is little-endian with the sign in
the highest bit of its last byte, so that `[0x80]` is a negative zero and a number has many forms,
one of which is shortest.

* `value` reads any byte string and `encode` writes the shortest form of a number.
* `decode` reads an operand: it has a greatest length and may have to be in shortest form.
* `minimize` shortens a byte string without going through the number.
* `truth` reads an element as a truth value: false if it is zero, negative zero included.
-/

namespace CoinScript

/-- Why an element is not accepted as an operand. -/
inductive NumberError
  | tooLong (element : Bytes) (maxLength : Nat)
  | notMinimal (element : Bytes)
deriving DecidableEq, Repr

namespace NumberError

/-- The error in words. -/
def message : NumberError → String
  | tooLong element maxLength =>
    s!"numeric value encoded as {Hex.list element} is {element.length} bytes " ++
      s!"which exceeds the max allowed of {maxLength}"
  | notMinimal element =>
    s!"numeric value encoded as {Hex.list element} is not minimally encoded"

end NumberError

namespace Number

/-- What an operand has to look like. -/
structure Format where
  maxLength : Nat
  /-- Only shortest forms are accepted. -/
  minimal : Bool
deriving DecidableEq, Repr

/-- The number that a byte string stands for. -/
def value (b : Bytes) : Int :=
  match b.getLast? with
  | none => 0
  | some last =>
    let magnitude := Bytes.longValue (b.dropLast ++ [last &&& 0x7f])
    if last < 0x80 then (magnitude : Int) else -(magnitude : Int)

/-- The shortest form of a number; zero is empty. -/
def encode (n : Int) : Bytes :=
  let digits := Bytes.longDigits n.natAbs
  match digits.getLast? with
  | none => []
  | some last =>
    if 0x80 ≤ last then digits ++ [if n < 0 then 0x80 else 0x00]
    else if n < 0 then digits.dropLast ++ [last ||| 0x80]
    else digits

/-- Nothing but the sign is in the last byte, and the byte before has room for the sign. -/
def isPadded (b : Bytes) : Bool :=
  match b.reverse with
  | [] => false
  | [last] => last &&& 0x7f == 0
  | last :: before :: _ => last &&& 0x7f == 0 && decide (before < 0x80)

/-- Refuses a form that is not the shortest. -/
def checkMinimal (b : Bytes) : Except NumberError Unit :=
  if isPadded b then .error (.notMinimal b) else .ok ()

/-- Reads an operand. -/
def decode (format : Format) (b : Bytes) : Except NumberError Int :=
  if format.maxLength < b.length then .error (.tooLong b format.maxLength)
  else if format.minimal && isPadded b then .error (.notMinimal b)
  else .ok (value b)

/-- The shortest form of the number that a byte string stands for, found on the bytes: zeros above
the last significant byte go, and the sign moves down to it if it has room. -/
def minimize (b : Bytes) : Bytes :=
  match b.getLast? with
  | none => []
  | some last =>
    if last &&& 0x7f ≠ 0 then b
    else
      match b.dropLast.reverse.dropWhile (· == 0) with
      | [] => []
      | top :: below =>
        if 0x80 ≤ top then (top :: below).reverse ++ [last] else below.reverse ++ [top ||| last]

/-- A shortest form brought to `size` bytes, which are more than it has: zeros go between its
digits and its sign. -/
def widen (size : Nat) (b : Bytes) : Bytes :=
  match b.getLast? with
  | none => List.replicate size 0
  | some last =>
    b.dropLast ++ (last &&& 0x7f) :: List.replicate (size - 1 - b.length) 0 ++ [last &&& 0x80]

/-- The truth value of an element. -/
def truth : Bytes → Bool
  | [] => false
  | [last] => last != 0 && last != 0x80
  | b :: bs => b != 0 || truth bs

/-- The element for a truth value. -/
def ofTruth (v : Bool) : Bytes := if v then [1] else []

/-- The nearest number that fits into `bits` bits with a sign. -/
def clamp (bits : Nat) (n : Int) : Int :=
  let bound : Int := ((1 <<< (bits - 1) : Nat) : Int)
  max (-bound) (min n (bound - 1))

end Number

end CoinScript
