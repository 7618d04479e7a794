import CoinScript.Bytes.Basic

/-!
# Hexadecimal text

Two digits per byte, the high half first.  Written text is in lower case; both cases are read.
Reading works on the UTF-8 bytes of the text: an odd number of them is refused before any digit is
looked at, and a byte that is no digit is reported with its position.
-/

namespace CoinScript

/-- Why a text is not the hexadecimal form of a byte string. -/
inductive HexError
  | oddLength
  /-- The byte at this position is not a hexadecimal digit. -/
  | invalidDigit (byte : UInt8) (position : Nat)
deriving DecidableEq, Repr

namespace Hex

/-- The lower-case digit for a value below sixteen. -/
def digit (n : Nat) : Char := if n < 10 then Char.ofNat (48 + n) else Char.ofNat (87 + n)

/-- The two digits of a byte. -/
def byteDigits (b : UInt8) : List Char := [digit (b.toNat / 16), digit (b.toNat % 16)]

/-- The digits of a byte string. -/
def digits (b : Bytes) : List Char := b.flatMap byteDigits

/-- The hexadecimal form of a byte string. -/
def encode (b : Bytes) : String := String.ofList (digits b)

/-- The value of a digit, given as its character code; both cases are digits. -/
def digitValue (c : UInt8) : Option Nat :=
  if 48 ≤ c ∧ c ≤ 57 then some (c.toNat - 48)
  else if 97 ≤ c ∧ c ≤ 102 then some (c.toNat - 87)
  else if 65 ≤ c ∧ c ≤ 70 then some (c.toNat - 55)
  else none

/-- Reads digits two at a time; `position` is where the next digit stands in the whole text. -/
def decodePairs : (position : Nat) → Bytes → Except HexError Bytes
  | position, high :: low :: rest =>
    match digitValue high, digitValue low with
    | none, _ => .error (.invalidDigit high position)
    | some _, none => .error (.invalidDigit low (position + 1))
    | some h, some l =>
      (decodePairs (position + 2) rest).map (UInt8.ofNat (16 * h + l) :: ·)
  | _, [_] => .error .oddLength
  | _, [] => .ok []

/-- Reads the hexadecimal form of a byte string from the bytes of a text. -/
def decodeBytes (text : Bytes) : Except HexError Bytes :=
  if text.length % 2 = 1 then .error .oddLength else decodePairs 0 text

/-- Reads the hexadecimal form of a byte string from the characters of a text. -/
def decodeChars (text : List Char) : Except HexError Bytes :=
  decodeBytes (text.flatMap String.utf8EncodeChar)

/-- Reads the hexadecimal form of a byte string. -/
def decode (text : String) : Except HexError Bytes := decodeChars text.toList

/-- The digits of a number, without leading zeros. -/
def ofNat (n : Nat) : String := String.ofList (Nat.toDigits 16 n)

/-- The digits of a byte: always two. -/
def ofByte (b : UInt8) : String := String.ofList (byteDigits b)

/-- A byte string as a bracketed list of two-digit bytes. -/
def list (b : Bytes) : String := "[" ++ ", ".intercalate (b.map ofByte) ++ "]"

/-- A character of the first 256 as it is quoted in messages: control characters, the quote, the
backslash and the invisible characters are escaped. -/
def quotedByte (b : UInt8) : String :=
  if b = 0 then "'\\0'"
  else if b = 9 then "'\\t'"
  else if b = 10 then "'\\n'"
  else if b = 13 then "'\\r'"
  else if b = 39 then "'\\''"
  else if b = 92 then "'\\\\'"
  else if b < 32 ∨ (127 ≤ b ∧ b ≤ 160) ∨ b = 173 then "'\\u\x7b" ++ ofNat b.toNat ++ "\x7d'"
  else "'" ++ String.singleton (Char.ofNat b.toNat) ++ "'"

@[simp] theorem length_byteDigits (b : UInt8) : (byteDigits b).length = 2 := rfl

/-- Two digits are written for each byte. -/
theorem length_digits (b : Bytes) : (digits b).length = 2 * b.length := by
  induction b with
  | nil => rfl
  | cons x xs ih =>
    rw [digits, List.flatMap_cons, List.length_append, ← digits, ih, length_byteDigits,
      List.length_cons]
    omega

end Hex

namespace HexError

/-- The error in words. -/
def message : HexError → String
  | oddLength => "Odd number of digits"
  | invalidDigit byte position =>
    s!"Invalid character {Hex.quotedByte byte} at position {position}"

end HexError

end CoinScript
