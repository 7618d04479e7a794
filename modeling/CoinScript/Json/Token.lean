import CoinScript.Bytes.Hex

/-!
# JSON tokens

The words of a JSON document.  The text of a string is kept as the list of its characters, or as
nothing if it escapes half of a surrogate pair: such a string is well formed, but there is no text
that it stands for.  A number is kept as it is written.
-/

namespace CoinScript.Json

/-- A word of a document. -/
inductive Token
  | openObject
  | closeObject
  | openArray
  | closeArray
  | colon
  | comma
  | null
  | bool (v : Bool)
  | number (text : List Char)
  | string (text : Option (List Char))
deriving DecidableEq, Repr

namespace Token

/-- The characters that may stand between words. -/
def isSpace (c : Char) : Bool := c == ' ' || c == '\n' || c == '\t' || c == '\r'

/-- The value of a hexadecimal digit. -/
def hexValue (c : Char) : Option Nat :=
  if c.toNat < 128 then Hex.digitValue (UInt8.ofNat c.toNat) else none

/-- The number with the four given hexadecimal digits. -/
def hexUnit (a b c d : Char) : Option Nat := do
  return 4096 * (← hexValue a) + 256 * (← hexValue b) + 16 * (← hexValue c) + (← hexValue d)

/-- The character of a short escape. -/
def shortEscape (c : Char) : Option Char :=
  match c with
  | '\x22' | '\\' | '/' => some c
  | 'b' => some (Char.ofNat 8)
  | 'f' => some (Char.ofNat 12)
  | 'n' => some '\n'
  | 'r' => some '\r'
  | 't' => some '\t'
  | _ => none

/-- The units of a string up to the closing quote, and what follows it.  A unit is the code of a
character or an escaped number. -/
def stringUnits : List Char → Option (List Nat × List Char)
  | '\x22' :: rest => some ([], rest)
  | '\\' :: 'u' :: a :: b :: c :: d :: rest => do
    let unit ← hexUnit a b c d
    let (units, rest) ← stringUnits rest
    return (unit :: units, rest)
  | '\\' :: e :: rest => do
    let c ← shortEscape e
    let (units, rest) ← stringUnits rest
    return (c.toNat :: units, rest)
  | c :: rest =>
    if c.toNat < 0x20 ∨ c = '\\' then none
    else do
      let (units, rest) ← stringUnits rest
      return (c.toNat :: units, rest)
  | [] => none

/-- The characters of a list of units, in which the halves of a pair have to follow each other. -/
def unitText : List Nat → Option (List Char)
  | [] => some []
  | [u] => if 0xd800 ≤ u ∧ u < 0xe000 then none else some [Char.ofNat u]
  | u :: v :: rest =>
    if 0xd800 ≤ u ∧ u < 0xdc00 then
      if 0xdc00 ≤ v ∧ v < 0xe000 then
        (unitText rest).map (Char.ofNat (0x10000 + 0x400 * (u - 0xd800) + (v - 0xdc00)) :: ·)
      else none
    else if 0xdc00 ≤ u ∧ u < 0xe000 then none
    else (unitText (v :: rest)).map (Char.ofNat u :: ·)

/-- What follows one or more digits. -/
def afterDigits (cs : List Char) : Option (List Char) :=
  match cs with
  | c :: rest => if c.isDigit then some (rest.dropWhile Char.isDigit) else none
  | [] => none

/-- What follows the whole part of a number: a zero, or digits that do not start with one. -/
def afterWhole : List Char → Option (List Char)
  | '0' :: rest => some rest
  | cs => afterDigits cs

/-- What follows the places after the point, if there are any. -/
def afterFraction : List Char → Option (List Char)
  | '.' :: rest => afterDigits rest
  | cs => some cs

/-- What follows the exponent, if there is one. -/
def afterExponent : List Char → Option (List Char)
  | e :: rest =>
    if e == 'e' || e == 'E' then
      match rest with
      | '+' :: digits | '-' :: digits => afterDigits digits
      | digits => afterDigits digits
    else some (e :: rest)
  | [] => some []

/-- What follows a number. -/
def afterNumber (cs : List Char) : Option (List Char) := do
  afterExponent (← afterFraction (← afterWhole (match cs with | '-' :: rest => rest | _ => cs)))

/-- The first word of a text that does not start with a space, and what follows it. -/
def first : List Char → Option (Token × List Char)
  | '\x7b' :: rest => some (.openObject, rest)
  | '\x7d' :: rest => some (.closeObject, rest)
  | '[' :: rest => some (.openArray, rest)
  | ']' :: rest => some (.closeArray, rest)
  | ':' :: rest => some (.colon, rest)
  | ',' :: rest => some (.comma, rest)
  | 'n' :: 'u' :: 'l' :: 'l' :: rest => some (.null, rest)
  | 't' :: 'r' :: 'u' :: 'e' :: rest => some (.bool true, rest)
  | 'f' :: 'a' :: 'l' :: 's' :: 'e' :: rest => some (.bool false, rest)
  | '\x22' :: rest => do
    let (units, rest) ← stringUnits rest
    return (.string (unitText units), rest)
  | cs => do
    let rest ← afterNumber cs
    return (.number (cs.take (cs.length - rest.length)), rest)

/-- The words of a text, of which at most `limit` are read. -/
def scan : (limit : Nat) → List Char → Option (List Token)
  | 0, _ => none
  | limit + 1, cs =>
    match cs.dropWhile isSpace with
    | [] => some []
    | text => do
      let (token, rest) ← first text
      return token :: (← scan limit rest)

/-- The words of a text: there are at most as many as characters. -/
def ofText (text : String) : Option (List Token) := scan (text.length + 1) text.toList

end Token

end CoinScript.Json
