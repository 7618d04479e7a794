import CoinScript.Script.Basic

/-!
# Scripts as text

A script is written as words with a space between them: a push with a payload as the hexadecimal
form of its payload, and any other instruction as the name of its opcode.  Reading takes a word for
an opcode if it is a name, and otherwise for the payload of a push, which it writes with the
shortest header; so a push may come back with a shorter header than it had.
-/

namespace CoinScript

namespace Text

/-- The characters that separate words: those of the Unicode property White_Space. -/
def isBlank (c : Char) : Bool :=
  let n := c.toNat
  decide ((9 ≤ n ∧ n ≤ 13) ∨ n = 0x20 ∨ n = 0x85 ∨ n = 0xa0 ∨ n = 0x1680 ∨
    (0x2000 ≤ n ∧ n ≤ 0x200a) ∨ n = 0x2028 ∨ n = 0x2029 ∨ n = 0x202f ∨ n = 0x205f ∨ n = 0x3000)

/-- The text cut at every blank character; neighbouring blanks leave an empty piece between
them. -/
def pieces : List Char → List (List Char)
  | [] => [[]]
  | c :: cs =>
    if isBlank c then [] :: pieces cs
    else
      match pieces cs with
      | [] => [[c]]
      | p :: ps => (c :: p) :: ps

/-- The longest runs of characters that are not blank. -/
def words (cs : List Char) : List (List Char) := (pieces cs).filter (· ≠ [])

end Text

namespace Instruction

/-- The word for an instruction. -/
def word (i : Instruction) : List Char :=
  match i.payload with
  | some b => if Opcode.carriesData i.code then Hex.digits b else i.code.name.toList
  | none => i.code.name.toList

end Instruction

namespace Script

/-- The script as text; a script that does not decode has none. -/
def toText (s : Script) : String :=
  match decode s with
  | .ok is => String.ofList ([' '].intercalate (is.map Instruction.word))
  | .error _ => ""

/-- The bytes that a word stands for. -/
def ofWord (word : List Char) : Except ScriptError Script :=
  match Opcode.ofName? (String.ofList word) with
  | some op => .ok [op]
  | none =>
    match Hex.decodeChars word with
    | .ok b => pushed b
    | .error _ => .error (.badWord (String.ofList word))

/-- The bytes that a list of words stands for. -/
def ofWords : List (List Char) → Except ScriptError Script
  | [] => .ok []
  | w :: ws => do
    let front ← ofWord w
    return front ++ (← ofWords ws)

/-- Reads a script from text. -/
def ofText (text : String) : Except ScriptError Script := ofWords (Text.words text.toList)

end Script

end CoinScript
