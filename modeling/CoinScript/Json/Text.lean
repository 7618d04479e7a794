import CoinScript.Json.Value

/-!
# The text of a JSON document

`Json.render` writes a value without spaces.  In a string only the quote, the backslash and the
control characters are escaped, the latter by their short escape if there is one.
-/

namespace CoinScript.Json

/-- A character inside a string. -/
def renderChar (c : Char) : List Char :=
  match c with
  | '\x22' => ['\\', '\x22']
  | '\\' => ['\\', '\\']
  | '\n' => ['\\', 'n']
  | '\r' => ['\\', 'r']
  | '\t' => ['\\', 't']
  | '\x08' => ['\\', 'b']
  | '\x0c' => ['\\', 'f']
  | _ =>
    if c.toNat < 0x20 then
      ['\\', 'u', '0', '0', Nat.digitChar (c.toNat / 16), Nat.digitChar (c.toNat % 16)]
    else [c]

/-- A string.  One that stands for no text is written as half of a surrogate pair. -/
def renderString : Option (List Char) → List Char
  | some text => '\x22' :: (text.flatMap renderChar ++ ['\x22'])
  | none => ['\x22', '\\', 'u', 'd', '8', '0', '0', '\x22']

mutual

/-- The characters of a value. -/
def renderValue : Json → List Char
  | .null => ['n', 'u', 'l', 'l']
  | .bool true => ['t', 'r', 'u', 'e']
  | .bool false => ['f', 'a', 'l', 's', 'e']
  | .number text => text
  | .string text => renderString text
  | .array items => '[' :: (renderItems items ++ [']'])
  | .object members => '\x7b' :: (renderMembers members ++ ['\x7d'])

/-- The characters of the items of an array. -/
def renderItems : List Json → List Char
  | [] => []
  | [item] => renderValue item
  | item :: items => renderValue item ++ ',' :: renderItems items

/-- The characters of the members of an object. -/
def renderMembers : List (Option (List Char) × Json) → List Char
  | [] => []
  | [(name, value)] => renderString name ++ ':' :: renderValue value
  | (name, value) :: members =>
    renderString name ++ ':' :: (renderValue value ++ ',' :: renderMembers members)

end

/-- The text of a document. -/
def render (v : Json) : String := String.ofList (renderValue v)

end CoinScript.Json
