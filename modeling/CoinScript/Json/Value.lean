import CoinScript.Json.Token

/-!
# JSON documents

A document is one value and nothing else but spaces.  Objects keep their members in order, repeated
names included.  A record can be written as an object or as the array of its fields in order;
`Json.fields` reads either form.
-/

namespace CoinScript

/-- A JSON value. -/
inductive Json
  | null
  | bool (v : Bool)
  /-- A number as it is written. -/
  | number (text : List Char)
  /-- A string, with its text if it stands for one. -/
  | string (text : Option (List Char))
  | array (items : List Json)
  | object (members : List (Option (List Char) × Json))

namespace Json

mutual

/-- Reads a value from the front. -/
def readValue : (limit : Nat) → List Token → Option (Json × List Token)
  | 0, _ => none
  | limit + 1, tokens =>
    match tokens with
    | .null :: rest => some (.null, rest)
    | .bool v :: rest => some (.bool v, rest)
    | .number text :: rest => some (.number text, rest)
    | .string text :: rest => some (.string text, rest)
    | .openArray :: .closeArray :: rest => some (.array [], rest)
    | .openArray :: rest => do
      let (items, rest) ← readItems limit rest
      return (.array items, rest)
    | .openObject :: .closeObject :: rest => some (.object [], rest)
    | .openObject :: rest => do
      let (members, rest) ← readMembers limit rest
      return (.object members, rest)
    | _ => none

/-- Reads the items of an array, of which there is at least one. -/
def readItems : (limit : Nat) → List Token → Option (List Json × List Token)
  | 0, _ => none
  | limit + 1, tokens => do
    let (item, rest) ← readValue limit tokens
    match rest with
    | .closeArray :: rest => return ([item], rest)
    | .comma :: rest =>
      let (items, rest) ← readItems limit rest
      return (item :: items, rest)
    | _ => none

/-- Reads the members of an object, of which there is at least one. -/
def readMembers : (limit : Nat) → List Token →
    Option (List (Option (List Char) × Json) × List Token)
  | 0, _ => none
  | limit + 1, tokens =>
    match tokens with
    | .string name :: .colon :: rest => do
      let (value, rest) ← readValue limit rest
      match rest with
      | .closeObject :: rest => return ([(name, value)], rest)
      | .comma :: rest =>
        let (members, rest) ← readMembers limit rest
        return ((name, value) :: members, rest)
      | _ => none
    | _ => none

end

/-- Reads a document.  Each token takes at most two steps. -/
def parse (text : String) : Option Json := do
  let tokens ← Token.ofText text
  match ← readValue (2 * tokens.length + 1) tokens with
  | (value, []) => return value
  | _ => none

/-- The text of a string. -/
def asText : Json → Option String
  | string (some text) => some (String.ofList text)
  | _ => none

/-- The string with a text. -/
def ofText (text : String) : Json := string (some text.toList)

/-- The number with a value. -/
def ofNat (n : Nat) : Json := number (Nat.toDigits 10 n)

/-- The record with the given fields. -/
def record (members : List (String × Json)) : Json :=
  object (members.map fun m => (some m.1.toList, m.2))

/-- The whole number below a bound, written in digits alone. -/
def asNat (bound : Nat) : Json → Option Nat
  | number text =>
    let value := Nat.ofDigitChars 10 text 0
    if text.all Char.isDigit ∧ value < bound then some value else none
  | _ => none

/-- The items of an array. -/
def asList : Json → Option (List Json)
  | array items => some items
  | _ => none

/-- The array of the values of bytes. -/
def ofBytes (b : Bytes) : Json := array (b.map fun x => ofNat x.toNat)

/-- The bytes with the values in an array. -/
def asBytes (v : Json) : Option Bytes := do
  (← v.asList).mapM fun x => (x.asNat 256).map UInt8.ofNat

/-- The name of a choice: its string, or an object whose only member has that name and the value
null. -/
def asName : Json → Option String
  | string (some text) => some (String.ofList text)
  | object [(some text, null)] => some (String.ofList text)
  | _ => none

/-- The choice with the name that a value gives, out of those that there are. -/
def asChoice {α : Type} (choices : List α) (name : α → String) (v : Json) : Option α := do
  let asked ← v.asName
  choices.find? fun c => name c == asked

/-- The truth value. -/
def asBool : Json → Option Bool
  | bool v => some v
  | _ => none

/-- Every member has a name that stands for a text. -/
def namesReadable (members : List (Option (List Char) × Json)) : Bool :=
  members.all fun m => m.1.isSome

/-- The values of the members with a name. -/
def valuesOf (name : String) (members : List (Option (List Char) × Json)) : List Json :=
  (members.filter fun m => m.1 == some name.toList).map (·.2)

/-- The one field of each name, or nothing for a name that is missing.  A name that is repeated is
refused; names that are not asked for are passed over. -/
def fieldsOf (members : List (Option (List Char) × Json)) :
    (names : List String) → Option (List (Option Json))
  | [] => some []
  | name :: names =>
    match valuesOf name members with
    | [] => (fieldsOf members names).map (none :: ·)
    | [value] => (fieldsOf members names).map (some value :: ·)
    | _ => none

/-- The fields of a record, written as an object or as an array.  Only an object may leave fields
out. -/
def fields (names : List String) : Json → Option (List (Option Json))
  | array items => if items.length = names.length then some (items.map some) else none
  | object members => if namesReadable members then fieldsOf members names else none
  | _ => none

end Json

end CoinScript
