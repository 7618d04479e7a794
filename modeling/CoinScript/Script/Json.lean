import CoinScript.Json.Value
import CoinScript.Script.Basic

/-!
# Scripts in JSON documents

A script is the string of its hexadecimal form.
-/

namespace CoinScript.Script

/-- The value of a script. -/
def toJson (s : Script) : Json := .ofText (Hex.encode s)

/-- The script of a value. -/
def ofJson (v : Json) : Option Script := do
  match Hex.decode (← v.asText) with
  | .ok b => return b
  | .error _ => none

end CoinScript.Script
