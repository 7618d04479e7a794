import CoinScript.Json.Value
import CoinScript.Spend.Verify

/-!
# Verification reports in JSON documents

A report is the record of `valid`, `diagnostic` and `error`, and an error is null or the record of
`code` and `description`.  A code is a choice by name.
-/

namespace CoinScript

namespace FailureCode

/-- The value of a code. -/
def toJson (c : FailureCode) : Json := .ofText c.name

/-- The code of a value. -/
def ofJson (v : Json) : Option FailureCode := v.asChoice all name

end FailureCode

namespace Failure

/-- The value of a failure. -/
def toJson (f : Failure) : Json :=
  .record [("code", f.code.toJson), ("description", .ofText f.description)]

/-- The failure of a value. -/
def ofJson (v : Json) : Option Failure := do
  match ← v.fields ["code", "description"] with
  | [some code, some description] => return ⟨← FailureCode.ofJson code, ← description.asText⟩
  | _ => none

end Failure

namespace Verification

/-- The value of a report. -/
def toJson (v : Verification) : Json :=
  .record [("valid", .bool v.valid), ("diagnostic", .ofText v.diagnostic),
    ("error", match v.error with
      | some f => f.toJson
      | none => .null)]

/-- The failure of a report, which may be left out or null. -/
def errorOfJson : Option Json → Option (Option Failure)
  | none | some .null => some none
  | some v => (Failure.ofJson v).map some

/-- The report of a value. -/
def ofJson (v : Json) : Option Verification := do
  match ← v.fields ["valid", "diagnostic", "error"] with
  | [some valid, some diagnostic, error] =>
    return ⟨← valid.asBool, ← diagnostic.asText, ← errorOfJson error⟩
  | _ => none

end Verification

end CoinScript
