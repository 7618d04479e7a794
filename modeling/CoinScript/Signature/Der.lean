import CoinScript.Signature.Basic

/-!
# Signatures as DER

A signature is written `30 len 02 len R 02 len S`, with `R` and `S` the shortest big-endian forms
of the two numbers, a zero byte in front where the first bit would otherwise be set.

* `Signature.toDer` writes this form.
* `Der.split` checks the form without looking at the values; `Signature.ofDer` also requires both
  values to lie between 1 and the order less 1.
* `Signature.ofDerLax` is the reader for scripts that do not ask for strict encodings: lengths may
  be in the long form and padded, numbers may be padded, the outer length is skipped, and whatever
  follows the second number is ignored.
-/

namespace CoinScript

/-- One of the two numbers of a signature. -/
inductive Component
  | r
  | s
deriving DecidableEq, Repr

/-- The rule that an encoded signature breaks. -/
inductive DerError
  | tooShort
  | tooLong
  | invalidSequenceTag
  | sequenceLengthMismatch
  | missingIntegerTag (which : Component)
  | zeroLengthInteger (which : Component)
  | integerLengthOverflow (which : Component)
  | negativeInteger (which : Component)
  | excessivePadding (which : Component)
  | integerTooLarge (which : Component)
  | zeroValue (which : Component)
  | outOfRange (which : Component)
  | trailingBytes
deriving DecidableEq, Repr

namespace Component

/-- The letter of the number. -/
def letter : Component → String
  | r => "R"
  | s => "S"

end Component

namespace DerError

/-- The name of the rule. -/
def name : DerError → String
  | tooShort => "TooShort"
  | tooLong => "TooLong"
  | invalidSequenceTag => "InvalidSequenceTag"
  | sequenceLengthMismatch => "SequenceLengthMismatch"
  | missingIntegerTag which => s!"MissingIntegerTag({which.letter})"
  | zeroLengthInteger which => s!"ZeroLengthInteger({which.letter})"
  | integerLengthOverflow which => s!"IntegerLengthOverflow({which.letter})"
  | negativeInteger which => s!"NegativeInteger({which.letter})"
  | excessivePadding which => s!"ExcessivePadding({which.letter})"
  | integerTooLarge which => s!"IntegerTooLarge({which.letter})"
  | zeroValue which => s!"ZeroValue({which.letter})"
  | outOfRange which => s!"OutOfRange({which.letter})"
  | trailingBytes => "TrailingBytes"

/-- The rule in words. -/
def message : DerError → String
  | tooShort => "signature is shorter than the minimum of 8 bytes"
  | tooLong => "signature is longer than the maximum of 72 bytes"
  | invalidSequenceTag => "missing SEQUENCE tag 0x30"
  | sequenceLengthMismatch => "SEQUENCE length does not match the signature length"
  | missingIntegerTag which => s!"missing INTEGER tag 0x02 for {which.letter}"
  | zeroLengthInteger which => s!"{which.letter} has zero length"
  | integerLengthOverflow which => s!"{which.letter} length runs past the end of the signature"
  | negativeInteger which => s!"{which.letter} is negative"
  | excessivePadding which => s!"{which.letter} has superfluous leading zero padding"
  | integerTooLarge which => s!"{which.letter} does not fit in 32 bytes"
  | zeroValue which => s!"{which.letter} is zero"
  | outOfRange which => s!"{which.letter} is not below the curve order"
  | trailingBytes => "trailing bytes after the S integer"

end DerError

namespace Der

/-- The tag of the outer sequence. -/
def sequenceTag : UInt8 := 0x30

/-- The tag of an integer. -/
def integerTag : UInt8 := 0x02

/-- The first bit of a byte: a sign in an integer, the mark of the long form in a length. -/
def highBit (b : UInt8) : Bool := decide (0x80 ≤ b)

/-- The shortest big-endian form of a number, with a zero byte in front if its first bit would
otherwise be set.  Zero is one zero byte. -/
def integerBody (n : Nat) : Bytes :=
  match (Bytes.digitsLE n).reverse with
  | [] => [0]
  | b :: bs => if highBit b then 0 :: b :: bs else b :: bs

/-- A number with its tag and its length. -/
def integer (n : Nat) : Bytes :=
  integerTag :: UInt8.ofNat (integerBody n).length :: integerBody n

/-- Reads one integer in the strict form; the result is its bytes and what follows. -/
def strictInteger (which : Component) : Bytes → Except DerError (Bytes × Bytes)
  | tag :: length :: rest =>
    if tag ≠ integerTag then .error (.missingIntegerTag which)
    else if length = 0 then .error (.zeroLengthInteger which)
    else if rest.length < length.toNat then .error (.integerLengthOverflow which)
    else
      match rest.take length.toNat with
      | [] => .error (.zeroLengthInteger which)
      | [b] =>
        if highBit b then .error (.negativeInteger which)
        else .ok ([b], rest.drop length.toNat)
      | b :: c :: bs =>
        if highBit b then .error (.negativeInteger which)
        else if b = 0 ∧ highBit c = false then .error (.excessivePadding which)
        else .ok (b :: c :: bs, rest.drop length.toNat)
  | _ => .error (.integerLengthOverflow which)

/-- Checks the strict form; the result is the bytes of the two integers. -/
def split (b : Bytes) : Except DerError (Bytes × Bytes) := do
  if b.length < 8 then throw .tooShort
  if 72 < b.length then throw .tooLong
  match b with
  | tag :: length :: body =>
    if tag ≠ sequenceTag then throw .invalidSequenceTag
    if body.length < length.toNat then throw .sequenceLengthMismatch
    if length.toNat < body.length then throw .trailingBytes
    let (r, afterR) ← strictInteger .r body
    let (s, afterS) ← strictInteger .s afterR
    if afterS ≠ [] then throw .trailingBytes
    return (r, s)
  | _ => throw .tooShort

/-- Checks the strict form without decoding the values. -/
def check (b : Bytes) : Except DerError Unit := (split b).map fun _ => ()

/-- The value of an integer of at most 32 bytes, leading zeros not counted. -/
def value (which : Component) (b : Bytes) : Except DerError (BitVec 256) :=
  let significant := b.dropWhile (· == 0)
  if 32 < significant.length then .error (.integerTooLarge which)
  else .ok (BitVec.ofNat 256 (Bytes.toNatBE significant))

/-- Requires a value between 1 and the order less 1. -/
def checkScalar (which : Component) (n : BitVec 256) : Except DerError Unit :=
  if n.toNat = 0 then .error (.zeroValue which)
  else if Secp256k1.order ≤ n.toNat then .error (.outOfRange which)
  else .ok ()

/-- Reads a length in either form.  In the long form the leading zeros of the length itself do not
count, and what is left must have fewer than eight bytes. -/
def laxLength (which : Component) : Bytes → Except DerError (Nat × Bytes)
  | [] => .error (.integerLengthOverflow which)
  | first :: rest =>
    if highBit first = false then .ok (first.toNat, rest)
    else
      let octets := first.toNat - 0x80
      if rest.length < octets then .error (.integerLengthOverflow which)
      else
        let significant := (rest.take octets).dropWhile (· == 0)
        if 8 ≤ significant.length then .error (.integerLengthOverflow which)
        else .ok (Bytes.toNatBE significant, rest.drop octets)

/-- Reads one integer in the lax form; the result is its bytes and what follows. -/
def laxInteger (which : Component) : Bytes → Except DerError (Bytes × Bytes)
  | [] => .error (.missingIntegerTag which)
  | tag :: rest => do
    if tag ≠ integerTag then throw (.missingIntegerTag which)
    let (length, body) ← laxLength which rest
    if body.length < length then throw (.integerLengthOverflow which)
    return (body.take length, body.drop length)

/-- What follows the outer tag and length in the lax form; the outer length itself is skipped. -/
def laxBody : Bytes → Except DerError Bytes
  | [] => .error .tooShort
  | tag :: rest =>
    if tag ≠ sequenceTag then .error .invalidSequenceTag
    else
      match rest with
      | [] => .error .tooShort
      | length :: body =>
        if highBit length = false then .ok body
        else if body.length < length.toNat - 0x80 then .error .sequenceLengthMismatch
        else .ok (body.drop (length.toNat - 0x80))

end Der

namespace Signature

/-- The signature in the strict form. -/
def toDer (sig : Signature) : Bytes :=
  let body := Der.integer sig.r.toNat ++ Der.integer sig.s.toNat
  Der.sequenceTag :: UInt8.ofNat body.length :: body

/-- Reads a signature in the strict form with values between 1 and the order less 1. -/
def ofDer (b : Bytes) : Except DerError Signature := do
  let (r, s) ← Der.split b
  let r ← Der.value .r r
  let s ← Der.value .s s
  Der.checkScalar .r r
  Der.checkScalar .s s
  return ⟨r, s⟩

/-- Reads a signature in the lax form.  Whether the values are in range is left to verification. -/
def ofDerLax (b : Bytes) : Except DerError Signature := do
  let body ← Der.laxBody b
  let (r, afterR) ← Der.laxInteger .r body
  let (s, _) ← Der.laxInteger .s afterR
  return ⟨← Der.value .r r, ← Der.value .s s⟩

end Signature

end CoinScript
