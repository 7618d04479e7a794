import CoinScript.Bytes.Endian
import CoinScript.Bytes.Hex
import CoinScript.Curve.Point

/-!
# Private keys

A private key is a number between 1 and the order of the curve less 1, written as 32 big-endian
bytes.  Zero and numbers from the order upward are refused when a key is read, so a value of
`PrivateKey` is always usable.
-/

namespace CoinScript

/-- A secret number between 1 and the order of the curve less 1. -/
structure PrivateKey where
  scalar : Nat
  pos : 0 < scalar
  lt : scalar < Secp256k1.order
deriving DecidableEq

/-- Why bytes or text are not a private key. -/
inductive PrivateKeyError
  | emptyText
  | wrongLength (length : Nat)
  /-- The number is zero or not below the order. -/
  | outOfRange
  | badHex (cause : HexError)
deriving DecidableEq, Repr

namespace PrivateKeyError

/-- The error in words. -/
def message : PrivateKeyError → String
  | emptyText => "invalid private key: private key hex is empty"
  | wrongLength length => s!"invalid private key: expected 32 bytes, got {length}"
  | outOfRange => "invalid private key: signature error"
  | badHex cause => s!"invalid hex: {cause.message}"

end PrivateKeyError

namespace PrivateKey

/-- The key with the given number, if it is in range. -/
def ofScalar? (n : Nat) : Option PrivateKey :=
  if h : 0 < n ∧ n < Secp256k1.order then some ⟨n, h.1, h.2⟩ else none

/-- Reads a key from its 32 bytes. -/
def ofBytes (b : Bytes) : Except PrivateKeyError PrivateKey :=
  if b.length = 32 then
    match ofScalar? (Bytes.toNatBE b) with
    | some key => .ok key
    | none => .error .outOfRange
  else .error (.wrongLength b.length)

/-- Reads a key from hexadecimal text. -/
def ofHex (text : String) : Except PrivateKeyError PrivateKey :=
  if text.isEmpty then .error .emptyText
  else
    match Hex.decode text with
    | .ok b => ofBytes b
    | .error cause => .error (.badHex cause)

/-- The 32 bytes of a key. -/
def toBytes (key : PrivateKey) : Bytes := Bytes.ofNatBE 32 key.scalar

/-- The hexadecimal text of a key. -/
def toHex (key : PrivateKey) : String := Hex.encode key.toBytes

theorem ofScalar?_scalar (key : PrivateKey) : ofScalar? key.scalar = some key :=
  dif_pos ⟨key.pos, key.lt⟩

end PrivateKey

end CoinScript
