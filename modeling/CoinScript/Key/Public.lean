import CoinScript.Bytes.Endian
import CoinScript.Bytes.Hex
import CoinScript.Curve.Point
import CoinScript.Digest.Ripemd160

/-!
# Public keys

A public key is a point of the curve.  It is written compressed, as a tag that gives the parity of
`y` and the 32 bytes of `x`, or uncompressed, as a tag and both coordinates.  Two keys are the same
if their compressed forms are.

`PublicKey.decode?` reads four kinds of encodings, told apart by their tags:

* `02` and `03` with `x`: the point with even or odd `y`;
* `04` with `x` and `y`: the point itself, if it lies on the curve;
* `05` with `x`: the compact form, which names the point with even `y` without saying so.
-/

namespace CoinScript

open Secp256k1 (prime Affine cubic onCurve sqrt?)

/-- A point of the curve as a key that signatures are checked with. -/
structure PublicKey where
  point : Affine
deriving DecidableEq, Repr

/-- Why bytes or text are not a public key. -/
inductive PublicKeyError
  | empty
  /-- The tag, the length or the point is not acceptable. -/
  | notAPoint
  | badHex (cause : HexError)
deriving DecidableEq, Repr

namespace PublicKeyError

/-- The error in words. -/
def message : PublicKeyError → String
  | empty => "invalid public key: public key is empty"
  | notAPoint => "invalid public key: signature error"
  | badHex cause => s!"invalid hex: {cause.message}"

end PublicKeyError

namespace PublicKey

/-- The point with a given `x` whose `y` has the given parity. -/
def ofX? (odd : Bool) (x : Nat) : Option PublicKey :=
  if x < prime then
    (sqrt? (cubic x)).map fun y =>
      if decide (y % 2 = 1) = odd then ⟨⟨x, y⟩⟩ else ⟨⟨x, prime - y⟩⟩
  else none

/-- The point with the given coordinates, if there is one. -/
def ofCoordinates? (x y : Nat) : Option PublicKey :=
  if x < prime ∧ y < prime ∧ onCurve x y = true then some ⟨⟨x, y⟩⟩ else none

/-- Reads an encoded key. -/
def decode? : Bytes → Option PublicKey
  | [] => none
  | tag :: body =>
    if body.length = 32 then
      if tag = 0x02 ∨ tag = 0x05 then ofX? false (Bytes.toNatBE body)
      else if tag = 0x03 then ofX? true (Bytes.toNatBE body)
      else none
    else if body.length = 64 ∧ tag = 0x04 then
      ofCoordinates? (Bytes.toNatBE (body.take 32)) (Bytes.toNatBE (body.drop 32))
    else none

/-- Reads an encoded key, saying what is wrong with it. -/
def ofBytes (b : Bytes) : Except PublicKeyError PublicKey :=
  if b = [] then .error .empty
  else
    match decode? b with
    | some key => .ok key
    | none => .error .notAPoint

/-- Reads an encoded key from hexadecimal text. -/
def ofHex (text : String) : Except PublicKeyError PublicKey :=
  match Hex.decode text with
  | .ok b => ofBytes b
  | .error cause => .error (.badHex cause)

/-- The compressed form: 33 bytes. -/
def compressed (key : PublicKey) : Bytes :=
  (if key.point.y % 2 = 1 then 0x03 else 0x02) :: Bytes.ofNatBE 32 key.point.x

/-- The uncompressed form: 65 bytes. -/
def uncompressed (key : PublicKey) : Bytes :=
  0x04 :: (Bytes.ofNatBE 32 key.point.x ++ Bytes.ofNatBE 32 key.point.y)

/-- The compressed form as hexadecimal text. -/
def toHex (key : PublicKey) : String := Hex.encode key.compressed

/-- The hash of the compressed form, which locking scripts commit to. -/
def hash (key : PublicKey) : Hash160 := hash160 key.compressed

@[simp] theorem length_compressed (key : PublicKey) : key.compressed.length = 33 := by
  simp [compressed]

@[simp] theorem length_uncompressed (key : PublicKey) : key.uncompressed.length = 65 := by
  simp [uncompressed]

end PublicKey

end CoinScript
