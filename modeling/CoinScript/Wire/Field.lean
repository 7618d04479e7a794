import CoinScript.Wire.Cursor

/-!
# Wire fields

Everything on the wire is a sequence of typed fields.  `Field.encode` writes one, `Field.Kind.read`
reads one of the announced kind, and `Field.kind` says what must be announced for a field to be
read back.
-/

namespace CoinScript

namespace Wire

/-- A 16-bit word on the wire. -/
def u16 (n : UInt16) : Bytes := Bytes.ofNatLE 2 n.toNat

/-- A 32-bit word on the wire. -/
def u32 (n : UInt32) : Bytes := Bytes.ofNatLE 4 n.toNat

/-- A 64-bit word on the wire. -/
def u64 (n : UInt64) : Bytes := Bytes.ofNatLE 8 n.toNat

/-- A byte string behind its length. -/
def varBytes (b : Bytes) : Bytes := VarInt.encode b.length ++ b

@[simp] theorem length_u16 (n : UInt16) : (u16 n).length = 2 := Bytes.length_ofNatLE ..

@[simp] theorem length_u32 (n : UInt32) : (u32 n).length = 4 := Bytes.length_ofNatLE ..

@[simp] theorem length_u64 (n : UInt64) : (u64 n).length = 8 := Bytes.length_ofNatLE ..

/-- A typed field. -/
inductive Field
  /-- Bytes without a length; the reader has to know how many. -/
  | bytes (b : Bytes)
  | u8 (n : UInt8)
  | u16 (n : UInt16)
  | u32 (n : UInt32)
  | u64 (n : UInt64)
  | varInt (n : UInt64)
  | varBytes (b : Bytes)
deriving DecidableEq

namespace Field

/-- The bytes of a field. -/
def encode : Field → Bytes
  | bytes b => b
  | u8 n => [n]
  | u16 n => Wire.u16 n
  | u32 n => Wire.u32 n
  | u64 n => Wire.u64 n
  | varInt n => VarInt.encode n.toNat
  | varBytes b => Wire.varBytes b

/-- What a reader is told to expect. -/
inductive Kind
  | bytes (length : Nat)
  | u8
  | u16
  | u32
  | u64
  | varInt
  | varBytes
deriving DecidableEq

/-- The kind that reads a field back. -/
def kind : Field → Kind
  | bytes b => .bytes b.length
  | u8 _ => .u8
  | u16 _ => .u16
  | u32 _ => .u32
  | u64 _ => .u64
  | varInt _ => .varInt
  | varBytes _ => .varBytes

/-- Reads one field of the announced kind. -/
def Kind.read : Kind → Reader WireError Field
  | .bytes length => return .bytes (← Reader.take length)
  | .u8 => return .u8 (← Reader.u8)
  | .u16 => return .u16 (← Reader.u16)
  | .u32 => return .u32 (← Reader.u32)
  | .u64 => return .u64 (← Reader.u64)
  | .varInt => return .varInt (UInt64.ofNat (← Reader.varInt))
  | .varBytes => return .varBytes (← Reader.varBytes)

end Field

end Wire

end CoinScript
