import CoinScript.Bytes.Endian

/-!
# Variable-length counts

A count or length on the wire starts with a marker byte.  Markers below `0xfd` are the value
itself; `0xfd`, `0xfe` and `0xff` announce two, four and eight little-endian bytes.  Writing always
chooses the shortest form, so a written count takes 1, 3, 5 or 9 bytes; reading also accepts a
longer form than needed.
-/

namespace CoinScript.VarInt

/-- Size of a whole encoding that starts with this marker byte. -/
def markedSize (marker : UInt8) : Nat :=
  if marker = 0xff then 9
  else if marker = 0xfe then 5
  else if marker = 0xfd then 3
  else 1

/-- The marker of the shortest form of `n`. -/
def marker (n : Nat) : UInt8 :=
  if n < 0xfd then UInt8.ofNat n
  else if n ≤ 0xffff then 0xfd
  else if n ≤ 0xffffffff then 0xfe
  else 0xff

/-- Size of the shortest form of `n`: 1, 3, 5 or 9 bytes. -/
def size (n : Nat) : Nat := markedSize (marker n)

/-- The form of `n` that takes `width` bytes, for a width of 1, 3, 5 or 9. -/
def encodeAs (width n : Nat) : Bytes :=
  if width = 1 then [UInt8.ofNat n]
  else if width = 3 then 0xfd :: Bytes.ofNatLE 2 n
  else if width = 5 then 0xfe :: Bytes.ofNatLE 4 n
  else 0xff :: Bytes.ofNatLE 8 n

/-- What stands behind a marker: `n` in two, four or eight bytes, or nothing. -/
def behind (marker : UInt8) (n : Nat) : Bytes :=
  if marker = 0xfd then Bytes.ofNatLE 2 n
  else if marker = 0xfe then Bytes.ofNatLE 4 n
  else if marker = 0xff then Bytes.ofNatLE 8 n
  else []

/-- The shortest form of `n`, for `n` below `2 ^ 64`. -/
def encode (n : Nat) : Bytes := marker n :: behind (marker n) n

theorem markedSize_pos (marker : UInt8) : 0 < markedSize marker := by
  unfold markedSize
  split
  · decide
  · split
    · decide
    · split <;> decide

/-- **What is written behind a marker fills the size that the marker announces.** -/
theorem behind_eq (marker : UInt8) (n : Nat) :
    behind marker n = Bytes.ofNatLE (markedSize marker - 1) n := by
  unfold behind
  split
  · next h => rw [h]; rfl
  · next h₁ =>
    split
    · next h => rw [h]; rfl
    · next h₂ =>
      split
      · next h => rw [h]; rfl
      · next h₃ => rw [markedSize, if_neg h₃, if_neg h₂, if_neg h₁]; rfl

theorem encode_eq (n : Nat) : encode n = marker n :: Bytes.ofNatLE (size n - 1) n := by
  rw [encode, behind_eq]
  rfl

/-- **The size of the shortest form is its length.** -/
theorem length_encode (n : Nat) : (encode n).length = size n := by
  have h : 0 < size n := markedSize_pos (marker n)
  rw [encode_eq, List.length_cons, Bytes.length_ofNatLE]
  omega

end CoinScript.VarInt
