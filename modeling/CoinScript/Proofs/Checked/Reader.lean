import CoinScript.Proofs.Checked.Position
import CoinScript.Proofs.Checked.Tracking
import CoinScript.Proofs.Wire.Counts
import CoinScript.Wire.Field

/-!
# Wire data read by position

Wire data stands in an array that stays, and what moves is a position.  The end of a field is a sum,
which may be no word, since a length that has been read can be any word; the field is refused then as
it is where the data is too short.  What is left to read is the difference between the size of the
array and the position, so the position must not pass the end.

`Follows data Q x y` compares a reader on the array with one of the program: wherever both stand at
the same place they give the same value, which has the property `Q`, or fail for the same cause, and
again stand at the same place.  In particular `x` does not crash (`follows_read`), and what is left can
always be told (`remaining_eq`).
-/

namespace CoinScript.Checked.Reader

open CoinScript.Wire (Field)

variable {ε α β : Type} {data : Bytes} {n w : Nat} {c : Cursor}

/-! ## The readers -/

/-- A reader on an array, which moves a position. -/
abbrev Positioned (ε α : Type) := EStateM (Stop ε) Nat α

/-- The next `n` bytes. -/
def take (data : Bytes) (n : Nat) : Positioned WireError Bytes := do
  let pos ← get
  if wordSize ≤ pos + n ∨ data.length < pos + n then throw (.refused .unexpectedEnd)
  else do
    let field ← checked (slice data pos (pos + n))
    set (pos + n)
    return field

/-- An array of `n` bytes, copied from the data. -/
def array (data : Bytes) (n : Nat) : Positioned WireError Bytes := do
  checked (copyInto (List.replicate n 0) 0 n (← take data n))

/-- One byte. -/
def u8 (data : Bytes) : Positioned WireError UInt8 := do
  checked (index (← array data 1) 0)

/-- A little-endian number of `w` bytes. -/
def number (data : Bytes) (w : Nat) : Positioned WireError Nat := do
  return Bytes.toNatLE (← array data w)

/-- A little-endian 16-bit word. -/
def u16 (data : Bytes) : Positioned WireError UInt16 := do
  return UInt16.ofNat (← number data 2)

/-- A little-endian 32-bit word. -/
def u32 (data : Bytes) : Positioned WireError UInt32 := do
  return UInt32.ofNat (← number data 4)

/-- A little-endian 64-bit word. -/
def u64 (data : Bytes) : Positioned WireError UInt64 := do
  return UInt64.ofNat (← number data 8)

/-- A variable-length count, in any of its forms. -/
def varInt (data : Bytes) : Positioned WireError Nat := do
  let marker ← u8 data
  if marker = 0xff then number data 8
  else if marker = 0xfe then number data 4
  else if marker = 0xfd then number data 2
  else return marker.toNat

/-- A byte string behind its length. -/
def varBytes (data : Bytes) : Positioned WireError Bytes := do
  take data (← varInt data)

/-- One field of the announced kind. -/
def read (data : Bytes) : Field.Kind → Positioned WireError Field
  | .bytes length => return .bytes (← take data length)
  | .u8 => return .u8 (← u8 data)
  | .u16 => return .u16 (← u16 data)
  | .u32 => return .u32 (← u32 data)
  | .u64 => return .u64 (← u64 data)
  | .varInt => return .varInt (UInt64.ofNat (← varInt data))
  | .varBytes => return .varBytes (← varBytes data)

/-- Bytes left to read. -/
def remaining (data : Bytes) (pos : Nat) : Checked WireError Nat := sub data.length pos

/-! ## The comparison with the program -/

/-- The outcomes are the same, at the same place. -/
inductive Matches (data : Bytes) (Q : α → Prop) :
    EStateM.Result (Stop ε) Nat α → EStateM.Result ε Cursor α → Prop
  | ok {a : α} {c : Cursor} (ha : Q a) (hc : At data c.position c.rest) :
    Matches data Q (.ok a c.position) (.ok a c)
  | refused (cause : ε) {c : Cursor} (hc : At data c.position c.rest) :
    Matches data Q (.error (.refused cause) c.position) (.error cause c)

/-- **The comparison of a reader on an array with one of the program**, from every place. -/
def Follows (data : Bytes) (Q : α → Prop) (x : Positioned ε α) (y : CoinScript.Reader ε α) : Prop :=
  ∀ c, At data c.position c.rest → Matches data Q (x c.position) (y c)

variable {Q : α → Prop} {R : β → Prop} {x : Positioned ε α} {y : CoinScript.Reader ε α}

theorem follows_pure {a : α} (h : Q a) : Follows (ε := ε) data Q (pure a) (pure a) :=
  fun _ hc => .ok h hc

theorem Follows.bind {f : α → Positioned ε β} {g : α → CoinScript.Reader ε β}
    (hx : Follows data Q x y) (hf : ∀ a, Q a → Follows data R (f a) (g a)) :
    Follows data R (x >>= f) (y >>= g) := by
  intro c hc
  have h := hx c hc
  show Matches data R (EStateM.bind x f c.position) (EStateM.bind y g c)
  unfold EStateM.bind
  generalize x c.position = r at h
  generalize y c = r' at h
  cases h with
  | ok ha hc => exact hf _ ha _ hc
  | refused cause hc => exact .refused cause hc

theorem Follows.mono {P : α → Prop} (hx : Follows data Q x y) (hP : ∀ a, Q a → P a) :
    Follows data P x y := by
  intro c hc
  have h := hx c hc
  generalize x c.position = r at h ⊢
  generalize y c = r' at h ⊢
  cases h with
  | ok ha hc => exact .ok (hP _ ha) hc
  | refused cause hc => exact .refused cause hc

/-- A last reading whose value is only repackaged. -/
theorem Follows.map (hx : Follows data Q x y) (f : α → β) :
    Follows data Any (x >>= fun a => pure (f a)) (y >>= fun a => pure (f a)) :=
  hx.bind fun _ _ => follows_pure trivial

/-- An operation that has a result, after a reading. -/
theorem Follows.checked (hx : Follows data Q x y) {f : α → Checked ε β} {g : α → β}
    (hf : ∀ a, Q a → f a = .ok (g a) ∧ R (g a)) :
    Follows data R (x >>= fun a => checked (f a)) (y >>= fun a => pure (g a)) := by
  refine hx.bind fun a ha => ?_
  obtain ⟨hok, hR⟩ := hf a ha
  rw [hok]
  exact follows_pure hR

/-! ## They read what the program reads -/

section

variable (hword : data.length < wordSize)

include hword

theorem follows_take (n : Nat) :
    Follows data (fun b => b.length = n) (take data n) (CoinScript.Reader.take n) := by
  intro c hc
  have hlength := hc.add_length
  show Matches data _ ((if wordSize ≤ c.position + n ∨ data.length < c.position + n then _ else _ :
    Positioned WireError Bytes) c.position) _
  by_cases hfits : n ≤ c.rest.length
  · rw [CoinScript.Reader.take_of_le hfits, if_neg (by omega), hc.slice hfits]
    exact .ok (c := c.advance n) (List.length_take_of_le hfits) (hc.skip hfits)
  · rw [CoinScript.Reader.take_of_lt (Nat.not_le.mp hfits), if_pos (by omega)]
    exact .refused _ hc

/-- What is copied fills the array. -/
theorem follows_array (n : Nat) :
    Follows data (fun b => b.length = n) (array data n) (CoinScript.Reader.take n) := by
  rw [← bind_pure (CoinScript.Reader.take n)]
  refine (follows_take hword n).checked fun b hb => ⟨?_, hb⟩
  rw [copyInto_of_le (Nat.zero_le n) (by simp) (by omega)]
  simp

theorem follows_u8 : Follows data Any (u8 data) CoinScript.Reader.u8 := by
  have hbyte : CoinScript.Reader.u8 = (do
      return UInt8.ofNat (Bytes.toNatLE (← CoinScript.Reader.take 1))) := by
    simp only [CoinScript.Reader.u8, CoinScript.Reader.number, bind_assoc, pure_bind]
  rw [hbyte]
  refine (follows_array hword 1).checked fun b hb => ⟨?_, trivial⟩
  obtain ⟨x, rfl⟩ := List.length_eq_one_iff.mp hb
  simp [index, Bytes.toNatLE]

theorem follows_number (w : Nat) :
    Follows data Any (number data w) (CoinScript.Reader.number w) :=
  (follows_array hword w).map Bytes.toNatLE

theorem follows_varInt : Follows data Any (varInt data) CoinScript.Reader.varInt := by
  rw [CoinScript.Reader.varInt_eq]
  refine (follows_u8 hword).bind fun marker _ => ?_
  rcases VarInt.markedSize_cases marker with ⟨hlt, hone⟩ | rfl | rfl | rfl
  · rw [if_neg (VarInt.ne_marker hlt 0xff (by decide)),
      if_neg (VarInt.ne_marker hlt 0xfe (by decide)),
      if_neg (VarInt.ne_marker hlt 0xfd (by decide)), if_pos hone]
    exact follows_pure trivial
  · exact follows_number hword 2
  · exact follows_number hword 4
  · exact follows_number hword 8

theorem follows_varBytes : Follows data Any (varBytes data) CoinScript.Reader.varBytes :=
  (follows_varInt hword).bind fun n _ => (follows_take hword n).mono fun _ _ => trivial

/-- **Every field is read as the program reads it.** -/
theorem follows_read (k : Field.Kind) : Follows data Any (read data k) k.read := by
  cases k with
  | bytes length => exact (follows_take hword length).map _
  | u8 => exact (follows_u8 hword).map _
  | u16 => exact ((follows_number hword 2).map _).map _
  | u32 => exact ((follows_number hword 4).map _).map _
  | u64 => exact ((follows_number hword 8).map _).map _
  | varInt => exact (follows_varInt hword).map _
  | varBytes => exact (follows_varBytes hword).map _

end

/-- What is left is told without going below zero. -/
theorem remaining_eq (h : At data c.position c.rest) :
    remaining data c.position = .ok c.remaining := h.sub

end CoinScript.Checked.Reader
