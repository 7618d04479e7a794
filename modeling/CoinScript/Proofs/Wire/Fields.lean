import CoinScript.Proofs.Checked.Reader

/-!
# Sequences of fields

Fields that are written one after the other are read back in their order (`Wire.reads_fields`), as
long as lengths are words; each field by itself is read back from in front of anything
(`Wire.Field.reads_encode`).

What a reader does to its place is told without the outcome.  `Cursor.Before c c'` says that `c'` is
`c` past some of the bytes that were left.  Each reading leads to a later place, whether it succeeds
or not (`Reader.Advances`), so the same is true of any number of them (`Cursor.before_past`): the
position only grows and stays within the data.  A reading of one piece that fails has taken nothing
(`Reader.AllOrNothing`).  A count or a counted byte string is read in two pieces, and the first may
be gone.

The same readings on an array, where a position could pass the end, never do
(`Checked.Reader.past_eq`).
-/

namespace CoinScript

/-! ## Places in the data -/

namespace Cursor

variable {c d e : Cursor} {data : Bytes}

/-- The second place is the first one past some of the bytes that are left there. -/
def Before (c d : Cursor) : Prop :=
  ∃ front, c.rest = front ++ d.rest ∧ d.position = c.position + front.length

theorem Before.refl (c : Cursor) : c.Before c := ⟨[], rfl, rfl⟩

theorem Before.trans (h : c.Before d) (h' : d.Before e) : c.Before e := by
  obtain ⟨front, hrest, hposition⟩ := h
  obtain ⟨next, hrest', hposition'⟩ := h'
  refine ⟨front ++ next, ?_, ?_⟩
  · rw [hrest, hrest', List.append_assoc]
  · rw [hposition', hposition, List.length_append, Nat.add_assoc]

theorem Before.position_le (h : c.Before d) : c.position ≤ d.position := by
  obtain ⟨front, -, hposition⟩ := h
  omega

theorem before_advance {n : Nat} (h : n ≤ c.rest.length) : c.Before (c.advance n) :=
  ⟨c.rest.take n, (List.take_append_drop n c.rest).symm, by
    rw [List.length_take_of_le h]
    rfl⟩

/-- A place in the data is the one that its position says. -/
theorem Before.at_start (h : (start data).Before c) : Checked.At data c.position c.rest := by
  obtain ⟨front, hdata, hposition⟩ := h
  have hdata : data = front ++ c.rest := hdata
  have hposition : c.position = front.length := by
    rw [hposition]
    exact Nat.zero_add _
  rw [hposition, hdata]
  exact ⟨by rw [List.length_append]; exact Nat.le_add_right .., List.drop_left⟩

end Cursor

/-! ## What readings do to the place -/

namespace Reader

open VarInt

variable {ε α β : Type} {r : Reader ε α}

/-- However a reading ends, it has gone forward in the data. -/
def Advances (r : Reader ε α) : Prop := ∀ c : Cursor, c.Before (stop (r c))

/-- A reading that fails has not moved. -/
def AllOrNothing (r : Reader ε α) : Prop := ∀ c cause c', r c = .error cause c' → c' = c

theorem advances_pure (a : α) : Advances (pure a : Reader ε α) := Cursor.Before.refl

theorem Advances.bind {f : α → Reader ε β} (hr : Advances r) (hf : ∀ a, Advances (f a)) :
    Advances (r >>= f) := by
  intro c
  have hfirst := hr c
  cases h : r c with
  | ok a c₁ =>
    rw [h] at hfirst
    rw [bind_of_ok h]
    exact hfirst.trans (hf a c₁)
  | error cause c₁ =>
    rw [h] at hfirst
    rw [bind_of_error h]
    exact hfirst

theorem Advances.map (hr : Advances r) (f : α → β) : Advances (r >>= fun a => pure (f a)) :=
  hr.bind fun a => advances_pure (f a)

theorem AllOrNothing.map (hr : AllOrNothing r) (f : α → β) :
    AllOrNothing (r >>= fun a => pure (f a)) := by
  intro c cause c' herror
  cases h : r c with
  | ok a c₁ =>
    rw [bind_of_ok h] at herror
    cases herror
  | error cause₁ c₁ =>
    rw [bind_of_error h] at herror
    cases herror
    exact hr c cause c' h

theorem advances_take (n : Nat) : Advances (take n) := by
  intro c
  by_cases h : n ≤ c.rest.length
  · rw [take_of_le h]
    exact Cursor.before_advance h
  · rw [take_of_lt (Nat.not_le.mp h)]
    exact .refl c

theorem allOrNothing_take (n : Nat) : AllOrNothing (take n) := by
  intro c cause c' herror
  by_cases h : n ≤ c.rest.length
  · rw [take_of_le h] at herror
    cases herror
  · rw [take_of_lt (Nat.not_le.mp h)] at herror
    cases herror
    rfl

theorem block_of_le {n : Nat} {c : Cursor} (h : n ≤ c.rest.length) :
    block n c = .ok ⟨c.rest.take n, List.length_take_of_le h⟩ (c.advance n) := dif_pos h

theorem block_of_lt {n : Nat} {c : Cursor} (h : c.rest.length < n) :
    block n c = .error .unexpectedEnd c := dif_neg (Nat.not_le.mpr h)

/-- A block is read as its bytes are. -/
theorem block_eq_take (n : Nat) : (do return (← block n).bytes) = take n := by
  funext c
  by_cases h : n ≤ c.rest.length
  · rw [take_of_le h, bind_of_ok (block_of_le h)]
    rfl
  · rw [take_of_lt (Nat.not_le.mp h), bind_of_error (block_of_lt (Nat.not_le.mp h))]

theorem allOrNothing_block (n : Nat) : AllOrNothing (block n) := by
  intro c cause c' herror
  by_cases h : n ≤ c.rest.length
  · rw [block_of_le h] at herror
    cases herror
  · rw [block_of_lt (Nat.not_le.mp h)] at herror
    cases herror
    rfl

theorem advances_number (w : Nat) : Advances (number w) := (advances_take w).map _

theorem allOrNothing_number (w : Nat) : AllOrNothing (number w) := (allOrNothing_take w).map _

theorem advances_varInt : Advances varInt := by
  rw [varInt_eq]
  refine ((advances_number 1).map UInt8.ofNat).bind fun marker => ?_
  split
  · exact advances_pure _
  · exact advances_number _

theorem advances_varBytes : Advances varBytes := advances_varInt.bind advances_take

end Reader

namespace Wire.Field

/-- A counted byte string has a length that can be written. -/
def Counted : Field → Prop
  | varBytes b => b.length < 2 ^ 64
  | _ => True

/-- Fields whose size does not depend on the data. -/
def Kind.FixedSize : Kind → Prop
  | varInt | varBytes => False
  | _ => True

open Reader

/-- **A field is read back** from in front of anything. -/
theorem reads_encode {f : Field} (h : f.Counted) : Reads f.kind.read f.encode f := by
  cases f with
  | bytes b => exact (reads_take rfl).map _
  | u8 n => exact (reads_u8 n).map _
  | u16 n => exact (reads_u16 n).map _
  | u32 n => exact (reads_u32 n).map _
  | u64 n => exact (reads_u64 n).map _
  | varInt n =>
    have hread := (Reader.reads_encode n.toNat_lt).map fun m => varInt (UInt64.ofNat m)
    rwa [UInt64.ofNat_toNat] at hread
  | varBytes b => exact (reads_varBytes h).map _

theorem advances_read (k : Kind) : Advances k.read := by
  cases k with
  | bytes length => exact (advances_take length).map _
  | u8 => exact ((advances_number 1).map _).map _
  | u16 => exact ((advances_number 2).map _).map _
  | u32 => exact ((advances_number 4).map _).map _
  | u64 => exact ((advances_number 8).map _).map _
  | varInt => exact advances_varInt.map _
  | varBytes => exact advances_varBytes.map _

theorem allOrNothing_read {k : Kind} (h : k.FixedSize) : AllOrNothing k.read := by
  cases k with
  | bytes length => exact (allOrNothing_take length).map _
  | u8 => exact ((allOrNothing_number 1).map _).map _
  | u16 => exact ((allOrNothing_number 2).map _).map _
  | u32 => exact ((allOrNothing_number 4).map _).map _
  | u64 => exact ((allOrNothing_number 8).map _).map _
  | varInt => exact h.elim
  | varBytes => exact h.elim

end Wire.Field

/-! ## Sequences -/

open Wire (Field)

/-- The place after a number of readings, each from where the one before left off, whether that was
successful or not. -/
def Cursor.past (c : Cursor) (kinds : List Field.Kind) : Cursor :=
  kinds.foldl (fun c k => Reader.stop (k.read c)) c

theorem Cursor.past_append (c : Cursor) (kinds more : List Field.Kind) :
    c.past (kinds ++ more) = (c.past kinds).past more := List.foldl_append

/-- What one reading does to the place, any number of them do. -/
theorem Cursor.before_past (c : Cursor) (kinds : List Field.Kind) : c.Before (c.past kinds) := by
  induction kinds generalizing c with
  | nil => exact .refl c
  | cons k kinds ih => exact (Wire.Field.advances_read k c).trans (ih _)

/-- Every place that is reached is one in the data. -/
theorem Cursor.at_past (data : Bytes) (kinds : List Field.Kind) :
    Checked.At data ((start data).past kinds).position ((start data).past kinds).rest :=
  (before_past (start data) kinds).at_start

namespace Checked.Reader

variable {data : Bytes} {c : Cursor}

/-- The position after a reading, whether successful or not. -/
def stop {ε α : Type} : EStateM.Result (Stop ε) Nat α → Checked ε Nat
  | .ok _ pos => .ok pos
  | .error (.refused _) pos => .ok pos
  | .error .exhausted _ => .error .exhausted
  | .error (.crashed cause) _ => crash cause

/-- The position after a number of readings. -/
def past (data : Bytes) (pos : Nat) (kinds : List Field.Kind) : Checked WireError Nat :=
  kinds.foldlM (fun pos k => stop (read data k pos)) pos

theorem Matches.stop_eq {ε α : Type} {Q : α → Prop} {x : EStateM.Result (Stop ε) Nat α}
    {y : EStateM.Result ε Cursor α} (h : Matches data Q x y) :
    stop x = .ok (CoinScript.Reader.stop y).position ∧
      At data (CoinScript.Reader.stop y).position (CoinScript.Reader.stop y).rest := by
  cases h with
  | ok _ hc => exact ⟨rfl, hc⟩
  | refused _ hc => exact ⟨rfl, hc⟩

/-- **No number of readings crashes**, and they come to the same place. -/
theorem past_eq (hword : data.length < wordSize) (hc : At data c.position c.rest)
    (kinds : List Field.Kind) : past data c.position kinds = .ok (c.past kinds).position := by
  induction kinds generalizing c with
  | nil => rfl
  | cons k kinds ih =>
    obtain ⟨hstop, hnext⟩ := (follows_read hword k c hc).stop_eq
    rw [past, List.foldlM_cons, hstop, ok_bind]
    exact ih hnext

end Checked.Reader

namespace Wire

/-- **Fields one after the other are read back.** -/
theorem reads_fields {fields : List Field} (h : ∀ f ∈ fields, f.Counted) :
    Reader.Reads ((fields.map Field.kind).mapM Field.Kind.read) (fields.flatMap Field.encode)
      fields := by
  induction fields with
  | nil => exact Reader.reads_pure []
  | cons f fields ih =>
    obtain ⟨hf, hfields⟩ := List.forall_mem_cons.mp h
    rw [List.map_cons, List.mapM_cons, List.flatMap_cons]
    exact (Field.reads_encode hf).bind ((ih hfields).map (f :: ·))

/-- **The fields that are written are read, and the place stays within the data.**

* Fields are read back in their order from in front of anything, and nothing more is read.
* After any number of readings, successful or not, the position is in the data, what is left is the
  rest of the data, and further readings only increase it.
* A field of fixed size or a block that cannot be read leaves the place as it is; a block is read as
  its bytes are.
* On words and arrays no number of readings crashes, and they come to the same place.  There the
  position can be taken from the size of the data. -/
theorem fields_exact :
    (∀ fields : List Field, (∀ f ∈ fields, f.Counted) → ∀ rest : Bytes,
      (fields.map Field.kind).mapM Field.Kind.read
          (Cursor.start (fields.flatMap Field.encode ++ rest)) =
        .ok fields ⟨(fields.flatMap Field.encode).length, rest⟩) ∧
    (∀ (data : Bytes) (kinds : List Field.Kind),
      let c := (Cursor.start data).past kinds
      c.position ≤ data.length ∧ c.rest = data.drop c.position ∧
      c.remaining = data.length - c.position ∧
      ∀ more, c.position ≤ ((Cursor.start data).past (kinds ++ more)).position) ∧
    (∀ k : Field.Kind, k.FixedSize → Reader.AllOrNothing k.read) ∧
    (∀ n, Reader.AllOrNothing (Reader.block n) ∧
      (do return (← Reader.block n).bytes) = Reader.take n) ∧
    ∀ data : Bytes, data.length < Checked.wordSize → ∀ kinds : List Field.Kind,
      let c := (Cursor.start data).past kinds
      Checked.Reader.past data 0 kinds = .ok c.position ∧
      Checked.Reader.remaining data c.position = .ok c.remaining := by
  refine ⟨fun fields hcounted rest => ?_, fun data kinds => ?_,
    fun k hfixed => Field.allOrNothing_read hfixed,
    fun n => ⟨Reader.allOrNothing_block n, Reader.block_eq_take n⟩, fun data hword kinds => ?_⟩
  · have hread := reads_fields hcounted 0 rest
    rwa [Nat.zero_add] at hread
  · have hplace := Cursor.at_past data kinds
    refine ⟨hplace.within, hplace.drop_eq.symm, hplace.length_eq, fun more => ?_⟩
    rw [Cursor.past_append]
    exact (Cursor.before_past _ more).position_le
  · have hplace := Cursor.at_past data kinds
    exact ⟨Checked.Reader.past_eq (c := Cursor.start data) hword (Checked.At.zero data) kinds,
      Checked.Reader.remaining_eq hplace⟩

/-- Four fields and a byte behind them, and a length that no sum of words can hold. -/
theorem fields_exact_hugeLength :
    let fields : List Field := [.u8 0x42, .varInt 300, .varBytes [0x68, 0x69], .bytes [0xaa]]
    (∀ f ∈ fields, f.Counted) ∧
    (fields.map Field.kind).mapM Field.Kind.read
        (Cursor.start ([0x42, 0xfd, 0x2c, 0x01, 0x02, 0x68, 0x69, 0xaa] ++ [0xbb])) =
      .ok fields ⟨8, [0xbb]⟩ ∧
    ([0x01, 0x02] : Bytes).length < Checked.wordSize ∧
    Checked.Reader.past [0x01, 0x02] 0 [.u8, .bytes 0xffffffffffffffff] = .ok 1 ∧
    Checked.Reader.remaining [0x01, 0x02] 1 = .ok 1 ∧
    (Field.Kind.bytes 0xffffffffffffffff).FixedSize ∧
    Reader.AllOrNothing (Field.Kind.bytes 0xffffffffffffffff).read := by
  intro fields
  have hcounted : ∀ f ∈ fields, f.Counted := by
    simp [fields, Field.Counted]
  obtain ⟨hback, -, hfixed, -, hwords⟩ := fields_exact
  have hword : ([0x01, 0x02] : Bytes).length < Checked.wordSize := by decide
  obtain ⟨hpast, hleft⟩ := hwords [0x01, 0x02] hword [.u8, .bytes 0xffffffffffffffff]
  exact ⟨hcounted, hback fields hcounted [0xbb], hword, hpast, hleft, trivial, hfixed _ trivial⟩

end Wire

end CoinScript
