import CoinScript.Proofs.Wire.Reading
import Mathlib.Data.List.Forall2

/-!
# Only what is written is read

`Reader.Reads` says that a reader reads what is written.  Here is the converse: wherever a reader
succeeds, the data starts with something that could have been written for the value it gives, and
what follows is left.  For fields of fixed size that is the one written form; for a count it is one
of the forms that can hold it (`varInt_eq_ok`).

## Records

A list of records stands on the wire one record after the other, and each record has one length in
it whose form is free.  `layoutAll` writes such a list for given widths of these lengths.  A list is
read back from every layout in which the widths fit (`reads_many`), nothing else is read as a list
(`many_eq_ok`), and the widths alone decide how long a layout is (`length_layoutAll`).
-/

namespace CoinScript

namespace Reader

variable {ε δ α β : Type} {c c' : Cursor}

/-! ## Failures under other names -/

theorem mapError_eq_ok {f : ε → δ} {r : Reader ε α} {a : α} (h : r.mapError f c = .ok a c') :
    r c = .ok a c' := by
  unfold Reader.mapError at h
  cases hr : r c with
  | ok a c₁ =>
    rw [hr] at h
    cases h
    rfl
  | error e c₁ =>
    rw [hr] at h
    cases h

/-! ## Fixed sizes -/

theorem take_eq_ok {n : Nat} {b : Bytes} (h : take n c = .ok b c') :
    b.length = n ∧ c.rest = b ++ c'.rest := by
  rcases Nat.lt_or_ge c.rest.length n with hlt | hle
  · rw [take_of_lt hlt] at h
    cases h
  · rw [take_of_le hle] at h
    cases h
    exact ⟨List.length_take_of_le hle, (List.take_append_drop n c.rest).symm⟩

theorem number_eq_ok {w n : Nat} (h : number w c = .ok n c') :
    n < 256 ^ w ∧ c.rest = Bytes.ofNatLE w n ++ c'.rest := by
  obtain ⟨b, c₁, htake, hvalue⟩ := bind_eq_ok h
  cases hvalue
  obtain ⟨rfl, hrest⟩ := take_eq_ok htake
  exact ⟨Bytes.toNatLE_lt b, by rw [Bytes.ofNatLE_toNatLE, hrest]⟩

theorem u8_eq_ok {n : UInt8} (h : u8 c = .ok n c') : c.rest = n :: c'.rest := by
  obtain ⟨k, c₁, hnumber, hvalue⟩ := bind_eq_ok h
  cases hvalue
  obtain ⟨-, hrest⟩ := number_eq_ok hnumber
  exact hrest

theorem u32_eq_ok {n : UInt32} (h : u32 c = .ok n c') : c.rest = Wire.u32 n ++ c'.rest := by
  obtain ⟨k, c₁, hnumber, hvalue⟩ := bind_eq_ok h
  cases hvalue
  obtain ⟨hlt, hrest⟩ := number_eq_ok hnumber
  rw [Wire.u32, UInt32.toNat_ofNat_of_lt' hlt, hrest]

theorem u64_eq_ok {n : UInt64} (h : u64 c = .ok n c') : c.rest = Wire.u64 n ++ c'.rest := by
  obtain ⟨k, c₁, hnumber, hvalue⟩ := bind_eq_ok h
  cases hvalue
  obtain ⟨hlt, hrest⟩ := number_eq_ok hnumber
  rw [Wire.u64, UInt64.toNat_ofNat_of_lt' hlt, hrest]

theorem block_eq_ok {n : Nat} {b : Block n} (h : block n c = .ok b c') :
    c.rest = b.bytes ++ c'.rest := by
  unfold block at h
  split at h
  · cases h
    exact (List.take_append_drop n c.rest).symm
  · cases h

end Reader

/-! ## Counts -/

namespace VarInt

theorem lt_of_fits {width n : Nat} (h : Fits width n) : n < 2 ^ 64 := by
  unfold Fits at h
  omega

/-- No form that can hold a count is shorter than the shortest. -/
theorem size_le_of_fits {width n : Nat} (h : Fits width n) : size n ≤ width := by
  rcases size_cases n with ⟨hn, hs⟩ | ⟨hn, hn', hs⟩ | ⟨hn, hn', hs⟩ | ⟨hn, hs⟩ <;>
    · rw [hs]
      unfold Fits at h
      omega

end VarInt

namespace Reader

open VarInt

variable {ε α : Type} {c c' : Cursor}

/-- **What is read as a count is the count in one of the forms that can hold it.** -/
theorem varInt_eq_ok {n : Nat} (h : varInt c = .ok n c') :
    ∃ width, Fits width n ∧ c.rest = encodeAs width n ++ c'.rest := by
  rw [varInt_eq] at h
  obtain ⟨marker, c₁, hmarker, hvalue⟩ := bind_eq_ok h
  rw [u8_eq_ok hmarker]
  rcases markedSize_cases marker with ⟨hlt, hsize⟩ | hmarked
  · rw [if_pos hsize] at hvalue
    cases hvalue
    exact ⟨1, .inl ⟨rfl, hlt⟩, by rw [encodeAs, if_pos rfl, UInt8.ofNat_toNat]; rfl⟩
  · rcases hmarked with rfl | rfl | rfl
    · obtain ⟨hlt, hrest⟩ := number_eq_ok (w := 2) hvalue
      exact ⟨3, .inr (.inl ⟨rfl, hlt⟩), congrArg (0xfd :: ·) hrest⟩
    · obtain ⟨hlt, hrest⟩ := number_eq_ok (w := 4) hvalue
      exact ⟨5, .inr (.inr (.inl ⟨rfl, hlt⟩)), congrArg (0xfe :: ·) hrest⟩
    · obtain ⟨hlt, hrest⟩ := number_eq_ok (w := 8) hvalue
      exact ⟨9, .inr (.inr (.inr ⟨rfl, hlt⟩)), congrArg (0xff :: ·) hrest⟩

/-- A byte string stands behind its length in one of the forms that can hold this length. -/
theorem varBytes_eq_ok {b : Bytes} (h : varBytes c = .ok b c') :
    ∃ width, Fits width b.length ∧ c.rest = encodeAs width b.length ++ (b ++ c'.rest) := by
  obtain ⟨n, c₁, hcount, htake⟩ := bind_eq_ok h
  obtain ⟨width, hfits, hrest⟩ := varInt_eq_ok hcount
  obtain ⟨rfl, hb⟩ := take_eq_ok htake
  exact ⟨width, hfits, by rw [hrest, hb]⟩

end Reader

/-! ## Records -/

section

variable {ε α : Type}

/-- Records one after the other, each with the given width for the length that it holds. -/
def layoutAll (layout : α → Nat → Bytes) (items : List α) (widths : List Nat) : Bytes :=
  (List.zipWith layout items widths).flatten

theorem layoutAll_cons (layout : α → Nat → Bytes) (a : α) (items : List α) (width : Nat)
    (widths : List Nat) : layoutAll layout (a :: items) (width :: widths) =
      layout a width ++ layoutAll layout items widths := rfl

/-- Records whose widths are chosen one by one. -/
theorem layoutAll_map (layout : α → Nat → Bytes) (width : α → Nat) (items : List α) :
    layoutAll layout items (items.map width) = items.flatMap fun a => layout a (width a) := by
  induction items with
  | nil => rfl
  | cons a items ih => rw [List.map_cons, layoutAll_cons, ih, List.flatMap_cons]

variable {layout : α → Nat → Bytes} {fits : α → Nat → Prop} {items : List α} {widths : List Nat}

/-- **A list of records is read back, whatever the widths are**, as long as they fit. -/
theorem Reader.reads_many {r : Reader ε α} {view : α → α}
    (hr : ∀ a width, fits a width → r.Reads (layout a width) (view a))
    (h : List.Forall₂ fits items widths) :
    Reader.Reads (Reader.many items.length r) (layoutAll layout items widths)
      (items.map view) := by
  induction h with
  | nil => exact Reader.reads_pure []
  | @cons a width items widths ha _ ih => exact (hr a width ha).bind (ih.map (view a :: ·))

/-- **What is read as a list of records is one**, in a layout with widths that fit. -/
theorem Reader.many_eq_ok {r : Reader ε α}
    (hr : ∀ (c : Cursor) (a : α) (c' : Cursor), r c = .ok a c' →
      ∃ width, fits a width ∧ c.rest = layout a width ++ c'.rest)
    {n : Nat} {c c' : Cursor} (h : Reader.many n r c = .ok items c') :
    items.length = n ∧
      ∃ widths, List.Forall₂ fits items widths ∧ c.rest = layoutAll layout items widths ++ c'.rest := by
  induction n generalizing items c with
  | zero =>
    cases h
    exact ⟨rfl, [], .nil, rfl⟩
  | succ n ih =>
    obtain ⟨a, c₁, ha, h₁⟩ := bind_eq_ok h
    obtain ⟨as, c₂, has, hvalue⟩ := bind_eq_ok h₁
    cases hvalue
    obtain ⟨width, hfits, hrest⟩ := hr c a c₁ ha
    obtain ⟨rfl, widths, hfitsAll, hrestAll⟩ := ih has
    refine ⟨rfl, width :: widths, .cons hfits hfitsAll, ?_⟩
    rw [hrest, hrestAll, layoutAll_cons, List.append_assoc]

/-- The length of a layout is that of the records without the lengths in them, and the widths. -/
theorem length_layoutAll {own : α → Nat}
    (hlayout : ∀ a width, fits a width → (layout a width).length = own a + width)
    (h : List.Forall₂ fits items widths) :
    (layoutAll layout items widths).length = (items.map own).sum + widths.sum := by
  induction h with
  | nil => rfl
  | @cons a width items widths ha _ ih =>
    rw [layoutAll_cons, List.length_append, hlayout a width ha, ih, List.map_cons, List.sum_cons,
      List.sum_cons]
    omega

/-- Widths that are nowhere below the least ones have no smaller sum, and an equal sum only if they
are the least ones. -/
theorem sum_least_le {least : α → Nat} (hleast : ∀ a width, fits a width → least a ≤ width)
    (h : List.Forall₂ fits items widths) :
    (items.map least).sum ≤ widths.sum ∧
      (widths.sum = (items.map least).sum → widths = items.map least) := by
  induction h with
  | nil => exact ⟨Nat.le_refl _, fun _ => rfl⟩
  | @cons a width items widths ha _ ih =>
    have hle := hleast a width ha
    obtain ⟨hleAll, heqAll⟩ := ih
    simp only [List.map_cons, List.sum_cons]
    refine ⟨by omega, fun hsum => ?_⟩
    have hwidth : width = least a := by omega
    rw [heqAll (by omega), hwidth]

end

end CoinScript
