import CoinScript.Proofs.Wire.Taking

/-!
# Counts on the wire

A count is written in its shortest form and read in any form that can hold it.  How many bytes are
read is decided by the first of them alone: a marker announces a form, and the form fits where there
are as many bytes as it takes (`Reader.varInt_eq_error_iff`).

Three places tell the markers apart, each by itself: `VarInt.markedSize`, which gives the size that a
marker announces, the writer and the reader.  That they agree is `VarInt.encode_eq` for the writer and
`Reader.varInt_eq` for the reader.

What has been read is then the form of the announced width (`VarInt.exists_form`), so the shortest
form is recognized by its width.
-/

namespace CoinScript

namespace VarInt

variable {width n : Nat}

/-- Each form announces its width. -/
theorem exists_form (h : Fits width n) :
    ∃ first tail, encodeAs width n = first :: tail ∧ markedSize first = width := by
  rcases h with ⟨rfl, hn⟩ | ⟨rfl, -⟩ | ⟨rfl, -⟩ | ⟨rfl, -⟩
  · have hmarker : marker n = UInt8.ofNat n := if_pos hn
    have hsize : size n = 1 := by
      rcases size_cases n with ⟨-, hs⟩ | ⟨hge, -⟩ | ⟨hge, -⟩ | ⟨hge, -⟩
      · exact hs
      all_goals omega
    exact ⟨UInt8.ofNat n, [], rfl, by rw [← hmarker]; exact hsize⟩
  · exact ⟨0xfd, _, rfl, rfl⟩
  · exact ⟨0xfe, _, rfl, rfl⟩
  · exact ⟨0xff, _, rfl, rfl⟩

/-- The shortest form is the only one of its width, and it has no other width. -/
theorem eq_size_iff (h : Fits width n) : width = size n ↔ encodeAs width n = encode n := by
  constructor
  · rintro rfl
    exact encodeAs_size n
  · intro heq
    rw [← length_encodeAs h, heq, length_encode]

end VarInt

namespace Reader

open VarInt

/-- The first byte says what follows. -/
theorem varInt_cons (position : Nat) (first : UInt8) (tail : Bytes) :
    varInt ⟨position, first :: tail⟩ =
      if markedSize first = 1 then .ok first.toNat ⟨position + 1, tail⟩
      else number (markedSize first - 1) ⟨position + 1, tail⟩ := by
  have hfirst : u8 ⟨position, first :: tail⟩ = .ok first ⟨position + 1, tail⟩ :=
    reads_u8 first position tail
  rw [varInt_eq, bind_of_ok hfirst]
  split <;> rfl

/-- **A count cannot be read where the form that is announced does not fit**, and only there. -/
theorem varInt_eq_error_iff {c : Cursor} :
    (∃ cause c', varInt c = .error cause c') ↔
      c.rest = [] ∨ ∃ first tail, c.rest = first :: tail ∧ c.rest.length < markedSize first := by
  obtain ⟨position, rest⟩ := c
  cases rest with
  | nil => exact ⟨fun _ => .inl rfl, fun _ => ⟨.unexpectedEnd, _, rfl⟩⟩
  | cons first tail =>
    rw [varInt_cons]
    have hpos := markedSize_pos first
    constructor
    · rintro ⟨cause, c', herror⟩
      refine .inr ⟨first, tail, rfl, ?_⟩
      by_contra hfits
      rw [List.length_cons, Nat.not_lt] at hfits
      by_cases hone : markedSize first = 1
      · rw [if_pos hone] at herror
        cases herror
      · rw [if_neg hone, number_of_le (Nat.sub_le_of_le_add hfits)] at herror
        cases herror
    · rintro (hnil | ⟨first', tail', hcons, hshort⟩)
      · cases hnil
      · cases hcons
        rw [List.length_cons] at hshort
        rw [if_neg (by omega), number_of_lt (Nat.lt_sub_of_add_lt hshort)]
        exact ⟨_, _, rfl⟩

end Reader

namespace VarInt

/-- What has been read as a count is the form of it that is as wide as what has been read. -/
theorem read_form {b : Bytes} {n : Nat} {c : Cursor}
    (h : Reader.varInt (Cursor.start b) = .ok n c) :
    Fits c.position n ∧ b = encodeAs c.position n ++ c.rest := by
  obtain ⟨width, hfits, hrest⟩ := Reader.varInt_eq_ok h
  have hb : b = encodeAs width n ++ c.rest := hrest
  have hread := Reader.reads_varInt hfits 0 c.rest
  rw [← hb, Nat.zero_add, length_encodeAs hfits] at hread
  have hplace : Cursor.mk width c.rest = c := by
    have hsame := hread.symm.trans h
    injection hsame
  rw [← hplace]
  exact ⟨hfits, hb⟩

/-- **Counts are read exactly, and written in the fewest bytes.**

* A count that has been written is read back from in front of anything, and as many bytes are read
  as have been written.
* What is read as a count takes as many bytes as the first byte announces, and there are as many.
  The count is a word and cannot be written in fewer bytes; it is written in as many exactly if these
  bytes are what would be written.
* Nothing is read if there is no byte or if there are fewer than the first one announces, and
  otherwise a count is.

What a first byte announces is `markedSize`.  That it is what the writer writes is `encode_eq`, and that
it is what the reader reads is `Reader.varInt_eq`. -/
theorem codec_exact :
    (∀ (v : UInt64) (rest : Bytes),
      Reader.varInt (Cursor.start (encode v.toNat ++ rest)) =
        .ok v.toNat ⟨size v.toNat, rest⟩ ∧
      (encode v.toNat).length = size v.toNat) ∧
    (∀ (b : Bytes) (n : Nat) (c : Cursor), Reader.varInt (Cursor.start b) = .ok n c →
      n < 2 ^ 64 ∧ c.rest = b.drop c.position ∧ c.position ≤ b.length ∧
      (∃ first tail, b = first :: tail ∧ c.position = markedSize first) ∧
      size n ≤ c.position ∧
      (c.position = size n ↔ b.take c.position = encode n)) ∧
    ∀ b : Bytes, (∃ cause c, Reader.varInt (Cursor.start b) = .error cause c) ↔
      b = [] ∨ ∃ first tail, b = first :: tail ∧ b.length < markedSize first := by
  refine ⟨fun v rest => ⟨?_, length_encode v.toNat⟩, fun b n c h => ?_,
    fun b => Reader.varInt_eq_error_iff⟩
  · have hread := Reader.reads_encode v.toNat_lt 0 rest
    rwa [Nat.zero_add, length_encode] at hread
  · obtain ⟨hfits, hb⟩ := read_form h
    have hlength := length_encodeAs hfits
    obtain ⟨first, tail, hform, hfirst⟩ := exists_form hfits
    have htake : b.take c.position = encodeAs c.position n := by
      rw [hb]
      exact List.take_left' hlength
    have hdrop : b.drop c.position = c.rest := by
      rw [hb]
      exact List.drop_left' hlength
    have hwithin : c.position ≤ b.length := by
      rw [hb, List.length_append, hlength]
      exact Nat.le_add_right ..
    refine ⟨lt_of_fits hfits, hdrop.symm, hwithin, ⟨first, tail ++ c.rest, ?_, hfirst.symm⟩,
      size_le_of_fits hfits, ?_⟩
    · rw [hb, hform, List.cons_append]
    · rw [htake]
      exact eq_size_iff hfits

/-- Three bytes for a count that has a form of one byte, and a form that is cut short. -/
theorem codec_exact_padded :
    Reader.varInt (Cursor.start [0xfd, 0x05, 0x00, 0xaa]) = .ok 5 ⟨3, [0xaa]⟩ ∧
    size 5 ≤ 3 ∧ (3 = size 5 ↔ [0xfd, 0x05, 0x00] = encode 5) ∧
    ∃ cause c, Reader.varInt (Cursor.start [0xfe, 0x05, 0x00]) = .error cause c := by
  have hread : Reader.varInt (Cursor.start [0xfd, 0x05, 0x00, 0xaa]) = .ok 5 ⟨3, [0xaa]⟩ := rfl
  obtain ⟨-, hexact, hfails⟩ := codec_exact
  obtain ⟨-, -, -, -, hle, hshortest⟩ := hexact _ _ _ hread
  exact ⟨hread, hle, hshortest, (hfails _).mpr (.inr ⟨0xfe, _, rfl, by decide⟩)⟩

end VarInt

end CoinScript
