import CoinScript.Proofs.Checked.Basic

/-!
# Reading by position

The program reads a byte string by taking it apart: what has been read is gone, and the rest is what
follows.  On an array the byte string stays and a position moves.  `At bytes pos rest` says that the
two are at the same place.  What the one takes from the front of the rest the other finds at its
position (`At.index`, `At.slice`), and its position never leaves the array (`At.sub`, `At.skip`).
-/

namespace CoinScript.Checked

variable {ε α : Type} {bytes rest : List α} {pos n : Nat} {x : α}

/-- From this position on the array holds the rest. -/
structure At (bytes : List α) (pos : Nat) (rest : List α) : Prop where
  within : pos ≤ bytes.length
  drop_eq : bytes.drop pos = rest

namespace At

theorem zero (bytes : List α) : At bytes 0 bytes := ⟨Nat.zero_le _, rfl⟩

theorem length_eq (h : At bytes pos rest) : rest.length = bytes.length - pos := by
  rw [← h.drop_eq, List.length_drop]

/-- The position and what follows it make up the array. -/
theorem add_length (h : At bytes pos rest) : pos + rest.length = bytes.length := by
  have hwithin := h.within
  rw [h.length_eq]
  omega

/-- Nothing follows at the end of the array only. -/
theorem eq_length_iff (h : At bytes pos rest) : pos = bytes.length ↔ rest = [] := by
  have hlength := h.add_length
  rw [← List.length_eq_zero_iff]
  omega

theorem getElem? (h : At bytes pos rest) (i : Nat) : bytes[pos + i]? = rest[i]? := by
  rw [← h.drop_eq, List.getElem?_drop]

/-- Past `n` elements of the rest. -/
theorem skip (h : At bytes pos rest) (hn : n ≤ rest.length) :
    At bytes (pos + n) (rest.drop n) := by
  have hlength := h.add_length
  exact ⟨by omega, by rw [← h.drop_eq, List.drop_drop]⟩

/-- Past one element. -/
theorem tail (h : At bytes pos (x :: rest)) : At bytes (pos + 1) rest :=
  h.skip (n := 1) (by rw [List.length_cons]; omega)

/-- The element at the position. -/
theorem getElem?_head (h : At bytes pos (x :: rest)) : bytes[pos]? = some x := h.getElem? 0

theorem index_head (h : At bytes pos (x :: rest)) : (index bytes pos : Checked ε α) = .ok x :=
  index_of_getElem? h.getElem?_head

/-- The distance to the end. -/
theorem sub (h : At bytes pos rest) :
    (Checked.sub bytes.length pos : Checked ε Nat) = .ok rest.length := by
  rw [sub_of_le h.within, h.length_eq]

/-- A position past `n` elements is a word. -/
theorem add (h : At bytes pos rest) (hn : n ≤ rest.length) (hword : bytes.length < wordSize) :
    (Checked.add pos n : Checked ε Nat) = .ok (pos + n) := by
  have hlength := h.add_length
  exact add_of_lt (by omega)

/-- The elements up to the position after `n` of them. -/
theorem slice (h : At bytes pos rest) (hn : n ≤ rest.length) :
    (Checked.slice bytes pos (pos + n) : Checked ε (List α)) = .ok (rest.take n) := by
  have hlength := h.add_length
  rw [slice_of_le (by omega) (by omega), h.drop_eq, Nat.add_sub_cancel_left]

end At

/-- A position and what follows a value stand for the same place. -/
def SamePlace {β : Type} (bytes : List α) (read : β × Nat) (parsed : β × List α) : Prop :=
  read.1 = parsed.1 ∧ At bytes read.2 parsed.2

theorem agrees_samePlace {β : Type} (b : β) (h : At bytes pos rest) :
    Agrees (SamePlace bytes) (.ok (b, pos) : Checked ε _) (.ok (b, rest)) := .ok ⟨rfl, h⟩

end CoinScript.Checked
