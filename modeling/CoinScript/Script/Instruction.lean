import CoinScript.Bytes.Endian
import CoinScript.Bytes.Hex
import CoinScript.Script.Opcode

/-!
# Instructions

A script is a byte string, read as a sequence of instructions: an opcode and, for some opcodes, a
payload.  `Instruction.read` takes one from the front of a byte string and fails only on a push
that runs past the end (or on nothing at all).  An instruction keeps the opcode it was read with,
so `encode_read` holds: writing what was read gives the same bytes back, push headers longer than
needed included.
-/

namespace CoinScript

/-- One opcode with the payload it carries, if it carries one. -/
structure Instruction where
  code : Opcode
  payload : Option Bytes
deriving DecidableEq, Repr

namespace Instruction

/-- The payload, empty for an opcode without one. -/
def data (i : Instruction) : Bytes := i.payload.getD []

/-- A push whose value is not looked up elsewhere: opcodes up to `OP_16`. -/
def isPush (i : Instruction) : Bool := decide (i.code ≤ 0x60 ∧ i.code ≠ 0x50)

/-- The bytes of an instruction, with the push header it was read with.  A length that does not
fit the header is cut off. -/
def encode (i : Instruction) : Bytes :=
  i.code ::
    (Bytes.ofNatLE i.code.lengthWidth i.data.length ++ if i.code ≤ 0x4e then i.data else [])

/-- Length of the payload that `code` announces, where `field` are the bytes after it that give
the length. -/
def announced (code : Opcode) (field : Bytes) : Nat :=
  if code.lengthWidth = 0 then code.toNat else Bytes.toNatLE field

/-- Takes one instruction from the front. -/
def read : Bytes → Option (Instruction × Bytes)
  | [] => none
  | code :: rest =>
    if Opcode.carriesData code then
      let width := Opcode.lengthWidth code
      let size := announced code (rest.take width)
      if rest.length < width ∨ (rest.drop width).length < size then none
      else some (⟨code, some ((rest.drop width).take size)⟩, (rest.drop width).drop size)
    else some (⟨code, none⟩, rest)

/-- The shortest push of a byte string. -/
def push (b : Bytes) : Instruction :=
  ⟨.forPush b.length, if b = [] then none else some b⟩

/-- The instruction is the shortest push of the given bytes. -/
def isPushOf (i : Instruction) (b : Bytes) : Bool :=
  decide (i.code ≤ 0x4e ∧ i.data = b ∧ i.code = .forPush b.length)

/-- Reading leaves fewer bytes than there were. -/
theorem length_of_read {b : Bytes} {i : Instruction} {rest : Bytes} (h : read b = some (i, rest)) :
    rest.length < b.length := by
  cases b with
  | nil => simp [read] at h
  | cons code tail =>
    simp only [read] at h
    split at h
    · split at h
      · cases h
      · simp only [Option.some.injEq, Prod.mk.injEq] at h
        rw [← h.2]
        simp only [List.length_drop, List.length_cons]
        omega
    · simp only [Option.some.injEq, Prod.mk.injEq] at h
      rw [← h.2]
      simp

/-- **Writing what was read gives the same bytes back.** -/
theorem encode_read {b : Bytes} {i : Instruction} {rest : Bytes} (h : read b = some (i, rest)) :
    i.encode ++ rest = b := by
  cases b with
  | nil => simp [read] at h
  | cons code tail =>
    simp only [read] at h
    split at h
    · next hc =>
      have hle : code ≤ 0x4e := by
        simp only [Opcode.carriesData, decide_eq_true_eq] at hc
        exact hc.2
      split at h
      · cases h
      · next hfit =>
        simp only [Option.some.injEq, Prod.mk.injEq] at h
        obtain ⟨rfl, rfl⟩ := h
        simp only [not_or, Nat.not_lt] at hfit
        have hsize : ((tail.drop (Opcode.lengthWidth code)).take
            (announced code (tail.take (Opcode.lengthWidth code)))).length =
            announced code (tail.take (Opcode.lengthWidth code)) :=
          List.length_take_of_le hfit.2
        have hfield : Bytes.ofNatLE (Opcode.lengthWidth code)
            (announced code (tail.take (Opcode.lengthWidth code))) =
            tail.take (Opcode.lengthWidth code) := by
          by_cases hw : Opcode.lengthWidth code = 0
          · simp [hw, Bytes.ofNatLE]
          · have hlen : (tail.take (Opcode.lengthWidth code)).length = Opcode.lengthWidth code :=
              List.length_take_of_le hfit.1
            rw [announced, if_neg hw]
            conv => lhs; arg 1; rw [← hlen]
            exact Bytes.ofNatLE_toNatLE _
        simp only [encode, data, Option.getD_some, hsize, if_pos hle, hfield]
        rw [List.cons_append, List.append_assoc, List.take_append_drop, List.take_append_drop]
    · next hc =>
      simp only [Option.some.injEq, Prod.mk.injEq] at h
      obtain ⟨rfl, rfl⟩ := h
      have hw : Opcode.lengthWidth code = 0 := by
        unfold Opcode.lengthWidth
        split
        · next h1 => exact absurd (by rw [h1]; rfl) hc
        · split
          · next h2 => exact absurd (by rw [h2]; rfl) hc
          · split
            · next h4 => exact absurd (by rw [h4]; rfl) hc
            · rfl
      simp [encode, data, hw, Bytes.ofNatLE]

end Instruction

end CoinScript
