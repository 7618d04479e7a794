import CoinScript.Bytes.Lemmas
import CoinScript.Script.SignedPart

/-!
# Instructions are read back

`Script.encode_scan` says that writing what was read gives the script back.  Here is the other
direction: instructions that are written are read back, provided that each carries the payload that
its opcode announces (`Instruction.Readable`).  What is read always does, so leaving instructions
out of a script that reads to its end gives another one that reads to its end.

* `read_encode` and `scan_encode_append`: what is written is read back, whatever follows it.
* `readable_of_mem_scan`: what is read can be written and read back.
* `pushHeader_eq`: the header that is written for a length begins with the opcode that is the shortest
  for it; the two are chosen by tables of their own.
* `pushed_eq`: the shortest push header in front of a byte string is an instruction,
  `Instruction.push`, and `isPushOf_iff` says that comparing opcode and payload with a byte string
  is the same as comparing the bytes of the instruction with those of that push.
-/

namespace CoinScript

namespace Opcode

/-- The three ranges of opcodes with a counted payload, and the opcodes that are the count. -/
theorem forPush_cases (n : Nat) :
    (n ≤ 75 ∧ (forPush n).toNat = n ∧ lengthWidth (forPush n) = 0) ∨
      (75 < n ∧ n < 256 ^ 1 ∧ forPush n = 0x4c) ∨ (256 ^ 1 ≤ n ∧ n < 256 ^ 2 ∧ forPush n = 0x4d) ∨
      (256 ^ 2 ≤ n ∧ forPush n = 0x4e) := by
  unfold forPush
  by_cases h1 : n ≤ 75
  · have hn : (UInt8.ofNat n).toNat = n := by
      rw [UInt8.toNat_ofNat']
      omega
    have hne : ∀ m : UInt8, 75 < m.toNat → UInt8.ofNat n ≠ m := by
      rintro m hm rfl
      omega
    refine .inl ⟨h1, ?_⟩
    rw [if_pos h1, lengthWidth, if_neg (hne 0x4c (by decide)), if_neg (hne 0x4d (by decide)),
      if_neg (hne 0x4e (by decide))]
    exact ⟨hn, rfl⟩
  · rw [if_neg h1]
    by_cases h2 : n ≤ 0xff
    · rw [if_pos h2]
      exact .inr (.inl ⟨by omega, by omega, rfl⟩)
    · rw [if_neg h2]
      by_cases h3 : n ≤ 0xffff
      · rw [if_pos h3]
        exact .inr (.inr (.inl ⟨by omega, by omega, rfl⟩))
      · rw [if_neg h3]
        exact .inr (.inr (.inr ⟨by omega, rfl⟩))

theorem forPush_le (n : Nat) : forPush n ≤ 0x4e := by
  rcases forPush_cases n with ⟨hle, hn, -⟩ | ⟨-, -, h⟩ | ⟨-, -, h⟩ | ⟨-, h⟩
  · rw [UInt8.le_iff_toNat_le, hn]
    exact Nat.le_trans hle (by decide)
  all_goals
    rw [h]
    decide

theorem carriesData_forPush {n : Nat} (h : 0 < n) : carriesData (forPush n) = true := by
  refine decide_eq_true ⟨?_, forPush_le n⟩
  rcases forPush_cases n with ⟨-, hn, -⟩ | ⟨-, -, h⟩ | ⟨-, -, h⟩ | ⟨-, h⟩
  · rw [UInt8.le_iff_toNat_le, hn]
    exact h
  all_goals
    rw [h]
    decide

/-- Opcodes whose payload is counted in bytes of its own carry one. -/
theorem carriesData_of_lengthWidth {op : Opcode} (h : lengthWidth op ≠ 0) :
    carriesData op = true := by
  unfold lengthWidth at h
  split at h
  · next h1 => rw [h1]; rfl
  · split at h
    · next h2 => rw [h2]; rfl
    · split at h
      · next h4 => rw [h4]; rfl
      · exact absurd rfl h

theorem le_of_carriesData {op : Opcode} (h : carriesData op = true) : op ≤ 0x4e :=
  (of_decide_eq_true h).2

end Opcode

namespace Instruction

/-- The payload is as long as the opcode announces or, where the length has bytes of its own, not
too long for them. -/
inductive Readable : Instruction → Prop
  | bare {code : Opcode} (h : code.carriesData = false) : Readable ⟨code, none⟩
  | direct {code : Opcode} {b : Bytes} (h : code.carriesData = true) (hw : code.lengthWidth = 0)
    (hb : b.length = code.toNat) : Readable ⟨code, some b⟩
  | counted {code : Opcode} {b : Bytes} (hw : code.lengthWidth ≠ 0)
    (hb : b.length < 256 ^ code.lengthWidth) : Readable ⟨code, some b⟩

theorem readable_of_read {b : Bytes} {i : Instruction} {rest : Bytes}
    (h : read b = some (i, rest)) :
    i.Readable := by
  cases b with
  | nil => cases h
  | cons code tail =>
    simp only [read] at h
    split at h
    · next hc =>
      split at h
      · cases h
      · next hfit =>
        simp only [not_or, Nat.not_lt] at hfit
        obtain ⟨hwidth, hsize⟩ := hfit
        cases h
        by_cases hw : Opcode.lengthWidth code = 0
        · refine .direct hc hw ?_
          rw [List.length_take_of_le hsize, announced, if_pos hw]
        · refine .counted hw ?_
          rw [List.length_take_of_le hsize, announced, if_neg hw]
          have hlt := Bytes.toNatLE_lt (tail.take (Opcode.lengthWidth code))
          rwa [List.length_take_of_le hwidth] at hlt
    · next hc =>
      cases h
      exact .bare (by simpa using hc)

/-- An opcode without a payload is written as one byte. -/
theorem encode_bare {code : Opcode} (h : code.carriesData = false) :
    encode ⟨code, none⟩ = [code] := by
  have hw : Opcode.lengthWidth code = 0 := by
    by_contra hw
    rw [Opcode.carriesData_of_lengthWidth hw] at h
    cases h
  simp [encode, data, hw, Bytes.ofNatLE]

/-- **A readable instruction is read back from its bytes**, whatever follows them. -/
theorem read_encode {i : Instruction} (h : i.Readable) (rest : Bytes) :
    read (i.encode ++ rest) = some (i, rest) := by
  cases h with
  | @bare code h =>
    rw [encode_bare h]
    simp [read, h]
  | @direct code b h hw hb =>
    have hle : code ≤ 0x4e := Opcode.le_of_carriesData h
    simp only [encode, data, Option.getD_some, hw, Bytes.ofNatLE, if_pos hle, List.nil_append,
      List.cons_append, read, h, if_true, announced, List.drop_zero, ← hb]
    simp
  | @counted code b hw hb =>
    have h : Opcode.carriesData code = true := Opcode.carriesData_of_lengthWidth hw
    have hle : code ≤ 0x4e := Opcode.le_of_carriesData h
    have hfield : (Bytes.ofNatLE (Opcode.lengthWidth code) b.length).length =
        Opcode.lengthWidth code := Bytes.length_ofNatLE ..
    have hsize : announced code (Bytes.ofNatLE (Opcode.lengthWidth code) b.length) = b.length := by
      rw [announced, if_neg hw, Bytes.toNatLE_ofNatLE hb]
    simp only [encode, data, Option.getD_some, if_pos hle, List.cons_append, List.append_assoc,
      read, h, if_true, List.take_left' hfield, List.drop_left' hfield, hsize]
    simp

theorem encode_injOn {i j : Instruction} (hi : i.Readable) (hj : j.Readable)
    (h : i.encode = j.encode) : i = j := by
  have hread := read_encode hi []
  rw [h, read_encode hj []] at hread
  cases hread
  rfl

end Instruction

namespace Script

theorem readable_of_mem_scan {b : Script} : ∀ i ∈ (scan b).1, i.Readable := by
  fun_induction scan b with
  | case1 b h => simp
  | case2 b i rest h after ih =>
    intro j hj
    rcases List.mem_cons.mp hj with rfl | hj
    · exact Instruction.readable_of_read h
    · exact ih j hj

/-- **Readable instructions are read back from a script**, and then what follows them is read. -/
theorem scan_encode_append {is : List Instruction} (h : ∀ i ∈ is, i.Readable) (rest : Script) :
    scan (encode is ++ rest) = (is ++ (scan rest).1, (scan rest).2) := by
  induction is with
  | nil => rfl
  | cons i is ih =>
    have hread := Instruction.read_encode (h i (.head _)) (encode is ++ rest)
    rw [encode_cons, List.append_assoc, scan_of_some hread, ih fun j hj => h j (.tail _ hj)]
    rfl

theorem scan_encode {is : List Instruction} (h : ∀ i ∈ is, i.Readable) :
    scan (encode is) = (is, []) := by
  have hscan := scan_encode_append h []
  rw [List.append_nil] at hscan
  rw [hscan, scan_of_none rfl, List.append_nil]

theorem encode_append (is js : List Instruction) : encode (is ++ js) = encode is ++ encode js :=
  List.flatMap_append

/-- The bytes of a script that reads to its end are those of its instructions. -/
theorem encode_scan_of_tail {b : Script} (h : (scan b).2 = []) : encode (scan b).1 = b := by
  have hscan := encode_scan b
  rwa [h, List.append_nil] at hscan

end Script

/-! ## Shortest pushes -/

namespace Instruction

theorem readable_push {b : Bytes} (h : b.length < UInt32.size) : (push b).Readable := by
  unfold push
  by_cases hb : b = []
  · subst hb
    exact .bare rfl
  · rw [if_neg hb]
    have hpos : 0 < b.length := List.length_pos_iff.mpr hb
    have hcarries := Opcode.carriesData_forPush hpos
    rcases Opcode.forPush_cases b.length with ⟨-, hn, hw⟩ | ⟨-, hlt, hop⟩ | ⟨-, hlt, hop⟩ | ⟨-, hop⟩
    · exact .direct hcarries hw hn.symm
    all_goals
      rw [hop]
      refine .counted (by decide) ?_
    · exact hlt
    · exact hlt
    · exact h

theorem data_push (b : Bytes) : (push b).data = b := by
  unfold push data
  split
  · next h => rw [h]; rfl
  · rfl

theorem code_push (b : Bytes) : (push b).code = .forPush b.length := rfl

theorem readable_push_hash (h : Hash160) : (push h.bytes).Readable :=
  readable_push (by rw [Block.length_bytes]; decide)

/-- The push of a hash, as it stands in the known forms of locks. -/
theorem encode_push_hash (h : Hash160) : (push h.bytes).encode = 0x14 :: h.bytes := by
  have hcode : (push h.bytes).code = 0x14 := by
    rw [code_push, Block.length_bytes]
    rfl
  rw [encode, data_push, hcode, if_pos (by decide)]
  rfl

/-- The only readable instruction that pushes a non-empty byte string in the shortest way. -/
theorem eq_push {i : Instruction} {b : Bytes} (hi : i.Readable) (hb : b ≠ [])
    (h : i.isPushOf b = true) : i = push b ∧ b.length < UInt32.size := by
  obtain ⟨-, hdata, hcode⟩ := of_decide_eq_true h
  have hpush : ∀ code, code = Opcode.forPush b.length →
      (⟨code, some b⟩ : Instruction) = push b := by
    rintro code rfl
    rw [push, if_neg hb]
  cases hi with
  | bare _ => exact absurd hdata.symm hb
  | @direct code c hc hw hlen =>
    obtain rfl : c = b := hdata
    refine ⟨hpush code hcode, ?_⟩
    rw [hlen]
    exact Nat.lt_trans (UInt8.toNat_lt code) (by decide)
  | @counted code c hw hlen =>
    obtain rfl : c = b := hdata
    refine ⟨hpush code hcode, Nat.lt_of_lt_of_le hlen ?_⟩
    rw [show code = Opcode.forPush c.length from hcode]
    rcases Opcode.forPush_cases c.length with ⟨-, -, hw⟩ | ⟨-, -, hop⟩ | ⟨-, -, hop⟩ | ⟨-, hop⟩
    · rw [hw]
      decide
    all_goals
      rw [hop]
      decide

end Instruction

namespace Script

/-- **The header that is written agrees with the opcode that is looked for.**  It is that opcode, with
the length in as many bytes as are read after it. -/
theorem pushHeader_eq {n : Nat} (h : n < UInt32.size) :
    pushHeader n =
      .ok (Opcode.forPush n :: Bytes.ofNatLE (Opcode.lengthWidth (.forPush n)) n) := by
  unfold pushHeader
  rcases Opcode.forPush_cases n with ⟨hle, -, hw⟩ | ⟨hgt, hlt, hop⟩ | ⟨hge, hlt, hop⟩ | ⟨hge, hop⟩
  · rw [if_pos hle, hw, Opcode.forPush, if_pos hle]
    rfl
  · rw [if_neg (by omega), if_pos (by omega), hop]
    rfl
  · rw [if_neg (by omega), if_neg (by omega), if_pos (by omega), hop]
    rfl
  · rw [if_neg (by omega), if_neg (by omega), if_neg (by omega), if_pos h, hop]
    rfl

/-- No header announces a length of more than four bytes. -/
theorem pushHeader_of_le {n : Nat} (h : UInt32.size ≤ n) : pushHeader n = .error .pushTooLong := by
  have hlong : 0xffff < n := Nat.lt_of_lt_of_le (by decide) h
  unfold pushHeader
  rw [if_neg (by omega), if_neg (by omega), if_neg (by omega), if_neg (Nat.not_lt.mpr h)]

/-- **A byte string behind its shortest push header is an instruction.** -/
theorem pushed_eq {b : Bytes} (h : b.length < UInt32.size) :
    pushed b = .ok (Instruction.push b).encode := by
  have hle : (Instruction.push b).code ≤ 0x4e := Opcode.forPush_le b.length
  unfold pushed
  rw [pushHeader_eq h, Instruction.encode, if_pos hle, Instruction.data_push, Instruction.code_push]
  rfl

theorem pushed_eq_ok_iff {b : Bytes} {p : Script} :
    pushed b = .ok p ↔ b.length < UInt32.size ∧ p = (Instruction.push b).encode := by
  by_cases h : b.length < UInt32.size
  · rw [pushed_eq h]
    simp [h, eq_comm]
  · unfold pushed
    rw [pushHeader_of_le (Nat.not_lt.mp h)]
    simp [h]

end Script

/-- **An instruction is the shortest push of a byte string exactly if its bytes are those that are
put at the end of a script to push it.** -/
theorem Instruction.isPushOf_iff {i : Instruction} {b : Bytes} (hi : i.Readable) (hb : b ≠ []) :
    i.isPushOf b = true ↔ Script.pushed b = .ok i.encode := by
  rw [Script.pushed_eq_ok_iff]
  constructor
  · intro h
    obtain ⟨rfl, hlen⟩ := eq_push hi hb h
    exact ⟨hlen, rfl⟩
  · rintro ⟨hlen, hencode⟩
    obtain rfl := encode_injOn hi (readable_push hlen) hencode
    exact decide_eq_true ⟨Opcode.forPush_le _, data_push b, code_push b⟩

end CoinScript
