import CoinScript.Proofs.Machine.Stepping
import CoinScript.Proofs.Script.Decoding
import CoinScript.Proofs.Script.Skeleton

/-!
# Scripts and their instructions

A script is any byte string, and some byte strings do not read as instructions.  This module says
exactly which do, and that nothing is lost on the way in either direction.

* `decode_eq_ok_iff`: a script reads as a list of instructions exactly if it is what they are
  written as and each of them carries the payload that its opcode asks for
  (`Instruction.Readable`).  Push headers that are longer than needed are such instructions too and
  are written as they were read.
* `decode_eq_error_iff`: it does not read exactly if some push runs past its end (`TruncatedAt`),
  and the error names the place of that push.  There is one such place at most
  (`TruncatedAt.unique`), since what stands before it reads to its end.
* The machine has a reader of its own, which answers with a fault.  `Run.parse_eq_ok_iff` and
  `Run.parse_eq_error_iff` say that it reads the same scripts as the same instructions and finds the
  same place.

The machine looks at the bytes of a payload only, and does not tell an empty payload from
none.  That is enough to write the script: `encode_congr`.
-/

namespace CoinScript

namespace Opcode

/-- What follows the opcode in a script: as many bytes as the opcode says, as many as can be counted
by the one, two or four bytes of a length, or nothing. -/
def Carries (op : Opcode) : (payload : Option Bytes) → Prop
  | some b =>
    (0x01 ≤ op ∧ op ≤ 0x4b ∧ b.length = op.toNat) ∨ (op = 0x4c ∧ b.length < 256 ^ 1) ∨
      (op = 0x4d ∧ b.length < 256 ^ 2) ∨ (op = 0x4e ∧ b.length < 256 ^ 4)
  | none => op = 0x00 ∨ 0x4e < op

theorem carriesData_eq_false_iff (op : Opcode) :
    carriesData op = false ↔ op = 0x00 ∨ 0x4e < op :=
  of_decide_eq_true (forall_of_lt
    (p := fun op => decide (carriesData op = false ↔ op = 0x00 ∨ 0x4e < op)) (by decide +kernel) op)

/-- The opcodes that are the length of their payload. -/
theorem counts_iff (op : Opcode) :
    carriesData op = true ∧ lengthWidth op = 0 ↔ 0x01 ≤ op ∧ op ≤ 0x4b :=
  of_decide_eq_true (forall_of_lt
    (p := fun op => decide (carriesData op = true ∧ lengthWidth op = 0 ↔ 0x01 ≤ op ∧ op ≤ 0x4b))
    (by decide +kernel) op)

end Opcode

namespace Instruction

theorem readable_iff {i : Instruction} : i.Readable ↔ i.code.Carries i.payload := by
  constructor
  · rintro (@⟨code, h⟩ | @⟨code, b, h, hw, hb⟩ | @⟨code, b, hw, hb⟩)
    · exact (Opcode.carriesData_eq_false_iff code).mp h
    · obtain ⟨hlow, hhigh⟩ := (Opcode.counts_iff code).mp ⟨h, hw⟩
      exact .inl ⟨hlow, hhigh, hb⟩
    · unfold Opcode.lengthWidth at hw hb
      by_cases h1 : code = 0x4c
      · rw [if_pos h1] at hb
        exact .inr (.inl ⟨h1, hb⟩)
      · by_cases h2 : code = 0x4d
        · rw [if_neg h1, if_pos h2] at hb
          exact .inr (.inr (.inl ⟨h2, hb⟩))
        · by_cases h4 : code = 0x4e
          · rw [if_neg h1, if_neg h2, if_pos h4] at hb
            exact .inr (.inr (.inr ⟨h4, hb⟩))
          · rw [if_neg h1, if_neg h2, if_neg h4] at hw
            exact absurd rfl hw
  · obtain ⟨code, payload⟩ := i
    intro h
    cases payload with
    | none => exact .bare ((Opcode.carriesData_eq_false_iff code).mpr h)
    | some b =>
      rcases h with ⟨hlow, hhigh, hb⟩ | ⟨rfl, hb⟩ | ⟨rfl, hb⟩ | ⟨rfl, hb⟩
      · obtain ⟨hcarries, hw⟩ := (Opcode.counts_iff code).mpr ⟨hlow, hhigh⟩
        exact .direct hcarries hw hb
      all_goals exact .counted (by decide) hb

/-- An instruction as the machine looks at it: an opcode and data, which may be empty. -/
def parts (i : Instruction) : Opcode × Bytes := (i.code, i.data)

/-- What is written of an instruction is a matter of its opcode and its data. -/
theorem encode_of_parts {i j : Instruction} (h : i.parts = j.parts) : i.encode = j.encode := by
  obtain ⟨hcode, hdata⟩ := Prod.mk.inj h
  unfold encode
  rw [hcode, hdata]

/-- Nothing is read exactly at the end, and from a push for which there are not enough bytes: fewer
than its length takes, or fewer than it gives. -/
theorem read_cons_eq_none_iff {code : Opcode} {rest : Bytes} :
    read (code :: rest) = none ↔ code.carriesData = true ∧
      rest.length < code.lengthWidth + announced code (rest.take code.lengthWidth) := by
  simp only [read]
  split
  · next hcarries =>
    rw [ite_eq_left_iff]
    simp only [reduceCtorEq, imp_false, Decidable.not_not, List.length_drop, hcarries, true_and]
    omega
  · next hcarries => simp [hcarries]

end Instruction

namespace Script

/-- What is written is a matter of opcodes and data. -/
theorem encode_congr {is js : List Instruction}
    (h : js.map Instruction.parts = is.map Instruction.parts) : encode js = encode is := by
  induction is generalizing js with
  | nil =>
    rw [List.map_eq_nil_iff.mp h]
  | cons i is ih =>
    obtain ⟨j, js, rfl, hj, hjs⟩ := List.map_eq_cons_iff.mp h
    rw [encode_cons, encode_cons, Instruction.encode_of_parts hj, ih hjs]

/-! ## Scripts that read to their end -/

theorem decode_eq_ok_iff_scan {b : Script} {is : List Instruction} :
    decode b = .ok is ↔ scan b = (is, []) := by
  unfold decode
  rw [Prod.ext_iff]
  by_cases h : (scan b).2 = []
  · rw [if_pos h]
    simp [h]
  · rw [if_neg h]
    simp [h]

/-- **The scripts that read to their end are the written forms of instructions that carry what their
opcodes ask for.** -/
theorem decode_eq_ok_iff {b : Script} {is : List Instruction} :
    decode b = .ok is ↔ (∀ i ∈ is, i.code.Carries i.payload) ∧ encode is = b := by
  rw [decode_eq_ok_iff_scan]
  simp only [← Instruction.readable_iff]
  constructor
  · intro h
    have hreadable := readable_of_mem_scan (b := b)
    have hencode := encode_scan_of_tail (congrArg Prod.snd h)
    rw [h] at hreadable hencode
    exact ⟨hreadable, hencode⟩
  · rintro ⟨hreadable, rfl⟩
    exact scan_encode hreadable

/-! ## Scripts that do not -/

/-- What stands before the place reads to its end, and at the place there is a push that runs past
the end of the script: fewer bytes follow than its length takes, or fewer than it gives. -/
structure TruncatedAt (b : Script) (p : Nat) : Prop where
  before : ∃ is, decode (b.take p) = .ok is
  push : ∃ (code : Opcode) (rest : Bytes), b.drop p = code :: rest ∧ code.carriesData = true ∧
    rest.length < code.lengthWidth + Instruction.announced code (rest.take code.lengthWidth)

/-- The tail that does not read is what stands from the push on. -/
theorem TruncatedAt.scan_eq {b : Script} {p : Nat} (h : b.TruncatedAt p) :
    (scan b).2 = b.drop p ∧ p < b.length := by
  obtain ⟨is, his⟩ := h.before
  obtain ⟨code, rest, hdrop, hpast⟩ := h.push
  obtain ⟨hcarries, hencode⟩ := decode_eq_ok_iff.mp his
  have hnone : Instruction.read (b.drop p) = none := by
    rw [hdrop]
    exact Instruction.read_cons_eq_none_iff.mpr hpast
  have hscan := scan_encode_append (fun i hi => Instruction.readable_iff.mpr (hcarries i hi))
    (b.drop p)
  rw [hencode, List.take_append_drop, scan_of_none hnone] at hscan
  have hlength : (b.drop p).length = rest.length + 1 := by rw [hdrop, List.length_cons]
  rw [List.length_drop] at hlength
  exact ⟨congrArg Prod.snd hscan, by omega⟩

theorem TruncatedAt.unique {b : Script} {p q : Nat} (hp : b.TruncatedAt p) (hq : b.TruncatedAt q) :
    q = p := by
  obtain ⟨htail, hlt⟩ := hp.scan_eq
  obtain ⟨htail', hlt'⟩ := hq.scan_eq
  have hlength : (b.drop p).length = (b.drop q).length := by rw [← htail, ← htail']
  simp only [List.length_drop] at hlength
  omega

theorem TruncatedAt.decode_eq {b : Script} {p : Nat} (h : b.TruncatedAt p) :
    decode b = .error (.pushPastEnd p) := by
  obtain ⟨htail, hlt⟩ := h.scan_eq
  have hne : b.drop p ≠ [] := by
    rw [← List.length_pos_iff, List.length_drop]
    omega
  unfold decode
  rw [htail, if_neg hne, List.length_drop, Nat.sub_sub_self (Nat.le_of_lt hlt)]

/-- What is left where nothing more reads does not read itself. -/
theorem read_scan_tail (b : Script) : Instruction.read (scan b).2 = none := by
  fun_induction scan b with
  | case1 b h => exact h
  | case2 b i rest h after ih => exact ih

/-- Readable instructions in front of bytes that do not read end where the push begins that runs
past the end. -/
theorem truncatedAt_append {is : List Instruction} {tail : Bytes} (his : ∀ i ∈ is, i.Readable)
    (hne : tail ≠ []) (hnone : Instruction.read tail = none) :
    TruncatedAt (encode is ++ tail) (encode is).length := by
  constructor
  · refine ⟨is, decode_eq_ok_iff.mpr ⟨fun i hi => Instruction.readable_iff.mp (his i hi), ?_⟩⟩
    rw [List.take_left]
  · rw [List.drop_left]
    cases tail with
    | nil => exact absurd rfl hne
    | cons code rest => exact ⟨code, rest, rfl, Instruction.read_cons_eq_none_iff.mp hnone⟩

/-- A script with a tail that does not read has such a push. -/
theorem truncatedAt_of_tail {b : Script} (h : (scan b).2 ≠ []) :
    b.TruncatedAt (b.length - (scan b).2.length) := by
  have htruncated := truncatedAt_append (readable_of_mem_scan (b := b)) h (read_scan_tail b)
  have hlength := congrArg List.length (encode_scan b)
  rw [List.length_append] at hlength
  rw [encode_scan] at htruncated
  rwa [← hlength, Nat.add_sub_cancel]

/-- **A script does not read to its end exactly if a push runs past it**, and the error gives the
place of that push. -/
theorem decode_eq_error_iff {b : Script} {e : ScriptError} :
    decode b = .error e ↔ ∃ p, e = .pushPastEnd p ∧ b.TruncatedAt p := by
  constructor
  · intro h
    have htail : (scan b).2 ≠ [] := by
      intro hnil
      rw [decode, if_pos hnil] at h
      cases h
    rw [decode, if_neg htail] at h
    exact ⟨_, (Except.error.inj h).symm, truncatedAt_of_tail htail⟩
  · rintro ⟨p, rfl, htruncated⟩
    exact htruncated.decode_eq

end Script

/-! ## The reader of the machine -/

namespace Run

variable {b : Script} {m m' : Machine}

theorem parse_eq_ok_iff {is : List Instruction} :
    parse b m = .ok is m' ↔ Script.decode b = .ok is ∧ m' = m := by
  rw [Script.decode_eq_ok_iff_scan, Prod.ext_iff]
  constructor
  · intro h
    obtain ⟨htail, rfl, rfl⟩ := parse_eq_ok h
    exact ⟨⟨rfl, htail⟩, rfl⟩
  · rintro ⟨⟨rfl, htail⟩, rfl⟩
    exact parse_of_tail htail m'

theorem parse_eq_error_iff {fault : Fault} :
    parse b m = .error fault m' ↔
      ∃ p, Script.decode b = .error (.pushPastEnd p) ∧ fault = .truncatedPush p b.length ∧
        m' = m := by
  by_cases htail : (Script.scan b).2 = []
  · rw [parse_of_tail htail m, Script.decode, if_pos htail]
    simp
  · have hparse : parse b m =
        .error (.truncatedPush (b.length - (Script.scan b).2.length) b.length) m := by
      unfold parse
      rw [show (Script.scan b).2.isEmpty = false by simpa using htail]
      rfl
    rw [hparse, Script.decode, if_neg htail]
    simp [eq_comm]

end Run

/-! ## The statement -/

/-- **Reading and writing scripts are inverse to each other, and the reader of the machine agrees.**
A script reads as instructions exactly if each of them carries what its opcode asks for and it is
what they are written as, so that such instructions are read back and what was read is written as it
was.  The machine reads the same scripts as the same instructions, and what it read is written as it
was, whether or not empty payloads are told from none.  An error names the only place where what
stands before reads to its end and a push runs past the end, and the fault of the machine names the
same place. -/
theorem script_reading_exact (b : Script) :
    (∀ is, Script.decode b = .ok is ↔
      (∀ i ∈ is, i.code.Carries i.payload) ∧ Script.encode is = b) ∧
    (∀ m is m', Run.parse b m = .ok is m' ↔ Script.decode b = .ok is ∧ m' = m) ∧
    (∀ m is m', Run.parse b m = .ok is m' →
      ∀ js : List Instruction, js.map Instruction.parts = is.map Instruction.parts →
        Script.encode js = b) ∧
    (∀ e, Script.decode b = .error e ↔ ∃ p, e = .pushPastEnd p ∧ b.TruncatedAt p) ∧
    (∀ p q, b.TruncatedAt p → b.TruncatedAt q → q = p) ∧
    ∀ m fault m', Run.parse b m = .error fault m' ↔
      ∃ p, Script.decode b = .error (.pushPastEnd p) ∧ fault = .truncatedPush p b.length ∧
        m' = m := by
  refine ⟨fun _ => Script.decode_eq_ok_iff, fun _ _ _ => Run.parse_eq_ok_iff, ?_,
    fun _ => Script.decode_eq_error_iff, fun _ _ => Script.TruncatedAt.unique,
    fun _ _ _ => Run.parse_eq_error_iff⟩
  intro m is m' hparse js hparts
  obtain ⟨hdecode, -⟩ := Run.parse_eq_ok_iff.mp hparse
  rw [Script.encode_congr hparts]
  exact (Script.decode_eq_ok_iff.mp hdecode).2

/-- A payload of one byte behind a header of two is read and written as it stands; a push of two bytes
that lacks one is found at its place, and nowhere else. -/
theorem script_reading_longHeader :
    Script.decode [0x00, 0x4c, 0x01, 0xaa] = .ok [⟨0x00, none⟩, ⟨0x4c, some [0xaa]⟩] ∧
      (∀ m, Run.parse [0x51, 0x02, 0xaa] m = .error (.truncatedPush 1 3) m) ∧
      Script.TruncatedAt [0x51, 0x02, 0xaa] 1 ∧
      ∀ p, Script.TruncatedAt [0x51, 0x02, 0xaa] p → p = 1 := by
  obtain ⟨hread, -⟩ := script_reading_exact [0x00, 0x4c, 0x01, 0xaa]
  obtain ⟨-, -, -, herror, hunique, hfault⟩ := script_reading_exact [0x51, 0x02, 0xaa]
  have hdecode : Script.decode [0x51, 0x02, 0xaa] = .error (.pushPastEnd 1) := by decide +kernel
  obtain ⟨p, hp, htruncated⟩ := (herror _).mp hdecode
  cases hp
  refine ⟨(hread _).mpr ⟨?_, by decide⟩, fun m => (hfault m _ m).mpr ⟨1, hdecode, rfl, rfl⟩,
    htruncated, fun p hp => hunique 1 p htruncated hp⟩
  intro i hi
  simp only [List.mem_cons, List.not_mem_nil, or_false] at hi
  rcases hi with rfl | rfl
  · exact .inl rfl
  · exact .inr (.inl ⟨rfl, by decide⟩)

end CoinScript
