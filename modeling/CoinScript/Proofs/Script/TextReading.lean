import CoinScript.Proofs.Machine.ShortestPush
import CoinScript.Proofs.Script.Words
import Mathlib.Data.List.Forall2

/-!
# What a script keeps as text

The text of a script has a word for every instruction, and the script that is read from it has an
instruction for every word that can be seen there.  A push of nothing under a counted header, such as
`4c 00`, has a word without characters: nothing stands between its two spaces, and two spaces are read
like one.  So the push is lost, and what is read does not do the same (`Script.forall₂_keeps_iff`),
although `OP_FALSE` would be a word for an instruction that does.  Everything else is kept: bare opcodes
come back as they are, and a push comes back as the shortest push of the same bytes
(`Script.ofText_toText_of_assigned`).

A script with an opcode that has no name of its own has a text that is not read at all, whatever else
is in it (`Script.ofText_toText_of_unassigned`).
-/

namespace CoinScript

namespace Instruction

variable {i : Instruction} {b : Bytes}

/-- A push of nothing under a header that counts it. -/
def IsHollow (i : Instruction) : Prop := i.payload = some []

instance (i : Instruction) : Decidable i.IsHollow := inferInstanceAs (Decidable (_ = _))

/-- The instruction that the word is read as: a push gets the shortest header. -/
def retold (i : Instruction) : Instruction :=
  match i.payload with
  | some b => push b
  | none => i

/-- In place of the first instruction the second one does the same: without a payload it is the same
opcode, and otherwise a push of the same bytes under a header that is not longer. -/
def Keeps (i j : Instruction) : Prop :=
  match i.payload with
  | none => j = i
  | some b => j.code ≤ 0x4e ∧ j.data = b ∧ j.encode.length ≤ i.encode.length

/-! ## One word -/

/-- Only a push has a payload. -/
theorem Readable.carriesData_eq_false_iff (hi : i.Readable) :
    i.code.carriesData = false ↔ i.payload = none := by
  cases hi with
  | bare h => exact iff_of_true h rfl
  | direct h _ _ => exact iff_of_false (by rw [h]; exact Bool.noConfusion) (Option.some_ne_none _)
  | counted hw _ =>
    exact iff_of_false (by rw [Opcode.carriesData_of_lengthWidth hw]; exact Bool.noConfusion)
      (Option.some_ne_none _)

theorem Readable.carriesData_of_some (hi : i.Readable) (hb : i.payload = some b) :
    i.code.carriesData = true := by
  rw [← Bool.not_eq_false, hi.carriesData_eq_false_iff, hb]
  exact Option.some_ne_none b

/-- An opcode without a name of its own has no payload. -/
theorem Readable.payload_of_unassigned (hi : i.Readable) (hop : ¬i.code.IsAssigned) :
    i.payload = none := by
  obtain ⟨hhigh, -⟩ := not_or.mp hop
  rw [← hi.carriesData_eq_false_iff, Opcode.carriesData, decide_eq_false_iff_not]
  grind

/-- No payload is longer than what a header can count. -/
theorem Readable.length_lt (hi : i.Readable) (hb : i.payload = some b) : b.length < UInt32.size := by
  have hcarries := readable_iff.mp hi
  rw [hb] at hcarries
  rcases hcarries with ⟨-, hhigh, hlength⟩ | ⟨-, hlt⟩ | ⟨-, hlt⟩ | ⟨-, hlt⟩
  · have hle : i.code.toNat ≤ 75 := UInt8.le_iff_toNat_le.mp hhigh
    rw [hlength]
    exact Nat.lt_of_le_of_lt hle (by decide)
  all_goals exact Nat.lt_of_lt_of_le hlt (by decide)

theorem word_of_none (hb : i.payload = none) : i.word = i.code.name.toList := by
  rw [word, hb]

theorem word_of_some (hi : i.Readable) (hb : i.payload = some b) : i.word = Hex.digits b := by
  rw [word, hb]
  exact if_pos (hi.carriesData_of_some hb)

/-- **A word has no blanks in it.** -/
theorem isBlank_word (hi : i.Readable) : ∀ c ∈ i.word, Text.isBlank c = false := by
  cases hb : i.payload with
  | none =>
    rw [word_of_none hb]
    exact (Opcode.spoken_characters
      (Opcode.name_mem_spoken (hi.carriesData_eq_false_iff.mpr hb))).2
  | some b =>
    rw [word_of_some hi hb]
    intro c hc
    obtain ⟨n, hn, rfl⟩ := Hex.mem_digits hc
    exact Hex.isBlank_digit hn

/-- **A push of nothing has an empty word**, and nothing else has. -/
theorem word_eq_nil_iff (hi : i.Readable) : i.word = [] ↔ i.IsHollow := by
  cases hb : i.payload with
  | none =>
    have hletter := (Opcode.spoken_characters
      (Opcode.name_mem_spoken (hi.carriesData_eq_false_iff.mpr hb))).1
    rw [word_of_none hb, IsHollow, hb]
    exact iff_of_false (List.ne_nil_of_mem hletter) (Option.some_ne_none _).symm
  | some b =>
    rw [word_of_some hi hb, IsHollow, hb, Option.some_inj, ← List.length_eq_zero_iff,
      Hex.length_digits, ← List.length_eq_zero_iff]
    omega

theorem readable_retold (hi : i.Readable) : i.retold.Readable := by
  unfold retold
  split
  · next b hb => exact readable_push (hi.length_lt hb)
  · exact hi

/-- **The word of an instruction is read as one that does the same.** -/
theorem ofWord_word (hi : i.Readable) (hop : i.code.IsAssigned) :
    Script.ofWord i.word = .ok i.retold.encode := by
  unfold retold
  split
  · next b hb =>
    rw [word_of_some hi hb, Script.ofWord, Hex.ofName?_digits]
    simp only [Hex.decodeChars_digits]
    exact Script.pushed_eq (hi.length_lt hb)
  · next hb =>
    have hbare := hi.carriesData_eq_false_iff.mpr hb
    obtain ⟨code, payload⟩ := i
    obtain rfl : payload = none := hb
    rw [word_of_none rfl, Script.ofWord, String.ofList_toList, Opcode.ofName?_name hbare hop,
      encode_bare hbare]

theorem ofWord_word_of_unassigned (hi : i.Readable) (hop : ¬i.code.IsAssigned) :
    Script.ofWord i.word = .error (.badWord "OP_UNKNOWN") := by
  rw [word_of_none (hi.payload_of_unassigned hop), Opcode.name_of_not_isAssigned hop, Script.ofWord,
    String.ofList_toList, Opcode.ofName?_unknown, Hex.decodeChars_unknown]

theorem length_encode_of_le (hle : i.code ≤ 0x4e) :
    i.encode.length = 1 + i.code.lengthWidth + i.data.length := by
  rw [encode, if_pos hle, List.length_cons, List.length_append, Bytes.length_ofNatLE]
  omega

theorem keeps_retold (hi : i.Readable) : i.Keeps i.retold := by
  cases hb : i.payload with
  | none => rw [Keeps, retold, hb]
  | some b =>
    have hle : i.code ≤ 0x4e := Opcode.le_of_carriesData (hi.carriesData_of_some hb)
    have hpush : (push b).code ≤ 0x4e := Opcode.forPush_le b.length
    have hdata : i.data = b := by rw [data, hb, Option.getD_some]
    rw [Keeps, retold, hb]
    refine ⟨hpush, data_push b, ?_⟩
    rw [length_encode_of_le hpush, length_encode_of_le hle, data_push, code_push, hdata]
    have hwidth := Opcode.eq_forPush_or_lengthWidth_lt hle (readable_iff.mp hi)
    rw [hb, Option.getD_some] at hwidth
    rcases hwidth with heq | hlt
    · rw [← heq]
    · omega

end Instruction

/-! ## All words -/

namespace Script

variable {b : Script} {is : List Instruction}

/-- The instructions that are read from the text of some. -/
def retold (is : List Instruction) : List Instruction :=
  (is.filter fun i => ¬i.IsHollow).map Instruction.retold

theorem ofWords_words (his : ∀ i ∈ is, i.Readable) (hops : ∀ i ∈ is, i.code.IsAssigned) :
    ofWords (is.map Instruction.word) = .ok (encode (is.map Instruction.retold)) := by
  induction is with
  | nil => rfl
  | cons i is ih =>
    rw [List.map_cons, ofWords, Instruction.ofWord_word (his i List.mem_cons_self)
      (hops i List.mem_cons_self), ih (fun j hj => his j (List.mem_cons_of_mem _ hj))
      fun j hj => hops j (List.mem_cons_of_mem _ hj)]
    rfl

/-- The first word that stands for no opcode ends the reading. -/
theorem ofWords_words_of_unassigned (his : ∀ i ∈ is, i.Readable)
    (hop : ∃ i ∈ is, ¬i.code.IsAssigned) :
    ofWords (is.map Instruction.word) = .error (.badWord "OP_UNKNOWN") := by
  induction is with
  | nil =>
    obtain ⟨i, hi, -⟩ := hop
    cases hi
  | cons i is ih =>
    have hi : i.Readable := his i List.mem_cons_self
    rw [List.map_cons, ofWords]
    by_cases hfirst : i.code.IsAssigned
    · obtain ⟨j, hj, hbad⟩ := hop
      rcases List.mem_cons.mp hj with rfl | hj
      · exact absurd hfirst hbad
      · rw [Instruction.ofWord_word hi hfirst,
          ih (fun j hj => his j (List.mem_cons_of_mem _ hj)) ⟨j, hj, hbad⟩]
        rfl
    · rw [Instruction.ofWord_word_of_unassigned hi hfirst]
      rfl

theorem readable_of_decode (h : decode b = .ok is) : ∀ i ∈ is, i.Readable := fun i hi =>
  Instruction.readable_iff.mpr ((decode_eq_ok_iff.mp h).1 i hi)

/-- **What is read from the text** are the words of all instructions but the pushes of nothing. -/
theorem ofText_toText (h : decode b = .ok is) :
    ofText (toText b) = ofWords ((is.filter fun i => ¬i.IsHollow).map Instruction.word) := by
  have his := readable_of_decode h
  have hblank : ∀ w ∈ is.map Instruction.word, ∀ c ∈ w, Text.isBlank c = false := by
    intro w hw
    obtain ⟨i, hi, rfl⟩ := List.mem_map.mp hw
    exact Instruction.isBlank_word (his i hi)
  rw [toText, h]
  simp only [ofText]
  rw [String.toList_ofList, Text.words_intercalate hblank, List.filter_map]
  congr 2
  refine List.filter_congr fun i hi => ?_
  exact decide_eq_decide.mpr (not_congr (Instruction.word_eq_nil_iff (his i hi)))

theorem ofText_toText_of_assigned (h : decode b = .ok is) (hops : ∀ i ∈ is, i.code.IsAssigned) :
    ofText (toText b) = .ok (encode (retold is)) := by
  rw [ofText_toText h]
  exact ofWords_words (fun i hi => readable_of_decode h i (List.mem_of_mem_filter hi))
    fun i hi => hops i (List.mem_of_mem_filter hi)

theorem ofText_toText_of_unassigned (h : decode b = .ok is)
    (hop : ∃ i ∈ is, ¬i.code.IsAssigned) :
    ofText (toText b) = .error (.badWord "OP_UNKNOWN") := by
  obtain ⟨i, hi, hbad⟩ := hop
  rw [ofText_toText h]
  refine ofWords_words_of_unassigned
    (fun i hi => readable_of_decode h i (List.mem_of_mem_filter hi)) ⟨i, ?_, hbad⟩
  have hnone := (readable_of_decode h i hi).payload_of_unassigned hbad
  refine List.mem_filter.mpr ⟨hi, decide_eq_true ?_⟩
  rw [Instruction.IsHollow, hnone]
  exact (Option.some_ne_none _).symm

theorem decode_retold (his : ∀ i ∈ is, i.Readable) :
    decode (encode (retold is)) = .ok (retold is) := by
  refine decode_eq_ok_iff.mpr ⟨fun j hj => ?_, rfl⟩
  obtain ⟨i, hi, rfl⟩ := List.mem_map.mp hj
  exact Instruction.readable_iff.mp
    (Instruction.readable_retold (his i (List.mem_of_mem_filter hi)))

theorem forall₂_keeps_retold (his : ∀ i ∈ is, i.Readable) :
    List.Forall₂ Instruction.Keeps (is.filter fun i => ¬i.IsHollow) (retold is) := by
  rw [retold, List.forall₂_map_right_iff, List.forall₂_same]
  exact fun i hi => Instruction.keeps_retold (his i (List.mem_of_mem_filter hi))

/-- **A script comes back with all its instructions if none of them is a push of nothing**, and with
fewer if one is. -/
theorem forall₂_keeps_iff (his : ∀ i ∈ is, i.Readable) :
    List.Forall₂ Instruction.Keeps is (retold is) ↔ ∀ i ∈ is, ¬i.IsHollow := by
  have hkeeps := forall₂_keeps_retold his
  constructor
  · intro hall i hi
    have hlength := hkeeps.length_eq.trans hall.length_eq.symm
    exact of_decide_eq_true (List.length_filter_eq_length_iff.mp hlength i hi)
  · intro hsolid
    rwa [List.filter_eq_self.mpr fun i hi => decide_eq_true (hsolid i hi)] at hkeeps

end Script

/-- **Text keeps what can be seen in it.**  If all opcodes of a script have names, its text is read as
the script without its pushes of nothing: bare opcodes are the same, and a push is one of the same
bytes, under a header that is not longer.  So all of the script is kept exactly if it has no push of
nothing with a header that counts it.  If there is an opcode without a name, the text is not read. -/
theorem text_reading_exact {b : Script} {is : List Instruction} (h : Script.decode b = .ok is) :
    ((∀ i ∈ is, i.code.IsAssigned) →
      Script.ofText (Script.toText b) = .ok (Script.encode (Script.retold is)) ∧
      Script.decode (Script.encode (Script.retold is)) = .ok (Script.retold is) ∧
      List.Forall₂ Instruction.Keeps (is.filter fun i => ¬i.IsHollow) (Script.retold is) ∧
      (List.Forall₂ Instruction.Keeps is (Script.retold is) ↔ ∀ i ∈ is, ¬i.IsHollow)) ∧
    ((∃ i ∈ is, ¬i.code.IsAssigned) →
      Script.ofText (Script.toText b) = .error (.badWord "OP_UNKNOWN")) := by
  have his := Script.readable_of_decode h
  exact ⟨fun hops => ⟨Script.ofText_toText_of_assigned h hops, Script.decode_retold his,
    Script.forall₂_keeps_retold his, Script.forall₂_keeps_iff his⟩,
    Script.ofText_toText_of_unassigned h⟩

/-- A push under a longer header than it needs, a push of nothing and an opcode: the push comes back
with a shorter header, and the push of nothing does not. -/
theorem text_reading_of_hollow_push :
    Script.decode [0x4d, 0x01, 0x00, 0xaa, 0x4c, 0x00, 0x75] =
      .ok [⟨0x4d, some [0xaa]⟩, ⟨0x4c, some []⟩, ⟨0x75, none⟩] ∧
    Script.ofText (Script.toText [0x4d, 0x01, 0x00, 0xaa, 0x4c, 0x00, 0x75]) =
      .ok [0x01, 0xaa, 0x75] ∧
    ¬List.Forall₂ Instruction.Keeps [⟨0x4d, some [0xaa]⟩, ⟨0x4c, some []⟩, ⟨0x75, none⟩]
      (Script.retold [⟨0x4d, some [0xaa]⟩, ⟨0x4c, some []⟩, ⟨0x75, none⟩]) := by
  have hdecode : Script.decode [0x4d, 0x01, 0x00, 0xaa, 0x4c, 0x00, 0x75] =
      .ok [⟨0x4d, some [0xaa]⟩, ⟨0x4c, some []⟩, ⟨0x75, none⟩] := by decide +kernel
  obtain ⟨htext, -, -, hall⟩ := (text_reading_exact hdecode).1 (by decide)
  refine ⟨hdecode, htext, fun hkeeps => ?_⟩
  exact hall.mp hkeeps ⟨0x4c, some []⟩ (by decide) rfl

/-- What is read from the text of `OP_1`, a push of nothing and `OP_DROP` has two instructions. -/
theorem text_loses_hollow_push :
    ¬∀ (b : Script) (is : List Instruction), Script.decode b = .ok is →
      (∀ i ∈ is, i.code.IsAssigned) →
        ∃ b' js, Script.ofText (Script.toText b) = .ok b' ∧ Script.decode b' = .ok js ∧
          List.Forall₂ Instruction.Keeps is js := by
  intro hkept
  have hdecode : Script.decode [0x51, 0x4c, 0x00, 0x75] =
      .ok [⟨0x51, none⟩, ⟨0x4c, some []⟩, ⟨0x75, none⟩] := by decide +kernel
  have hops : ∀ i ∈ ([⟨0x51, none⟩, ⟨0x4c, some []⟩, ⟨0x75, none⟩] : List Instruction),
      i.code.IsAssigned := by decide
  obtain ⟨b', js, htext, hread, hall⟩ := hkept _ _ hdecode hops
  rw [Script.ofText_toText_of_assigned hdecode hops] at htext
  obtain rfl := Except.ok.inj htext
  rw [Script.decode_retold (Script.readable_of_decode hdecode)] at hread
  obtain rfl := Except.ok.inj hread
  exact absurd hall.length_eq (by decide)

end CoinScript
