import CoinScript.Proofs.Script.Decoding
import CoinScript.Script.Text
import Mathlib.Data.List.Nodup

/-!
# Words and what they stand for

A script as text is made of words with one space between them.  This module looks at one word at a
time, and at how a text falls apart into words.

* `Text.words_intercalate`: words without blanks come back from the text, except that a word without
  characters leaves no trace in it.
* `Hex.decodeChars_digits`: digits are read as the bytes that they were written for.
* `Opcode.ofName?_name`: the name of an opcode is read as that opcode, if the opcode has a name of its
  own.  The others share a name that is neither a name to be read nor made of digits
  (`Opcode.ofName?_unknown`, `Hex.decodeChars_unknown`).
* `Hex.ofName?_digits`: digits are not a name, as every name has the letter O in it.

That names differ is found out from their characters.  A name is given as a literal, and comparing two
literals by evaluation builds the bytes of both; so the characters of all names are found once
(`Spelled`), and the names are compared as one number each (`Opcode.numeral`).
-/

namespace CoinScript

/-! ## Words in a text -/

namespace Text

theorem pieces_eq_splitOnP (cs : List Char) : pieces cs = cs.splitOnP isBlank := by
  induction cs with
  | nil => rfl
  | cons c cs ih =>
    rw [pieces, List.splitOnP_cons_eq_if_modifyHead, ih]
    split
    · rfl
    · cases h : cs.splitOnP isBlank with
      | nil => exact absurd h (List.splitOnP_ne_nil isBlank cs)
      | cons p ps => rfl

/-- **The words of a text** made of words with one space between them are those that have a
character. -/
theorem words_intercalate {ws : List (List Char)} (h : ∀ w ∈ ws, ∀ c ∈ w, isBlank c = false) :
    words ([' '].intercalate ws) = ws.filter (· ≠ []) := by
  rw [words, pieces_eq_splitOnP]
  induction ws with
  | nil => rfl
  | cons w ws ih =>
    have hw : ∀ c ∈ w, isBlank c = false := h w List.mem_cons_self
    cases ws with
    | nil => rw [List.intercalate_singleton, List.splitOnP_eq_singleton hw]
    | cons w' ws =>
      rw [List.intercalate_cons_cons, List.append_assoc, List.singleton_append,
        List.splitOnP_append_cons_of_forall_mem hw ' ' (by decide), List.filter_cons, List.filter_cons,
        ih fun v hv => h v (List.mem_cons_of_mem _ hv)]

end Text

/-! ## Digits -/

namespace Hex

/-- A digit is one byte of text, and is read as its value. -/
theorem utf8EncodeChar_digit {n : Nat} (h : n < 16) :
    ∃ c, String.utf8EncodeChar (digit n) = [c] ∧ digitValue c = some n := by
  have hvalue : ∀ n < 16, (String.utf8EncodeChar (digit n)).map digitValue = [some n] := by decide
  exact List.map_eq_singleton_iff.mp (hvalue n h)

theorem isBlank_digit {n : Nat} (h : n < 16) : Text.isBlank (digit n) = false := by
  have hvisible : ∀ n < 16, Text.isBlank (digit n) = false := by decide
  exact hvisible n h

theorem digit_ne {n : Nat} (h : n < 16) : digit n ≠ 'O' := by
  have hdiffers : ∀ n < 16, digit n ≠ 'O' := by decide
  exact hdiffers n h

theorem mem_digits {b : Bytes} {c : Char} (h : c ∈ digits b) : ∃ n < 16, c = digit n := by
  obtain ⟨x, -, hc⟩ := List.mem_flatMap.mp h
  have hx := x.toNat_lt
  simp only [byteDigits, List.mem_cons, List.not_mem_nil, or_false] at hc
  rcases hc with rfl | rfl
  · exact ⟨x.toNat / 16, by omega, rfl⟩
  · exact ⟨x.toNat % 16, by omega, rfl⟩

/-- The text of a byte and some more: two bytes, with the values of its halves. -/
theorem utf8_digits_cons (x : UInt8) (b : Bytes) :
    ∃ high low, (digits (x :: b)).flatMap String.utf8EncodeChar =
        high :: low :: (digits b).flatMap String.utf8EncodeChar ∧
      digitValue high = some (x.toNat / 16) ∧ digitValue low = some (x.toNat % 16) := by
  have hx := x.toNat_lt
  obtain ⟨high, hhigh, hquotient⟩ := utf8EncodeChar_digit (n := x.toNat / 16) (by omega)
  obtain ⟨low, hlow, hremainder⟩ := utf8EncodeChar_digit (n := x.toNat % 16) (by omega)
  refine ⟨high, low, ?_, hquotient, hremainder⟩
  rw [digits, List.flatMap_cons, ← digits, List.flatMap_append, byteDigits, List.flatMap_cons,
    List.flatMap_singleton, hhigh, hlow]
  rfl

theorem length_utf8_digits (b : Bytes) :
    ((digits b).flatMap String.utf8EncodeChar).length = 2 * b.length := by
  induction b with
  | nil => rfl
  | cons x b ih =>
    obtain ⟨high, low, htext, -⟩ := utf8_digits_cons x b
    rw [htext, List.length_cons, List.length_cons, ih, List.length_cons]
    omega

theorem decodePairs_digits (b : Bytes) (position : Nat) :
    decodePairs position ((digits b).flatMap String.utf8EncodeChar) = .ok b := by
  induction b generalizing position with
  | nil => rfl
  | cons x b ih =>
    obtain ⟨high, low, htext, hhigh, hlow⟩ := utf8_digits_cons x b
    rw [htext, decodePairs, hhigh, hlow]
    simp only [ih]
    rw [Nat.div_add_mod, UInt8.ofNat_toNat]
    rfl

/-- **Digits are read as what they were written for.** -/
theorem decodeChars_digits (b : Bytes) : decodeChars (digits b) = .ok b := by
  have heven : ¬((digits b).flatMap String.utf8EncodeChar).length % 2 = 1 := by
    rw [length_utf8_digits]
    omega
  rw [decodeChars, decodeBytes, if_neg heven, decodePairs_digits]

end Hex

/-! ## Names -/

/-- The names are written with these characters. -/
inductive Spelled : (names : List String) → (spellings : List (List Char)) → Prop
  | nil : Spelled [] []
  | cons {names spellings} (cs : List Char) (rest : Spelled names spellings) :
    Spelled (String.ofList cs :: names) (cs :: spellings)

theorem Spelled.map_toList {names : List String} {spellings : List (List Char)}
    (h : Spelled names spellings) : names.map String.toList = spellings := by
  induction h with
  | nil => rfl
  | cons cs rest ih => rw [List.map_cons, String.toList_ofList, ih]

namespace Opcode

/-- The names that are read besides those of the opcodes in `named`. -/
def aliases : List String := ["OP_0", "OP_FALSE", "OP_TRUE", "OP_NOP2", "OP_NOP3"]

/-- What is written for an opcode, and what is read as one. -/
def spoken : List String := aliases ++ "OP_UNKNOWN" :: "OP_INVALIDOPCODE" :: names

/-- The characters as one number. -/
def numeral (cs : List Char) : Nat := cs.foldl (fun n c => 0x110000 * n + c.toNat) 0

/-- All names differ, each has the letter O in it, and none has a blank. -/
theorem exists_spelled_spoken :
    ∃ spellings, Spelled spoken spellings ∧ (spellings.map numeral).Nodup ∧
      (spellings.all fun cs => cs.contains 'O' && cs.all fun c => !Text.isBlank c) = true := by
  apply Exists.intro
  apply And.intro
  · dsimp only [spoken, aliases, names, List.cons_append, List.nil_append]
    repeat apply Spelled.cons
    exact Spelled.nil
  -- The characters are tested by a function, since the instance for a list nests too deeply.
  · exact ⟨by decide +kernel, by decide +kernel⟩

theorem nodup_spoken : spoken.Nodup := by
  obtain ⟨spellings, hspelled, hnodup, -⟩ := exists_spelled_spoken
  rw [← hspelled.map_toList] at hnodup
  exact .of_map String.toList (.of_map numeral hnodup)

theorem spoken_characters {s : String} (h : s ∈ spoken) :
    'O' ∈ s.toList ∧ ∀ c ∈ s.toList, Text.isBlank c = false := by
  obtain ⟨spellings, hspelled, -, hall⟩ := exists_spelled_spoken
  rw [← hspelled.map_toList] at hall
  have hcharacters := List.all_eq_true.mp hall _ (List.mem_map_of_mem h)
  simpa using hcharacters

theorem map_name_named : named.map name = names.drop 3 ++ ["OP_INVALIDOPCODE"] := by decide +kernel

/-- Nothing that is read has two meanings, and what stands for no opcode is not read. -/
theorem nodup_read : (aliases ++ "OP_UNKNOWN" :: named.map name).Nodup := by
  have hsub : List.Sublist (aliases ++ "OP_UNKNOWN" :: "OP_INVALIDOPCODE" :: names.drop 3) spoken :=
    .append (.refl aliases) (.cons_cons _ (.cons_cons _ (List.drop_sublist 3 names)))
  rw [map_name_named]
  refine (List.Perm.nodup_iff ?_).mp (nodup_spoken.sublist hsub)
  exact .append_left _ (.cons _ (List.perm_append_singleton _ _).symm)

theorem ofName?_eq_find? {s : String} (h : s ∉ aliases) :
    ofName? s = named.find? fun op => op.name == s := by
  simp only [aliases, List.mem_cons, List.not_mem_nil, or_false, not_or] at h
  obtain ⟨hzero, hfalse, htrue, hnop2, hnop3⟩ := h
  rw [ofName?, if_neg (not_or.mpr ⟨hzero, hfalse⟩), if_neg htrue, if_neg hnop2, if_neg hnop3]

theorem ofName?_eq_none {s : String} (h : s ∉ aliases) (hnamed : s ∉ named.map name) :
    ofName? s = none := by
  rw [ofName?_eq_find? h, List.find?_eq_none]
  intro op hop hname
  exact hnamed (List.mem_map.mpr ⟨op, hop, eq_of_beq hname⟩)

/-- The opcode is one that a script may have a meaning for. -/
def IsAssigned (op : Opcode) : Prop := op < 0xba ∨ op = 0xff

instance (op : Opcode) : Decidable op.IsAssigned := inferInstanceAs (Decidable (_ ∨ _))

theorem mem_named {op : Opcode} (hbare : op.carriesData = false) (hzero : op ≠ 0x00)
    (hop : op.IsAssigned) : op ∈ named := by
  rcases hop with hhigh | rfl
  · have hlow : 0x4f ≤ op := by
      simp only [carriesData, decide_eq_false_iff_not] at hbare
      grind
    have hle : 0x4f ≤ op.toNat := UInt8.le_iff_toNat_le.mp hlow
    have hlt : op.toNat < 0xba := UInt8.lt_iff_toNat_lt.mp hhigh
    refine List.mem_append_left _ (List.mem_map.mpr ⟨op.toNat - 0x4f, ?_, ?_⟩)
    · rw [List.mem_range]
      omega
    · rw [Nat.add_sub_cancel' hle, UInt8.ofNat_toNat]
  · exact List.mem_append_right _ List.mem_cons_self

/-- **A name is read as the opcode that has it.** -/
theorem ofName?_name {op : Opcode} (hbare : op.carriesData = false) (hop : op.IsAssigned) :
    ofName? op.name = some op := by
  rcases eq_or_ne op 0x00 with rfl | hzero
  · exact if_pos (.inr rfl)
  have hmem : op ∈ named := mem_named hbare hzero hop
  obtain ⟨-, hnamed, hapart⟩ := List.nodup_append.mp nodup_read
  have halias : op.name ∉ aliases := fun hname =>
    hapart _ hname _ (List.mem_cons_of_mem _ (List.mem_map_of_mem hmem)) rfl
  rw [ofName?_eq_find? halias]
  cases hfind : named.find? fun other => other.name == op.name with
  | none => exact absurd (beq_self_eq_true _) (List.find?_eq_none.mp hfind op hmem)
  | some other =>
    have hname : other.name = op.name := 
      eq_of_beq (List.find?_some (p := fun other : Opcode => other.name == op.name) hfind)
    rw [List.inj_on_of_nodup_map (List.nodup_cons.mp hnamed).2 (List.mem_of_find?_eq_some hfind) hmem
      hname]

theorem name_of_not_isAssigned {op : Opcode} (hop : ¬op.IsAssigned) : op.name = "OP_UNKNOWN" := by
  obtain ⟨hhigh, hinvalid⟩ := not_or.mp hop
  have hle : 0xba ≤ op := UInt8.not_lt.mp hhigh
  have hbeyond : names.length ≤ op.toNat - 0x4c := by
    have hge : 0xba ≤ op.toNat := UInt8.le_iff_toNat_le.mp hle
    rw [names_length]
    omega
  rw [name, if_neg (by grind), if_neg (by grind), if_neg hinvalid, List.getElem?_eq_none hbeyond]
  rfl

theorem mem_spoken_of_named {s : String} (h : s ∈ named.map name) : s ∈ spoken := by
  rw [map_name_named] at h
  refine List.mem_append_right _ (List.mem_cons_of_mem _ ?_)
  rcases List.mem_append.mp h with hmem | hmem
  · exact List.mem_cons_of_mem _ (List.mem_of_mem_drop hmem)
  · rw [List.mem_singleton.mp hmem]
    exact List.mem_cons_self

theorem name_mem_spoken {op : Opcode} (hbare : op.carriesData = false) : op.name ∈ spoken := by
  rcases eq_or_ne op 0x00 with rfl | hzero
  · exact List.mem_append_left _ (List.mem_cons_of_mem _ List.mem_cons_self)
  by_cases hop : op.IsAssigned
  · exact mem_spoken_of_named (List.mem_map_of_mem (mem_named hbare hzero hop))
  · rw [name_of_not_isAssigned hop]
    exact List.mem_append_right _ List.mem_cons_self

theorem ofName?_unknown : ofName? "OP_UNKNOWN" = none := by
  obtain ⟨-, hnamed, hapart⟩ := List.nodup_append.mp nodup_read
  exact ofName?_eq_none (fun halias => hapart _ halias _ List.mem_cons_self rfl)
    (List.nodup_cons.mp hnamed).1

end Opcode

namespace Hex

theorem decodeChars_unknown :
    decodeChars "OP_UNKNOWN".toList = .error (.invalidDigit 0x4f 0) := by
  have hcharacters : "OP_UNKNOWN".toList = ['O', 'P', '_', 'U', 'N', 'K', 'N', 'O', 'W', 'N'] :=
    String.toList_ofList
  rw [hcharacters]
  decide

/-- Digits are not a name. -/
theorem ofName?_digits (b : Bytes) : Opcode.ofName? (String.ofList (digits b)) = none := by
  have hspoken : String.ofList (digits b) ∉ Opcode.spoken := by
    intro h
    have hletter := (Opcode.spoken_characters h).1
    rw [String.toList_ofList] at hletter
    obtain ⟨n, hn, hdigit⟩ := mem_digits hletter
    exact digit_ne hn hdigit.symm
  exact Opcode.ofName?_eq_none (fun halias => hspoken (List.mem_append_left _ halias))
    fun hnamed => hspoken (Opcode.mem_spoken_of_named hnamed)

end Hex

end CoinScript
