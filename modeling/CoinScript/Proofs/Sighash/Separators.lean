import CoinScript.Proofs.Checked.Script
import CoinScript.Proofs.Script.Parsing
import CoinScript.Sighash.Digest
import Mathlib.Order.Bounds.Defs

/-!
# Separators are left out whole

The older digest is made of a script without its separators, and a separator is an instruction: the
same byte inside a push is data and has to stay.  So the script is read as far as it reads, and the
tail that does not read, which begins with a push that runs past the end, is kept as it is.

Three readings of a script are shown to leave out the same bytes.

* The definition, `Transaction.withoutSeparators`, leaves instructions out of a list and writes the
  others.
* By places: the byte at a place is left out exactly if it is a separator's and the script reads to
  its end there (`Script.kept_eq`).  A place inside an instruction is no such place, as an
  instruction that is cut short does not read (`not_boundary_inside`).
* By a loop over an array that copies one instruction after the other
  (`Checked.withoutSeparators_eq`), which ends after as many rounds as there are bytes.

Leaving instructions out does not change how the others are read, so a second time there is nothing
to leave out, and the digest is the same for a script with its separators and without them.
-/

namespace CoinScript

namespace Instruction

variable {b rest : Bytes} {i : Instruction}

/-- What reads from the front of a byte string reads from the whole, and lies in that front. -/
theorem read_of_read_take {k : Nat} (h : read (b.take k) = some (i, rest)) :
    (∃ after, read b = some (i, after)) ∧ i.encode.length ≤ k := by
  have hencode := encode_read h
  constructor
  · have hread := read_encode (readable_of_read h) (rest ++ b.drop k)
    rw [← List.append_assoc, hencode, List.take_append_drop] at hread
    exact ⟨_, hread⟩
  · have hlength := congrArg List.length hencode
    rw [List.length_append, List.length_take] at hlength
    omega

theorem read_take_of_none (h : read b = none) (k : Nat) : read (b.take k) = none := by
  by_contra hne
  obtain ⟨⟨i, rest⟩, hread⟩ := Option.ne_none_iff_exists'.mp hne
  obtain ⟨⟨after, hread⟩, -⟩ := read_of_read_take hread
  rw [h] at hread
  cases hread

/-- An instruction that is cut short does not read. -/
theorem read_take_of_lt (h : read b = some (i, rest)) {k : Nat} (hk : k < i.encode.length) :
    read (b.take k) = none := by
  by_contra hne
  obtain ⟨⟨j, after⟩, hread⟩ := Option.ne_none_iff_exists'.mp hne
  obtain ⟨⟨_, hread⟩, hle⟩ := read_of_read_take hread
  rw [h] at hread
  cases hread
  omega

/-- A separator is a byte of its own. -/
theorem eq_separator (hi : i.Readable) (hcode : i.code = 0xab) : i = ⟨0xab, none⟩ := by
  obtain ⟨code, payload⟩ := i
  obtain rfl : code = 0xab := hcode
  cases hi with
  | bare _ => rfl
  | direct h _ _ => cases h
  | counted hw _ => exact absurd rfl hw

end Instruction

namespace Script

variable {s : Script} {front is : List Instruction} {tail : Bytes}

/-! ## Places between instructions -/

/-- What stands before the place reads to its end. -/
def Boundary (s : Script) (place : Nat) : Prop := ∃ is, decode (s.take place) = .ok is

theorem boundary_iff {place : Nat} : s.Boundary place ↔ (scan (s.take place)).2 = [] := by
  constructor
  · rintro ⟨is, h⟩
    rw [decode_eq_ok_iff_scan.mp h]
  · intro h
    exact ⟨_, if_pos h⟩

instance (s : Script) (place : Nat) : Decidable (s.Boundary place) :=
  decidable_of_iff _ boundary_iff.symm

/-- A separator stands at the place. -/
def SeparatorAt (s : Script) (place : Nat) : Prop := s.Boundary place ∧ s[place]? = some 0xab

instance (s : Script) (place : Nat) : Decidable (s.SeparatorAt place) :=
  inferInstanceAs (Decidable (_ ∧ _))

/-- The place after some instructions is one between instructions if what follows up to it reads. -/
theorem boundary_append_iff (hfront : ∀ i ∈ front, i.Readable) (rest : Bytes) (k : Nat) :
    Boundary (encode front ++ rest) ((encode front).length + k) ↔ (scan (rest.take k)).2 = [] := by
  rw [boundary_iff, List.take_length_add_append, scan_encode_append hfront]

theorem boundary_length (hfront : ∀ i ∈ front, i.Readable) (rest : Bytes) :
    Boundary (encode front ++ rest) (encode front).length :=
  (boundary_append_iff hfront rest 0).mpr (by rw [List.take_zero, scan_of_none rfl])

/-- Bytes that do not read are no instructions, unless there are none. -/
theorem scan_take_ne_nil {rest : Bytes} {k : Nat} (hk : 0 < k) (hlt : k ≤ rest.length)
    (hnone : Instruction.read (rest.take k) = none) : (scan (rest.take k)).2 ≠ [] := by
  rw [scan_of_none hnone]
  intro hnil
  have hlength := congrArg List.length hnil
  rw [List.length_take, List.length_nil] at hlength
  omega

/-- Up to a place between instructions there are some. -/
theorem Boundary.exists_front {place : Nat} (h : s.Boundary place) (hle : place ≤ s.length) :
    ∃ front : List Instruction, (∀ i ∈ front, i.Readable) ∧ encode front ++ s.drop place = s ∧
      (encode front).length = place := by
  obtain ⟨front, hdecode⟩ := h
  obtain ⟨hcarries, hencode⟩ := decode_eq_ok_iff.mp hdecode
  refine ⟨front, fun i hi => Instruction.readable_iff.mpr (hcarries i hi), ?_, ?_⟩
  · rw [hencode, List.take_append_drop]
  · rw [hencode, List.length_take_of_le hle]

/-- **A place inside an instruction is not one between instructions.** -/
theorem not_boundary_inside {place : Nat} {i : Instruction} {rest : Bytes} (h : s.Boundary place)
    (hread : Instruction.read (s.drop place) = some (i, rest)) {k : Nat} (hk : 0 < k)
    (hinside : k < i.encode.length) : ¬s.Boundary (place + k) := by
  have hlength := congrArg List.length (Instruction.encode_read hread)
  rw [List.length_append, List.length_drop] at hlength
  obtain ⟨front, hfront, hsplit, rfl⟩ := h.exists_front (by omega)
  rw [← hsplit, boundary_append_iff hfront]
  exact scan_take_ne_nil hk (by rw [List.length_drop]; omega)
    (Instruction.read_take_of_lt hread hinside)

/-- The last place between instructions is the one where the tail begins that does not read. -/
theorem boundary_tail_iff (hfront : ∀ i ∈ front, i.Readable) (hnone : Instruction.read tail = none)
    {k : Nat} (hk : k ≤ tail.length) :
    Boundary (encode front ++ tail) ((encode front).length + k) ↔ k = 0 := by
  rw [boundary_append_iff hfront]
  constructor
  · intro h
    by_contra hpos
    exact scan_take_ne_nil (Nat.pos_of_ne_zero hpos) hk (Instruction.read_take_of_none hnone k) h
  · rintro rfl
    rw [List.take_zero, scan_of_none rfl]

/-- **As far as a script reads** is up to the last place between instructions. -/
theorem isGreatest_boundary (s : Script) :
    IsGreatest {place | place ≤ s.length ∧ s.Boundary place} (encode (scan s).1).length := by
  have hlength := congrArg List.length (encode_scan s)
  rw [List.length_append] at hlength
  constructor
  · refine ⟨by omega, ?_⟩
    have hboundary := boundary_length (readable_of_mem_scan (b := s)) (scan s).2
    rwa [encode_scan] at hboundary
  · rintro place ⟨hle, hboundary⟩
    by_contra hlt
    have hplace : place = (encode (scan s).1).length + (place - (encode (scan s).1).length) := by
      omega
    have hiff := boundary_tail_iff (readable_of_mem_scan (b := s)) (read_scan_tail s)
      (k := place - (encode (scan s).1).length) (by omega)
    rw [encode_scan, ← hplace] at hiff
    have hzero := hiff.mp hboundary
    omega

/-! ## Separators by their places -/

/-- The bytes of a script that are not at the place of a separator. -/
def kept (s : Script) : Script :=
  (s.zipIdx.filter fun x => ¬s.SeparatorAt x.2).map Prod.fst

/-- Bytes at places that are all kept. -/
theorem map_filter_zipIdx {P : Nat → Prop} [DecidablePred P] {b : Bytes} {first : Nat}
    (h : ∀ k < b.length, P (first + k)) :
    ((b.zipIdx first).filter fun x => P x.2).map Prod.fst = b := by
  have hall : (b.zipIdx first).filter (fun x => P x.2) = b.zipIdx first := by
    rw [List.filter_eq_self]
    rintro ⟨x, place⟩ hx
    obtain ⟨hfirst, hlast, -⟩ := List.mem_zipIdx hx
    have hkept := h (place - first) (by omega)
    rw [Nat.add_sub_cancel' hfirst] at hkept
    exact decide_eq_true hkept
  rw [hall, List.zipIdx_map_fst]

/-- No separator stands at a place where another byte does. -/
theorem not_separatorAt_of_code {i : Instruction} {rest : Bytes} (hcode : i.code ≠ 0xab) :
    ¬SeparatorAt (encode front ++ (i.encode ++ rest)) (encode front).length := by
  rintro ⟨-, hbyte⟩
  rw [List.getElem?_append_right (Nat.le_refl _), Nat.sub_self] at hbyte
  exact hcode (Option.some.inj hbyte)

/-- Of the places of an instruction, none is that of a separator unless it is one. -/
theorem not_separatorAt {i : Instruction} {rest : Bytes} (hfront : ∀ i ∈ front, i.Readable)
    (hi : i.Readable) (hcode : i.code ≠ 0xab) {k : Nat} (hk : k < i.encode.length) :
    ¬SeparatorAt (encode front ++ (i.encode ++ rest)) ((encode front).length + k) := by
  rcases Nat.eq_zero_or_pos k with rfl | hpos
  · exact not_separatorAt_of_code hcode
  · rintro ⟨hboundary, -⟩
    have hread : Instruction.read ((encode front ++ (i.encode ++ rest)).drop (encode front).length) =
        some (i, rest) := by
      rw [List.drop_left, Instruction.read_encode hi]
    exact not_boundary_inside (boundary_length hfront _) hread hpos hk hboundary

/-- Nor is any of the tail that does not read. -/
theorem not_separatorAt_tail (hfront : ∀ i ∈ front, i.Readable)
    (hnone : Instruction.read tail = none) {k : Nat} (hk : k < tail.length) :
    ¬SeparatorAt (encode front ++ tail) ((encode front).length + k) := by
  rintro ⟨hboundary, hbyte⟩
  obtain rfl := (boundary_tail_iff hfront hnone (Nat.le_of_lt hk)).mp hboundary
  rw [Nat.add_zero, List.getElem?_append_right (Nat.le_refl _), Nat.sub_self] at hbyte
  match tail, hnone with
  | x :: tail, hnone =>
    obtain rfl : x = 0xab := Option.some.inj hbyte
    cases hnone

/-- What is kept of one instruction. -/
theorem kept_instruction {i : Instruction} (hfront : ∀ i ∈ front, i.Readable) (hi : i.Readable)
    (rest : Bytes) :
    ((i.encode.zipIdx (encode front).length).filter fun x =>
        ¬SeparatorAt (encode front ++ (i.encode ++ rest)) x.2).map Prod.fst =
      if i.code = 0xab then [] else i.encode := by
  split
  · next hcode =>
    obtain rfl := Instruction.eq_separator hi hcode
    have hat : SeparatorAt (encode front ++ (Instruction.encode ⟨0xab, none⟩ ++ rest))
        (encode front).length := by
      refine ⟨boundary_length hfront _, ?_⟩
      rw [List.getElem?_append_right (Nat.le_refl _), Nat.sub_self]
      rfl
    exact congrArg (List.map Prod.fst) (List.filter_cons_of_neg (by simpa using hat))
  · next hcode =>
    exact map_filter_zipIdx
      (P := fun place => ¬SeparatorAt (encode front ++ (i.encode ++ rest)) place)
      fun k hk => not_separatorAt hfront hi hcode hk

/-- What is kept from a place between instructions on, by induction on the instructions after it. -/
theorem kept_from (hs : ∀ i ∈ front ++ is, i.Readable) (hnone : Instruction.read tail = none) :
    (((encode is ++ tail).zipIdx (encode front).length).filter fun x =>
        ¬SeparatorAt (encode front ++ (encode is ++ tail)) x.2).map Prod.fst =
      encode (is.filter fun i => i.code != 0xab) ++ tail := by
  induction is generalizing front with
  | nil =>
    rw [List.append_nil] at hs
    exact map_filter_zipIdx (P := fun place => ¬SeparatorAt (encode front ++ tail) place)
      fun k hk => not_separatorAt_tail hs hnone hk
  | cons i is ih =>
    have hi : i.Readable := hs i (List.mem_append_right _ List.mem_cons_self)
    have hfront : ∀ j ∈ front, j.Readable := fun j hj => hs j (List.mem_append_left _ hj)
    have hnext : encode (front ++ [i]) = encode front ++ i.encode := by
      rw [encode_append, encode_cons, encode_nil, List.append_nil]
    have hs' : ∀ j ∈ (front ++ [i]) ++ is, j.Readable := by
      rwa [List.append_assoc]
    have hrest := ih hs'
    rw [hnext, List.append_assoc, List.length_append] at hrest
    rw [encode_cons, List.append_assoc, List.zipIdx_append, List.filter_append, List.map_append,
      hrest, kept_instruction hfront hi]
    by_cases hcode : i.code = 0xab
    · rw [if_pos hcode, List.filter_cons_of_neg (by simpa using hcode)]
      rfl
    · rw [if_neg hcode, List.filter_cons_of_pos (by simpa using hcode), encode_cons,
        List.append_assoc]

/-- **By places**: what is left is what stands at no separator's place. -/
theorem kept_eq (s : Script) :
    s.kept = encode ((scan s).1.filter fun i => i.code != 0xab) ++ (scan s).2 := by
  have hs : ∀ i ∈ [] ++ (scan s).1, i.Readable := readable_of_mem_scan
  have hkept := kept_from hs (read_scan_tail s)
  rw [encode_scan] at hkept
  exact hkept

end Script

/-! ## Once more -/

namespace Transaction

variable {b rest : Bytes} {i : Instruction}

/-- What is left is read as the instructions that were not left out, and the same tail. -/
theorem scan_withoutSeparators (s : Script) :
    Script.scan (withoutSeparators s) =
      ((Script.scan s).1.filter fun i => i.code != 0xab, (Script.scan s).2) := by
  have hreadable : ∀ i ∈ (Script.scan s).1.filter fun i => i.code != 0xab, i.Readable :=
    fun i hi => Script.readable_of_mem_scan i (List.mem_of_mem_filter hi)
  rw [withoutSeparators, Script.scan_encode_append hreadable,
    Script.scan_of_none (Script.read_scan_tail s), List.append_nil]

theorem withoutSeparators_withoutSeparators (s : Script) :
    withoutSeparators (withoutSeparators s) = withoutSeparators s := by
  rw [withoutSeparators, scan_withoutSeparators, List.filter_filter]
  simp only [Bool.and_self]
  rfl

/-- **The older digest is the same with separators and without them.** -/
theorem legacyDigest_withoutSeparators (tx : Transaction) (index : Nat) (s : Script)
    (flag : SighashFlag) :
    tx.legacyDigest index (withoutSeparators s) flag = tx.legacyDigest index s flag := by
  unfold legacyDigest legacyBytes
  rw [withoutSeparators_withoutSeparators]

/-! ## One instruction after the other -/

theorem withoutSeparators_of_none (h : Instruction.read b = none) : withoutSeparators b = b := by
  rw [withoutSeparators, Script.scan_of_none h]
  rfl

theorem withoutSeparators_of_separator (h : Instruction.read b = some (i, rest))
    (hcode : i.code = 0xab) : withoutSeparators b = withoutSeparators rest := by
  rw [withoutSeparators, Script.scan_of_some h, List.filter_cons_of_neg (by simpa using hcode)]
  rfl

theorem withoutSeparators_of_other (h : Instruction.read b = some (i, rest))
    (hcode : i.code ≠ 0xab) : withoutSeparators b = i.encode ++ withoutSeparators rest := by
  rw [withoutSeparators, Script.scan_of_some h, List.filter_cons_of_pos (by simpa using hcode),
    Script.encode_cons, List.append_assoc]
  rfl

end Transaction

namespace Checked

variable {bytes rest copied : Bytes} {pos fuel : Nat}

/-- Goes on from a position, with what has been copied so far: an instruction is copied as it stands
in the array, a separator is passed over, and where nothing reads, what is left is copied. -/
def copyFrom (bytes : Bytes) : (fuel pos : Nat) → (copied : Bytes) → Checked Nat Bytes
  | 0, pos, copied => if bytes.length ≤ pos then return copied else crash .endless
  | fuel + 1, pos, copied =>
    if bytes.length ≤ pos then return copied
    else
      match readInstruction bytes pos with
      | .ok (i, next) =>
        if i.code = 0xab then copyFrom bytes fuel next copied
        else do copyFrom bytes fuel next (copied ++ (← slice bytes pos next))
      | .error (.refused _) => do return copied ++ (← slice bytes pos bytes.length)
      | .error .exhausted => .error .exhausted
      | .error (.crashed c) => crash c

/-- Copies a script without its separators into an array of the same size. -/
def withoutSeparators (s : Script) : Checked Nat Bytes := do
  allocate s.length 1
  copyFrom s s.length 0 []

/-- The bytes between the positions before and after an instruction are what it is written as. -/
theorem slice_encode {i : Instruction} {after : Bytes} {next : Nat} (h : At bytes pos rest)
    (hnext : At bytes next after) (hread : Instruction.read rest = some (i, after)) :
    (slice bytes pos next : Checked Nat Bytes) = .ok i.encode := by
  have hencode := Instruction.encode_read hread
  have hlength := congrArg List.length hencode
  rw [List.length_append] at hlength
  have hpos := h.add_length
  have hend := hnext.add_length
  obtain rfl : next = pos + i.encode.length := by omega
  rw [h.slice (by omega), ← hencode, List.take_left]

/-- What the loop copies, by induction on the rounds that are left. -/
theorem copyFrom_eq (h : At bytes pos rest) (hword : bytes.length < wordSize - 8)
    (hfuel : rest.length ≤ fuel) (copied : Bytes) :
    copyFrom bytes fuel pos copied = .ok (copied ++ Transaction.withoutSeparators rest) := by
  induction fuel generalizing pos rest copied with
  | zero =>
    obtain rfl : rest = [] := List.length_eq_zero_iff.mp (Nat.le_zero.mp hfuel)
    rw [copyFrom, if_pos (Nat.le_of_eq (h.eq_length_iff.mpr rfl).symm),
      Transaction.withoutSeparators_of_none rfl, List.append_nil]
    rfl
  | succ fuel ih =>
    match rest, h with
    | [], h =>
      rw [copyFrom, if_pos (Nat.le_of_eq (h.eq_length_iff.mpr rfl).symm),
        Transaction.withoutSeparators_of_none rfl, List.append_nil]
      rfl
    | code :: tail, h =>
      have hagrees := readInstruction_agrees h hword
      have hlength := h.add_length
      rw [List.length_cons] at hlength
      rw [copyFrom, if_neg (by omega)]
      cases hread : Instruction.read (code :: tail) with
      | none =>
        rw [readAt, hread] at hagrees
        have hslice := h.slice (ε := Nat) (Nat.le_refl _)
        rw [h.add_length, List.take_length] at hslice
        generalize readInstruction bytes pos = found at hagrees ⊢
        cases hagrees
        simp only [refuse]
        rw [hslice, Transaction.withoutSeparators_of_none hread]
        rfl
      | some read =>
        obtain ⟨i, after⟩ := read
        rw [readAt, hread] at hagrees
        generalize readInstruction bytes pos = found at hagrees ⊢
        cases hagrees with
        | @ok found _ hsame =>
          obtain ⟨j, next⟩ := found
          obtain ⟨rfl, hnext⟩ := hsame
          have hshorter : after.length < (code :: tail).length := Instruction.length_of_read hread
          have hafter : At bytes next after := hnext
          have hrest := ih hafter (by omega)
          by_cases hcode : j.code = 0xab
          · simp only [hcode, if_true]
            rw [hrest, Transaction.withoutSeparators_of_separator hread hcode]
          · simp only [hcode, if_false]
            rw [slice_encode h hafter hread, ok_bind, hrest,
              Transaction.withoutSeparators_of_other hread hcode, List.append_assoc]

/-- **The loop leaves out what the definition does**, without leaving the array. -/
theorem withoutSeparators_eq {s : Script} (hs : s.length ≤ addressSpace) :
    withoutSeparators s = .ok (Transaction.withoutSeparators s) := by
  have hroom : (allocate s.length 1 : Checked Nat Unit) = .ok () :=
    if_pos (by rwa [Nat.mul_one])
  rw [withoutSeparators, hroom, ok_bind, copyFrom_eq (At.zero s)
    (Nat.lt_of_le_of_lt hs (by decide)) (Nat.le_refl _), List.nil_append]

end Checked

/-- **Separators are left out whole.**  Up to the last place at which the script reads to its end, the
instructions other than separators are written again, and what follows is kept.  Only the bytes of
separators are left out, and no byte inside another instruction is one.  The loop does the same in as
many rounds as there are bytes.  A second time changes nothing, nor does leaving the separators out
change the older digest. -/
theorem separators_removed_exact (s : Script) :
    (∃ place is, IsGreatest {place | place ≤ s.length ∧ s.Boundary place} place ∧
      Script.decode (s.take place) = .ok is ∧
      (∀ js, Script.decode s = .ok js ↔ place = s.length ∧ js = is) ∧
      Transaction.withoutSeparators s =
        Script.encode (is.filter fun i => i.code != 0xab) ++ s.drop place) ∧
    Transaction.withoutSeparators s = s.kept ∧
    (∀ place i rest k, s.Boundary place → Instruction.read (s.drop place) = some (i, rest) → 0 < k →
      k < i.encode.length → ¬s.SeparatorAt (place + k)) ∧
    (s.length ≤ Checked.addressSpace →
      Checked.withoutSeparators s = .ok (Transaction.withoutSeparators s)) ∧
    Transaction.withoutSeparators (Transaction.withoutSeparators s) =
      Transaction.withoutSeparators s ∧
    ∀ (tx : Transaction) (index : Nat) (flag : SighashFlag),
      tx.legacyDigest index (Transaction.withoutSeparators s) flag = tx.legacyDigest index s flag := by
  have hscan := Script.encode_scan s
  have htake : (Script.encode (Script.scan s).1 ++ (Script.scan s).2).take
      (Script.encode (Script.scan s).1).length = Script.encode (Script.scan s).1 := List.take_left
  have hdrop : (Script.encode (Script.scan s).1 ++ (Script.scan s).2).drop
      (Script.encode (Script.scan s).1).length = (Script.scan s).2 := List.drop_left
  rw [hscan] at htake hdrop
  refine ⟨⟨_, (Script.scan s).1, Script.isGreatest_boundary s, ?_, fun js => ?_, ?_⟩,
    (Script.kept_eq s).symm, fun place i rest k hplace hread hk hinside hat => ?_,
    Checked.withoutSeparators_eq, Transaction.withoutSeparators_withoutSeparators s,
    fun tx index flag => Transaction.legacyDigest_withoutSeparators tx index s flag⟩
  · rw [htake, Script.decode_eq_ok_iff]
    exact ⟨fun i hi => Instruction.readable_iff.mp (Script.readable_of_mem_scan i hi), rfl⟩
  · rw [Script.decode_eq_ok_iff_scan]
    constructor
    · intro h
      rw [h] at hscan ⊢
      rw [List.append_nil] at hscan
      exact ⟨congrArg List.length hscan, rfl⟩
    · rintro ⟨hlength, rfl⟩
      rw [hlength, List.drop_length] at hdrop
      exact Prod.ext rfl hdrop.symm
  · rw [hdrop]
    rfl
  · exact Script.not_boundary_inside hplace hread hk hinside hat.1

/-- A separator's byte that is pushed, two separators, and at the end a push that is cut short. -/
theorem separators_removed_around_push :
    ([0x51, 0xab, 0x01, 0xab, 0xab, 0x02, 0xab] : Script).length ≤ Checked.addressSpace ∧
    Checked.withoutSeparators [0x51, 0xab, 0x01, 0xab, 0xab, 0x02, 0xab] =
      .ok [0x51, 0x01, 0xab, 0x02, 0xab] ∧
    ¬Script.SeparatorAt [0x51, 0xab, 0x01, 0xab, 0xab, 0x02, 0xab] (2 + 1) := by
  have hroom : ([0x51, 0xab, 0x01, 0xab, 0xab, 0x02, 0xab] : Script).length ≤
      Checked.addressSpace := by decide
  have hleft : Transaction.withoutSeparators [0x51, 0xab, 0x01, 0xab, 0xab, 0x02, 0xab] =
      [0x51, 0x01, 0xab, 0x02, 0xab] := by decide +kernel
  have hplace : Script.Boundary [0x51, 0xab, 0x01, 0xab, 0xab, 0x02, 0xab] 2 :=
    ⟨[⟨0x51, none⟩, ⟨0xab, none⟩], by decide +kernel⟩
  obtain ⟨-, -, hinside, hloop, -⟩ :=
    separators_removed_exact [0x51, 0xab, 0x01, 0xab, 0xab, 0x02, 0xab]
  refine ⟨hroom, ?_, ?_⟩
  · rw [hloop hroom, hleft]
  · exact hinside 2 ⟨0x01, some [0xab]⟩ [0xab, 0x02, 0xab] 1 hplace rfl (by decide) (by decide)

end CoinScript
