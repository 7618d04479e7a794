import CoinScript.Bytes.Lemmas
import CoinScript.Machine.Execute
import CoinScript.Proofs.Checked.Position

/-!
# Scripts read by position

A script as an array, from which one instruction after another is read at a position.  The opcode is
there because the position is below the length; the header of a push and its payload are asked for
before they are taken.  The instructions go into a list that grows with each of them, so a script that
was read has as many instructions as memory has room for.  There are no more of them than bytes, so for
a script that is short enough there is room.

`readInstruction` reads what `Instruction.read` takes from the front (`readInstruction_agrees`), and
`parse` what `Script.scan` does (`parse_spared`).  An instruction has at least one byte, so the loop
takes at most as many rounds as there are bytes.
-/

namespace CoinScript.Checked

variable {bytes rest : Bytes} {pos width header length fuel : Nat} {code : Opcode}
  {parsed : List Instruction}

/-! ## The computations -/

/-- The length field of `width` bytes after the opcode.  The script is refused by the offset of the
push. -/
def readField (bytes : Bytes) (pos width : Nat) : Checked Nat Nat := do
  let first ← add pos 1
  let last ← add (← add pos 1) width
  if last < first ∨ bytes.length < last then refuse pos
  else
    let field ← slice bytes first last
    return Bytes.toNatLE (← copyInto (List.replicate 8 0) 0 width field)

/-- A push with a header of `header` bytes and a payload of `length` bytes, and the position after it. -/
def readPush (bytes : Bytes) (pos : Nat) (code : Opcode) (header length : Nat) :
    Checked Nat (Instruction × Nat) := do
  let start ← add pos header
  if wordSize ≤ start + length ∨ bytes.length < start + length then refuse pos
  else return (⟨code, some (← slice bytes start (start + length))⟩, start + length)

/-- The instruction at a position, and the position after it. -/
def readInstruction (bytes : Bytes) (pos : Nat) : Checked Nat (Instruction × Nat) := do
  let code ← index bytes pos
  if 0x01 ≤ code ∧ code ≤ 0x4b then readPush bytes pos code 1 code.toNat
  else if code = 0x4c then readPush bytes pos code 2 (← readField bytes pos 1)
  else if code = 0x4d then readPush bytes pos code 3 (← readField bytes pos 2)
  else if code = 0x4e then readPush bytes pos code 5 (← readField bytes pos 4)
  else return (⟨code, none⟩, ← add pos 1)

/-- Reads on from a position, with what has been read so far. -/
def parseFrom (bytes : Bytes) :
    (fuel pos : Nat) → (parsed : List Instruction) → Checked Nat (List Instruction)
  | 0, pos, parsed => if bytes.length ≤ pos then return parsed else crash .endless
  | fuel + 1, pos, parsed =>
    if bytes.length ≤ pos then return parsed
    else do
      let (i, next) ← readInstruction bytes pos
      allocate (parsed.length + 1) 32
      parseFrom bytes fuel next (parsed ++ [i])

/-- The instructions of a script. -/
def parse (s : Script) : Checked Fault (List Instruction) :=
  recast (.truncatedPush · s.length) (parseFrom s s.length 0 [])

/-! ## One instruction -/

/-- What is taken from the front, or the offset at which nothing can be taken. -/
def readAt (pos : Nat) (rest : Bytes) : Except Nat (Instruction × Bytes) :=
  match Instruction.read rest with
  | some read => .ok read
  | none => .error pos

/-- The push of the program, with its header. -/
def pushAt (pos : Nat) (code : Opcode) (width length : Nat) (rest : Bytes) :
    Except Nat (Instruction × Bytes) :=
  if rest.length < width ∨ (rest.drop width).length < length then .error pos
  else .ok (⟨code, some ((rest.drop width).take length)⟩, (rest.drop width).drop length)

theorem length_of_readAt {i : Instruction} {after : Bytes} (h : readAt pos rest = .ok (i, after)) :
    after.length < rest.length := by
  unfold readAt at h
  split at h
  · next hread =>
    cases h
    exact Instruction.length_of_read hread
  · cases h

theorem readAt_of_carriesData (hcode : Opcode.carriesData code = true) (pos : Nat) (rest : Bytes) :
    readAt pos (code :: rest) =
      pushAt pos code (Opcode.lengthWidth code)
        (Instruction.announced code (rest.take (Opcode.lengthWidth code))) rest := by
  rw [readAt, Instruction.read, if_pos hcode, pushAt]
  dsimp only
  by_cases hshort : rest.length < Opcode.lengthWidth code ∨
      (rest.drop (Opcode.lengthWidth code)).length <
        Instruction.announced code (rest.take (Opcode.lengthWidth code))
  · rw [if_pos hshort, if_pos hshort]
  · rw [if_neg hshort, if_neg hshort]

theorem readPush_agrees (h : At bytes pos (code :: rest)) (hwidth : width ≤ rest.length)
    (hword : bytes.length < wordSize) :
    Agrees (SamePlace bytes) (readPush bytes pos code (width + 1) length)
      (pushAt pos code width length rest) := by
  have hplace : At bytes (pos + (width + 1)) (rest.drop width) :=
    h.skip (n := width + 1) (by rw [List.length_cons]; omega)
  have hlength := hplace.add_length
  have hstart : (add pos (width + 1) : Checked Nat Nat) = .ok (pos + (width + 1)) :=
    h.add (by rw [List.length_cons]; omega) hword
  rw [readPush, hstart, ok_bind, pushAt]
  by_cases hfits : length ≤ (rest.drop width).length
  · rw [if_neg (by omega), if_neg (by omega), hplace.slice hfits]
    exact agrees_samePlace _ (hplace.skip hfits)
  · rw [if_pos (by omega), if_pos (by omega)]
    exact .refused pos

theorem readField_agrees (h : At bytes pos (code :: rest)) (hwidth : width ≤ 8)
    (hword : bytes.length < wordSize - 8) :
    readField bytes pos width =
      if rest.length < width then refuse pos else .ok (Bytes.toNatLE (rest.take width)) := by
  have hlength := h.add_length
  rw [List.length_cons] at hlength
  have hnext : (add pos 1 : Checked Nat Nat) = .ok (pos + 1) := add_of_lt (by omega)
  have hlast : (add (pos + 1) width : Checked Nat Nat) = .ok (pos + 1 + width) :=
    add_of_lt (by omega)
  rw [readField, hnext, ok_bind, ok_bind, hlast, ok_bind]
  by_cases hfits : rest.length < width
  · rw [if_pos (by omega), if_pos hfits]
  · have hfits : width ≤ rest.length := Nat.not_lt.mp hfits
    have hfield : (rest.take width).length = width := List.length_take_of_le hfits
    rw [if_neg (by omega), if_neg (by omega), h.tail.slice hfits, ok_bind,
      copyInto_of_le (Nat.zero_le _) (by simpa using hwidth) (by omega), ok_bind, List.take_zero,
      List.nil_append, List.drop_replicate, Bytes.toNatLE_append_replicate]
    rfl

/-- A push whose length is in a field of its own. -/
theorem readWide_agrees (h : At bytes pos (code :: rest)) (hword : bytes.length < wordSize - 8)
    (hcode : Opcode.carriesData code = true) (hwidth : Opcode.lengthWidth code = width)
    (hpos : 0 < width) (hle : width ≤ 8) :
    Agrees (SamePlace bytes)
      (do readPush bytes pos code (width + 1) (← readField bytes pos width))
      (readAt pos (code :: rest)) := by
  rw [readField_agrees h hle hword, readAt_of_carriesData hcode, Instruction.announced, hwidth,
    if_neg (Nat.ne_of_gt hpos)]
  split
  · next hshort =>
    rw [pushAt, if_pos (.inl hshort)]
    exact .refused pos
  · next hfits => exact readPush_agrees h (Nat.not_lt.mp hfits) (by omega)

theorem readInstruction_agrees (h : At bytes pos (code :: rest))
    (hword : bytes.length < wordSize - 8) :
    Agrees (SamePlace bytes) (readInstruction bytes pos) (readAt pos (code :: rest)) := by
  have hnext : (add pos 1 : Checked Nat Nat) = .ok (pos + 1) :=
    h.add (by rw [List.length_cons]; omega) (by omega)
  rw [readInstruction, h.index_head, ok_bind]
  by_cases hdirect : 0x01 ≤ code ∧ code ≤ 0x4b
  · have hcarries : Opcode.carriesData code = true ∧ Opcode.lengthWidth code = 0 :=
      Bytes.forall_byte (p := fun op => 0x01 ≤ op ∧ op ≤ 0x4b →
        Opcode.carriesData op = true ∧ Opcode.lengthWidth op = 0) (by decide +kernel) code hdirect
    rw [if_pos hdirect, readAt_of_carriesData hcarries.1, Instruction.announced, hcarries.2,
      if_pos rfl]
    exact readPush_agrees h (Nat.zero_le _) (by omega)
  rw [if_neg hdirect]
  by_cases hone : code = 0x4c
  · rw [if_pos hone]
    exact readWide_agrees h hword (by rw [hone]; rfl) (by rw [hone]; rfl) (by decide) (by decide)
  rw [if_neg hone]
  by_cases htwo : code = 0x4d
  · rw [if_pos htwo]
    exact readWide_agrees h hword (by rw [htwo]; rfl) (by rw [htwo]; rfl) (by decide) (by decide)
  rw [if_neg htwo]
  by_cases hfour : code = 0x4e
  · rw [if_pos hfour]
    exact readWide_agrees h hword (by rw [hfour]; rfl) (by rw [hfour]; rfl) (by decide) (by decide)
  rw [if_neg hfour, hnext, ok_bind]
  have hbare : Opcode.carriesData code = false :=
    Bytes.forall_byte (p := fun op => ¬(0x01 ≤ op ∧ op ≤ 0x4b) → ¬op = 0x4c → ¬op = 0x4d →
      ¬op = 0x4e → Opcode.carriesData op = false) (by decide +kernel) code hdirect hone htwo hfour
  rw [readAt, Instruction.read, hbare, if_neg Bool.false_ne_true]
  exact agrees_samePlace _ h.tail

/-! ## The loop -/

/-- What reading on from a position gives. -/
def scanAt (bytes : Bytes) (parsed : List Instruction) (rest : Bytes) :
    Except Nat (List Instruction) :=
  if (Script.scan rest).2 = [] then .ok (parsed ++ (Script.scan rest).1)
  else .error (bytes.length - (Script.scan rest).2.length)

/-- One instruction, and the rest after it. -/
theorem scanAt_cons (h : At bytes pos (code :: rest)) (parsed : List Instruction) :
    scanAt bytes parsed (code :: rest) = (do
      let (i, after) ← readAt pos (code :: rest)
      scanAt bytes (parsed ++ [i]) after) := by
  cases hread : Instruction.read (code :: rest) with
  | none =>
    have hlength := h.add_length
    rw [scanAt, Script.scan_of_none hread, if_neg (List.cons_ne_nil _ _), readAt, hread]
    exact congrArg Except.error (by dsimp only; omega)
  | some read =>
    rw [scanAt, Script.scan_of_some hread, readAt, hread]
    show _ = scanAt bytes (parsed ++ [read.1]) read.2
    rw [scanAt, List.append_assoc]
    rfl

theorem scanAt_end (h : At bytes pos []) (parsed : List Instruction) :
    bytes.length ≤ pos ∧ scanAt bytes parsed [] = .ok parsed := by
  refine ⟨Nat.le_of_eq (h.eq_length_iff.mpr rfl).symm, ?_⟩
  rw [scanAt, Script.scan_of_none rfl, if_pos rfl, List.append_nil]

/-- What is known of the instructions of a script with so many bytes. -/
structure Parsed (size : Nat) (is : List Instruction) : Prop where
  room : is.length * 32 ≤ addressSpace
  length_le : is.length ≤ size

/-- What the loop reads, by induction on the rounds that are left. -/
theorem parseFrom_spared {ample : Prop} (h : At bytes pos rest) (hword : bytes.length < wordSize - 8)
    (hample : ample → bytes.length * 32 ≤ addressSpace) (hfuel : rest.length ≤ fuel)
    (hroom : parsed.length * 32 ≤ addressSpace)
    (hparsed : parsed.length + rest.length ≤ bytes.length) :
    Spared ample (Parsed bytes.length) (parseFrom bytes fuel pos parsed)
      (scanAt bytes parsed rest) := by
  induction fuel generalizing pos rest parsed with
  | zero =>
    obtain rfl : rest = [] := List.length_eq_zero_iff.mp (Nat.le_zero.mp hfuel)
    obtain ⟨hend, hscan⟩ := scanAt_end h parsed
    rw [parseFrom, if_pos hend, hscan]
    exact .ok ⟨hroom, hparsed⟩
  | succ fuel ih =>
    match rest, h with
    | [], h =>
      obtain ⟨hend, hscan⟩ := scanAt_end h parsed
      rw [parseFrom, if_pos hend, hscan]
      exact .ok ⟨hroom, hparsed⟩
    | code :: tail, h =>
      have hlength := h.add_length
      rw [List.length_cons] at hlength hfuel hparsed
      rw [parseFrom, if_neg (by omega), scanAt_cons h]
      refine (readInstruction_agrees h hword).spared_bind ?_
      rintro ⟨i, next⟩ ⟨_, after⟩ ⟨rfl, hafter⟩ hread
      have hshorter := length_of_readAt hread
      rw [List.length_cons] at hshorter
      refine spared_allocate_bind (fun hyes => ?_) fun hroom => ih hafter (by omega) ?_ ?_
      · have hbytes := hample hyes
        omega
      · rwa [List.length_append, List.length_singleton]
      · rw [List.length_append, List.length_singleton]
        omega

/-- The instructions of a script, or why it is refused. -/
def instructionsOf (s : Script) : Except Fault (List Instruction) :=
  (scanAt s [] s).mapError (.truncatedPush · s.length)

theorem run_parse_eq (s : Script) : Run.parse s = Run.ofExcept (instructionsOf s) := by
  funext m
  unfold Run.parse instructionsOf scanAt
  by_cases htail : (Script.scan s).2 = []
  · rw [htail, if_pos rfl]
    rfl
  · have hempty : (Script.scan s).2.isEmpty = false := by simpa using htail
    rw [if_neg htail]
    show (Run.require (Script.scan s).2.isEmpty _ >>= fun _ => pure (Script.scan s).1) m = _
    rw [hempty]
    rfl

/-- **A script read by position** has the instructions of the program, no more of them than memory
has room for and no more than the script has bytes. -/
theorem parse_spared {ample : Prop} {s : Script} (hword : s.length < wordSize - 8)
    (hample : ample → s.length * 32 ≤ addressSpace) :
    Spared ample (Parsed s.length) (parse s) (instructionsOf s) :=
  (parseFrom_spared (At.zero s) hword hample (Nat.le_refl _)
    (by rw [List.length_nil, Nat.zero_mul]; exact Nat.zero_le _)
    (by rw [List.length_nil, Nat.zero_add])).recast _

end CoinScript.Checked
