import CoinScript.Script.Instruction

/-!
# Scripts

A script is any byte string; whether it reads as a sequence of instructions is found out when it is
used.  `Script.scan` reads as many instructions as there are and returns them with the tail that
does not read: nothing, or a push that runs past the end.  Everything else about the structure of a
script is said through `scan`:

* `encode_scan`: the instructions and the tail together are the script;
* `decode` succeeds exactly if the tail is empty, and otherwise names the place where it starts.
-/

namespace CoinScript

/-- The bytes of a script. -/
abbrev Script := Bytes

/-- Why a script cannot be built, read or parsed from text. -/
inductive ScriptError
  /-- A word of the text is neither a name nor hexadecimal. -/
  | badWord (word : String)
  /-- An opcode that needs a payload stands alone. -/
  | carriesData (op : Opcode)
  | badHex (cause : HexError)
  /-- The push at this offset runs past the end. -/
  | pushPastEnd (offset : Nat)
  /-- No push header can announce this many bytes. -/
  | pushTooLong
deriving DecidableEq

namespace ScriptError

/-- The error in words. -/
def message : ScriptError → String
  | badWord word => s!"invalid ASM token '{word}'"
  | carriesData op => s!"{op.name} carries data; use append_push_data"
  | badHex cause => s!"hex decode error: {cause.message}"
  | pushPastEnd offset => s!"push at offset {offset} runs past the end of the script"
  | pushTooLong => "push data too big"

end ScriptError

namespace Script

/-- The instructions at the front of a script, and the tail that does not read as one. -/
def scan (b : Script) : List Instruction × Bytes :=
  match _h : Instruction.read b with
  | none => ([], b)
  | some (i, rest) =>
    let after := scan rest
    (i :: after.1, after.2)
termination_by b.length
decreasing_by exact Instruction.length_of_read _h

/-- The bytes of a sequence of instructions. -/
def encode (is : List Instruction) : Script := is.flatMap Instruction.encode

/-- The instructions of a script, if all of it reads as instructions. -/
def decode (b : Script) : Except ScriptError (List Instruction) :=
  if (scan b).2 = [] then .ok (scan b).1
  else .error (.pushPastEnd (b.length - (scan b).2.length))

/-- Reads a script from hexadecimal text. -/
def ofHex (text : String) : Except ScriptError Script :=
  match Hex.decode text with
  | .ok b => .ok b
  | .error cause => .error (.badHex cause)

/-! ## Building -/

/-- The shortest push header for `n` bytes. -/
def pushHeader (n : Nat) : Except ScriptError Bytes :=
  if n ≤ 75 then .ok [UInt8.ofNat n]
  else if n ≤ 0xff then .ok [0x4c, UInt8.ofNat n]
  else if n ≤ 0xffff then .ok (0x4d :: Bytes.ofNatLE 2 n)
  else if n < UInt32.size then .ok (0x4e :: Bytes.ofNatLE 4 n)
  else .error .pushTooLong

/-- A byte string behind its shortest push header. -/
def pushed (b : Bytes) : Except ScriptError Script :=
  match pushHeader b.length with
  | .ok header => .ok (header ++ b)
  | .error e => .error e

/-- The script with the push of a byte string at its end. -/
def appendPush (s : Script) (b : Bytes) : Except ScriptError Script :=
  match pushed b with
  | .ok p => .ok (s ++ p)
  | .error e => .error e

/-- The script with bare opcodes at its end.  Opcodes that carry a payload are refused. -/
def appendOpcodes (s : Script) (ops : List Opcode) : Except ScriptError Script :=
  match ops.find? Opcode.carriesData with
  | some op => .error (.carriesData op)
  | none => .ok (s ++ ops)

/-! ## Known forms -/

/-- The lock that names the hash of a public key. -/
def payToKeyHash (h : Hash160) : Script := [0x76, 0xa9, 0x14] ++ h.bytes ++ [0x88, 0xac]

/-- The lock that names the hash of a script. -/
def payToScriptHash (h : Hash160) : Script := [0xa9, 0x14] ++ h.bytes ++ [0x87]

/-- The script is a lock that names the hash of a public key. -/
def isPayToKeyHash (s : Script) : Bool :=
  decide (s.length = 25 ∧ s.take 3 = [0x76, 0xa9, 0x14] ∧ s.drop 23 = [0x88, 0xac])

/-- The script is a lock that names the hash of a script. -/
def isPayToScriptHash (s : Script) : Bool :=
  decide (s.length = 23 ∧ s.take 2 = [0xa9, 0x14] ∧ s.drop 22 = [0x87])

/-- Every instruction is a push, and every byte belongs to an instruction. -/
def isPushOnly (s : Script) : Bool :=
  decide ((scan s).2 = []) && (scan s).1.all Instruction.isPush

/-! ## Reading and writing -/

theorem scan_of_none {b : Script} (h : Instruction.read b = none) : scan b = ([], b) := by
  rw [scan]
  split
  · rfl
  · next i rest h' =>
    rw [h] at h'
    cases h'

theorem scan_of_some {b : Script} {i : Instruction} {rest : Bytes}
    (h : Instruction.read b = some (i, rest)) :
    scan b = (i :: (scan rest).1, (scan rest).2) := by
  rw [scan]
  split
  · next h' =>
    rw [h] at h'
    cases h'
  · next i' rest' h' =>
    rw [h] at h'
    cases h'
    rfl

@[simp] theorem encode_nil : encode [] = [] := rfl

@[simp] theorem encode_cons (i : Instruction) (is : List Instruction) :
    encode (i :: is) = i.encode ++ encode is := rfl

/-- **The instructions and the tail together are the script.** -/
theorem encode_scan (b : Script) : encode (scan b).1 ++ (scan b).2 = b := by
  fun_induction scan b with
  | case1 b h => rfl
  | case2 b i rest h after ih =>
    rw [encode_cons, List.append_assoc, ih, Instruction.encode_read h]

end Script

end CoinScript
