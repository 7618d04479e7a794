import CoinScript.Bytes.Basic

/-!
# Opcodes and their names

The first byte of an instruction is its opcode.  Opcodes `0x01` to `0x4e` carry a payload: up to
`0x4b` the opcode is the length of the payload itself, and the three above it are followed by a
length of one, two or four bytes.  Everything from `0x4f` to `0xb9`, and `0xff`, is an instruction
of its own with a name; the bytes between have no meaning.

`ofName?` reads a name back.  Names of opcodes that carry a payload are not read, since such an
instruction is written as its payload alone.
-/

namespace CoinScript

/-- The first byte of an instruction. -/
abbrev Opcode := UInt8

namespace Opcode

/-- The names of `0x4c` to `0xb9`, in order. -/
def names : List String :=
  ["OP_PUSHDATA1", "OP_PUSHDATA2", "OP_PUSHDATA4", "OP_1NEGATE",
    "OP_RESERVED", "OP_1", "OP_2", "OP_3", "OP_4", "OP_5", "OP_6", "OP_7",
    "OP_8", "OP_9", "OP_10", "OP_11", "OP_12", "OP_13", "OP_14", "OP_15",
    "OP_16", "OP_NOP", "OP_VER", "OP_IF", "OP_NOTIF", "OP_VERIF", "OP_VERNOTIF", "OP_ELSE",
    "OP_ENDIF", "OP_VERIFY", "OP_RETURN", "OP_TOALTSTACK", "OP_FROMALTSTACK", "OP_2DROP",
    "OP_2DUP", "OP_3DUP",
    "OP_2OVER", "OP_2ROT", "OP_2SWAP", "OP_IFDUP", "OP_DEPTH", "OP_DROP", "OP_DUP", "OP_NIP",
    "OP_OVER", "OP_PICK", "OP_ROLL", "OP_ROT", "OP_SWAP", "OP_TUCK", "OP_CAT", "OP_SPLIT",
    "OP_NUM2BIN", "OP_BIN2NUM", "OP_SIZE", "OP_INVERT", "OP_AND", "OP_OR", "OP_XOR", "OP_EQUAL",
    "OP_EQUALVERIFY", "OP_RESERVED1", "OP_RESERVED2", "OP_1ADD", "OP_1SUB", "OP_2MUL",
    "OP_2DIV", "OP_NEGATE",
    "OP_ABS", "OP_NOT", "OP_0NOTEQUAL", "OP_ADD", "OP_SUB", "OP_MUL", "OP_DIV", "OP_MOD",
    "OP_LSHIFT", "OP_RSHIFT", "OP_BOOLAND", "OP_BOOLOR", "OP_NUMEQUAL", "OP_NUMEQUALVERIFY",
    "OP_NUMNOTEQUAL", "OP_LESSTHAN",
    "OP_GREATERTHAN", "OP_LESSTHANOREQUAL", "OP_GREATERTHANOREQUAL", "OP_MIN", "OP_MAX",
    "OP_WITHIN", "OP_RIPEMD160", "OP_SHA1",
    "OP_SHA256", "OP_HASH160", "OP_HASH256", "OP_CODESEPARATOR", "OP_CHECKSIG",
    "OP_CHECKSIGVERIFY", "OP_CHECKMULTISIG", "OP_CHECKMULTISIGVERIFY",
    "OP_NOP1", "OP_CHECKLOCKTIMEVERIFY", "OP_CHECKSEQUENCEVERIFY", "OP_NOP4", "OP_NOP5",
    "OP_NOP6", "OP_NOP7", "OP_NOP8",
    "OP_NOP9", "OP_NOP10"]

/-- The name of an opcode. -/
def name (op : Opcode) : String :=
  if op = 0x00 then "OP_FALSE"
  else if op < 0x4c then "OP_DATA"
  else if op = 0xff then "OP_INVALIDOPCODE"
  else names[op.toNat - 0x4c]?.getD "OP_UNKNOWN"

/-- The opcodes `0x4f` to `0xb9` and `0xff`: those with a name of their own and no payload. -/
def named : List Opcode := (List.range 107).map (fun i => UInt8.ofNat (0x4f + i)) ++ [0xff]

/-- The opcode of a name, aliases included. -/
def ofName? (s : String) : Option Opcode :=
  if s = "OP_0" ∨ s = "OP_FALSE" then some 0x00
  else if s = "OP_TRUE" then some 0x51
  else if s = "OP_NOP2" then some 0xb1
  else if s = "OP_NOP3" then some 0xb2
  else named.find? fun op => op.name == s

/-- The opcode is followed by a payload. -/
def carriesData (op : Opcode) : Bool := decide (0x01 ≤ op ∧ op ≤ 0x4e)

/-- Number of bytes after the opcode that give the length of the payload. -/
def lengthWidth (op : Opcode) : Nat :=
  if op = 0x4c then 1 else if op = 0x4d then 2 else if op = 0x4e then 4 else 0

/-- The opcode of the shortest push of `n` bytes. -/
def forPush (n : Nat) : Opcode :=
  if n ≤ 75 then UInt8.ofNat n
  else if n ≤ 0xff then 0x4c
  else if n ≤ 0xffff then 0x4d
  else 0x4e

theorem names_length : names.length = 110 := rfl

end Opcode

end CoinScript
