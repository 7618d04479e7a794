import CoinScript.Proofs.Sighash.Unlocking

/-!
# The older digest as the digest of a transaction

The older digest is made from a stream of bytes: counts, fields and blanks are written one after the
other, and no transaction with these blanks is ever built.  Here it is built.  `legacyCopy` is the
transaction that a signature with the older digest stands for: scripts of inputs are left out but
for the signed one, which has the script code; sequence numbers, inputs and outputs are left out or
blanked as the flag says.

`legacyDigest_eq_copy` says that the older digest is that of the copy as it goes over the wire,
followed by the flag.  So the counts in the stream are those of lists that are really there, and
each field belongs to the input or output that it is written for.

## Where the two meet

* `encode_legacyCopyInput`: an input of the copy is written as the stream has it.
* `legacyInputs_eq`, `legacyOutputs_eq`: so are the two lists, their counts included.  For a flag
  that asks for the output beside the input there has to be one; otherwise the digest is the number
  one.
-/

namespace CoinScript.Transaction

/-- An input as it stands in the copy: the signed one has the script code, and the others have no
script and keep their sequence numbers only if all outputs are committed to. -/
def legacyCopyInput (base : SighashBase) (code : Script) (signed : Bool) (i : Input) : Input :=
  if signed then { i with unlocking := code }
  else { i with unlocking := [], sequence := if base = .all then i.sequence else 0 }

/-- The inputs of the copy: all of them, or the signed one alone. -/
def legacyCopyInputs (tx : Transaction) (index : Nat) (code : Script) (flag : SighashFlag) :
    List Input :=
  let inputs := tx.inputs.mapIdx fun place i => legacyCopyInput flag.base code (place == index) i
  if flag.anyoneCanPay then inputs[index]?.toList else inputs

/-- An output that stands in the copy for one that is not committed to. -/
def blankOutput : Output := ⟨0xffffffffffffffff, []⟩

/-- The outputs of the copy: all, none, or those up to the place of the input, of which only the
last one is committed to. -/
def legacyCopyOutputs (tx : Transaction) (index : Nat) : SighashBase → List Output
  | .all => tx.outputs
  | .none => []
  | .single =>
    (tx.outputs.take (index + 1)).mapIdx fun place o => if place < index then blankOutput else o

/-- **The transaction that a signature with the older digest stands for.** -/
def legacyCopy (tx : Transaction) (index : Nat) (scriptCode : Script) (flag : SighashFlag) :
    Transaction where
  version := tx.version
  inputs := tx.legacyCopyInputs index (withoutSeparators scriptCode) flag
  outputs := tx.legacyCopyOutputs index flag.base
  lockTime := tx.lockTime

variable {tx : Transaction} {index : Nat} {i : Input} {flag : SighashFlag}

/-! ## Inputs -/

theorem encode_legacyCopyInput (base : SighashBase) (code : Script) (signed : Bool) (i : Input) :
    (legacyCopyInput base code signed i).encode = legacyInput base code signed i := by
  unfold legacyCopyInput legacyInput Input.encode
  cases signed with
  | true => simp only [if_true, List.append_assoc]
  | false => simp only [Bool.false_eq_true, if_false, List.append_assoc]

/-- The inputs of the stream are those of the copy, counted. -/
theorem legacyInputs_eq (h : tx.inputs[index]? = some i) (code : Script) :
    tx.legacyInputs index i code flag =
      VarInt.encode (tx.legacyCopyInputs index code flag).length ++
        (tx.legacyCopyInputs index code flag).flatMap Input.encode := by
  unfold legacyInputs legacyCopyInputs
  cases flag.anyoneCanPay with
  | true =>
    have hsigned : (tx.inputs.mapIdx fun place i =>
        legacyCopyInput flag.base code (place == index) i)[index]? =
          some (legacyCopyInput flag.base code true i) := by
      rw [List.getElem?_mapIdx, h, Option.map_some, beq_self_eq_true]
    simp only [if_true, hsigned, Option.toList_some, List.length_singleton,
      List.flatMap_singleton, encode_legacyCopyInput]
  | false =>
    simp only [Bool.false_eq_true, if_false, List.length_mapIdx]
    rw [List.mapIdx_eq_zipIdx_map, List.flatMap_map]
    simp only [encode_legacyCopyInput]

/-! ## Outputs -/

/-- Up to the place of the input there are blanks, and there is the output beside it. -/
theorem legacyCopyOutputs_single (h : index < tx.outputs.length) :
    tx.legacyCopyOutputs index .single =
      List.replicate index blankOutput ++ [tx.outputs[index]] := by
  have hblank : (tx.outputs.take index).mapIdx
      (fun place o => if place < index then blankOutput else o) =
        List.replicate index blankOutput := by
    refine List.ext_getElem? fun place => ?_
    rw [List.getElem?_mapIdx, List.getElem?_take, List.getElem?_replicate]
    by_cases hplace : place < index
    · rw [if_pos hplace, if_pos hplace, List.getElem?_eq_getElem (by omega), Option.map_some,
        if_pos hplace]
    · rw [if_neg hplace, if_neg hplace, Option.map_none]
  have hlength : (tx.outputs.take index).length = index := List.length_take_of_le (by omega)
  unfold legacyCopyOutputs
  rw [← List.take_append_getElem h, List.mapIdx_concat, hblank, hlength, if_neg (by omega)]

/-- The outputs of the stream are those of the copy, counted. -/
theorem legacyOutputs_eq (h : tx.lacksOutput index flag = false) :
    tx.legacyOutputs index flag.base =
      VarInt.encode (tx.legacyCopyOutputs index flag.base).length ++
        (tx.legacyCopyOutputs index flag.base).flatMap Output.encode := by
  cases hbase : flag.base with
  | all => rfl
  | none => exact (List.append_nil _).symm
  | single =>
    have hindex : index < tx.outputs.length := by
      simpa [lacksOutput, hbase] using h
    rw [legacyCopyOutputs_single hindex, legacyOutputs, List.getElem?_eq_getElem hindex]
    simp only [List.length_append, List.length_replicate, List.length_singleton,
      List.flatMap_append, List.flatMap_replicate, List.flatMap_singleton, List.append_assoc]
    rfl

/-! ## The digest -/

/-- **The stream is the copy as it goes over the wire, followed by the flag.** -/
theorem legacyBytes_eq (h : tx.inputs[index]? = some i)
    (hbeside : tx.lacksOutput index flag = false) (scriptCode : Script) :
    tx.legacyBytes index i scriptCode flag =
      (tx.legacyCopy index scriptCode flag).encode ++ flag.bytes := by
  unfold legacyBytes
  rw [legacyInputs_eq h, legacyOutputs_eq hbeside]
  rfl

theorem bytes_oneDigest : oneDigest.bytes = Bytes.ofNatLE 32 1 := by decide

/-- **The older digest is the digest of a transaction.**  It is made of the copy and the flag as
four bytes; where the flag asks for the output beside the input and there is none, it is the number
one. -/
theorem legacyDigest_eq_copy (tx : Transaction) (index : Nat) (scriptCode : Script)
    (flag : SighashFlag) (hindex : index < tx.inputs.length) (hflag : flag.word ≤ 0xff) :
    tx.legacyDigest index scriptCode flag = .ok
      (if flag.base = .single ∧ tx.outputs.length ≤ index then
        ⟨Bytes.ofNatLE 32 1, Bytes.length_ofNatLE 32 1⟩
      else sha256d ((tx.legacyCopy index scriptCode flag).encode ++ Wire.u32 flag.word)) := by
  have hinput : tx.inputs[index]? = some tx.inputs[index] := List.getElem?_eq_getElem hindex
  have hsigned : tx.signedInput index flag = .ok tx.inputs[index] :=
    signedInput_eq (input_eq_ok_iff.mpr hinput) (decide_eq_true hflag)
  unfold legacyDigest
  rw [hsigned]
  show Except.ok (if tx.lacksOutput index flag = true then oneDigest else _) = _
  by_cases hlacks : flag.base = .single ∧ tx.outputs.length ≤ index
  · have hmissing : tx.lacksOutput index flag = true := decide_eq_true hlacks
    rw [hmissing, if_pos rfl, if_pos hlacks]
    exact congrArg Except.ok (Block.ext bytes_oneDigest)
  · have hbeside : tx.lacksOutput index flag = false := decide_eq_false hlacks
    rw [hbeside, if_neg Bool.false_ne_true, if_neg hlacks, legacyBytes_eq hinput hbeside]
    rfl

/-! ## The output beside the input -/

/-- A transaction with three inputs and two outputs. -/
def threeInputs : Transaction where
  version := 1
  inputs := [⟨⟨.zero 32, 0⟩, [0x51], 7, none⟩, ⟨⟨.zero 32, 1⟩, [0x52], 8, none⟩,
    ⟨⟨.zero 32, 2⟩, [0x53], 9, none⟩]
  outputs := [⟨1000, [0x51]⟩, ⟨2000, [0x52]⟩]
  lockTime := 5

/-- The second input, signed for the output beside it: the other inputs have neither scripts nor
sequence numbers, the separator is gone from the script code, and the first output is blank. -/
theorem legacyDigest_threeInputs :
    threeInputs.legacyDigest 1 [0x76, 0xab, 0xac] ⟨0x03⟩ =
      .ok (sha256d (Transaction.encode
        { version := 1
          inputs := [⟨⟨.zero 32, 0⟩, [], 0, none⟩, ⟨⟨.zero 32, 1⟩, [0x76, 0xac], 8, none⟩,
            ⟨⟨.zero 32, 2⟩, [], 0, none⟩]
          outputs := [blankOutput, ⟨2000, [0x52]⟩]
          lockTime := 5 } ++ [3, 0, 0, 0])) := by
  have hcopy : threeInputs.legacyCopy 1 [0x76, 0xab, 0xac] ⟨0x03⟩ =
      { version := 1
        inputs := [⟨⟨.zero 32, 0⟩, [], 0, none⟩, ⟨⟨.zero 32, 1⟩, [0x76, 0xac], 8, none⟩,
          ⟨⟨.zero 32, 2⟩, [], 0, none⟩]
        outputs := [blankOutput, ⟨2000, [0x52]⟩]
        lockTime := 5 } := by decide +kernel
  have hdigest := legacyDigest_eq_copy threeInputs 1 [0x76, 0xab, 0xac] ⟨0x03⟩ (by decide)
    (by decide)
  rw [hcopy, if_neg (by decide)] at hdigest
  exact hdigest

end CoinScript.Transaction
