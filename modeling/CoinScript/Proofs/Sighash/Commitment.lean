import CoinScript.Proofs.Sighash.PreimageReading
import CoinScript.Sighash.Digest

/-!
# What a signature with the amount commits to

A preimage has the hashes of three lists in it, so its bytes do not show the lists themselves, and
which lists it stands for depends on the flag.  `Transaction.commitment` says in plain terms what is
committed to: the fields that are written out, and of the lists only what the flag does not leave
out.  Scripts that unlock inputs and the outputs that are spent are not among it.

* `preimage_eq_iff_commitment_eq`: two preimages have the same bytes exactly if they stand for the
  same commitment.  That a commitment determines the bytes needs no assumption; the other direction
  needs that the hash is injective on the lists that are hashed, and zero on none of them
  (`HashesApart`).

## How the lists are recovered

The bytes determine the fields of the preimage, the three hashes among them (`Preimage.encode_inj`).
Equal hashes come from equal byte strings by assumption, and a list is determined by its items
written one after the other (`PrefixFree.flatMap_injOn`).  A hash that is zero because there is no
output beside the input is told from the hash of an output by the other half of the assumption.
-/

namespace CoinScript

/-- What a signature commits to of the outputs. -/
inductive CommittedOutputs
  | all (outputs : List Output)
  | beside (output : Output)
  /-- The output beside the input is asked for, and there is none. -/
  | missing
  | nothing
deriving DecidableEq

/-- What a signature with the amount commits to. -/
structure Commitment where
  version : UInt32
  lockTime : UInt32
  flag : SighashFlag
  scriptCode : Bytes
  amount : UInt64
  /-- The outpoint of the input that is signed. -/
  outpoint : Outpoint
  /-- The sequence number of the input that is signed. -/
  sequence : UInt32
  /-- The outpoints of all inputs, unless the flag leaves the other inputs out. -/
  outpoints : Option (List Outpoint)
  /-- The sequence numbers of all inputs, if all inputs and all outputs are signed. -/
  sequences : Option (List UInt32)
  outputs : CommittedOutputs
deriving DecidableEq

namespace SighashFlag

/-- The sequence numbers of all inputs are committed to. -/
def signsSequences (f : SighashFlag) : Bool := !f.anyoneCanPay && decide (f.base = .all)

end SighashFlag

namespace Transaction

/-- What is committed to of the outputs. -/
def committedOutputs (tx : Transaction) (index : Nat) : SighashBase → CommittedOutputs
  | .all => .all tx.outputs
  | .none => .nothing
  | .single =>
    match tx.outputs[index]? with
    | some o => .beside o
    | none => .missing

/-- What a signature for the input at a place commits to, if there is such an input. -/
def commitment (tx : Transaction) (index : Nat) (scriptCode : Bytes) (amount : UInt64)
    (flag : SighashFlag) : Option Commitment :=
  tx.inputs[index]?.map fun input =>
    { version := tx.version
      lockTime := tx.lockTime
      flag
      scriptCode
      amount
      outpoint := input.outpoint
      sequence := input.sequence
      outpoints := if flag.anyoneCanPay then none else some (tx.inputs.map (·.outpoint))
      sequences := if flag.signsSequences then some (tx.inputs.map (·.sequence)) else none
      outputs := tx.committedOutputs index flag.base }

/-- The bytes of the outputs that are hashed, if any are. -/
def hashedOutputs (tx : Transaction) (index : Nat) : SighashBase → List Bytes
  | .all => [tx.outputs.flatMap Output.encode]
  | .none => []
  | .single => (tx.outputs[index]?.map Output.encode).toList

/-- The byte strings that are hashed into the preimage. -/
def hashedLists (tx : Transaction) (index : Nat) (flag : SighashFlag) : List Bytes :=
  (if flag.anyoneCanPay then [] else [tx.inputs.flatMap fun i => i.outpoint.encode]) ++
    (if flag.signsSequences then [tx.inputs.flatMap fun i => Wire.u32 i.sequence] else []) ++
    tx.hashedOutputs index flag.base

/-- The scripts that are committed to have lengths that a count can hold. -/
structure ShortScripts (tx : Transaction) (scriptCode : Bytes) : Prop where
  code : scriptCode.length < 2 ^ 64
  outputs : ∀ o ∈ tx.outputs, o.script.length < 2 ^ 64

/-- The transactions differ in the scripts of their inputs and the spent outputs at most. -/
structure SameButScripts (tx tx' : Transaction) : Prop where
  version : tx.version = tx'.version
  lockTime : tx.lockTime = tx'.lockTime
  outpoints : tx.inputs.map (·.outpoint) = tx'.inputs.map (·.outpoint)
  sequences : tx.inputs.map (·.sequence) = tx'.inputs.map (·.sequence)
  outputs : tx.outputs = tx'.outputs

end Transaction

/-- The hash tells the byte strings of both lists apart, and is zero on none of them. -/
structure HashesApart (xs ys : List Bytes) : Prop where
  inj : ∀ a ∈ xs, ∀ b ∈ ys, sha256d a = sha256d b → a = b
  ne_zero : ∀ a ∈ xs ++ ys, sha256d a ≠ .zero 32

/-! ## Which hashes are zero -/

namespace ZeroReport

@[simp] theorem isZero_prevouts (flag : SighashFlag) (index outputs : Nat) :
    (forFlag flag index outputs).isZero .prevouts = flag.anyoneCanPay := by
  cases h : flag.anyoneCanPay <;> cases hb : flag.base <;>
    by_cases hi : index < outputs <;>
      simp [forFlag, isZero, reasonFor, sequenceReason, outputsReason, OutputsRule.classify,
        PreimageHash.all, h, hb, hi]

@[simp] theorem isZero_sequence (flag : SighashFlag) (index outputs : Nat) :
    (forFlag flag index outputs).isZero .sequence = !flag.signsSequences := by
  cases h : flag.anyoneCanPay <;> cases hb : flag.base <;>
    by_cases hi : index < outputs <;>
      simp [forFlag, isZero, reasonFor, sequenceReason, outputsReason, OutputsRule.classify,
        PreimageHash.all, SighashFlag.signsSequences, h, hb, hi]

end ZeroReport

namespace Transaction

variable {tx tx₁ tx₂ : Transaction} {index index₁ index₂ : Nat} {code code₁ code₂ : Bytes}
  {amount amount₁ amount₂ : UInt64} {flag flag₁ flag₂ : SighashFlag} {p p₁ p₂ : Preimage}

/-- A preimage is made exactly for an input that is there and a flag that fits its byte. -/
theorem preimage_eq_ok_iff :
    tx.preimage index code amount flag = .ok p ↔
      ∃ input, tx.inputs[index]? = some input ∧ flag.fitsByte = true ∧
        tx.preimageOf index input code amount flag = p := by
  unfold preimage signedInput Transaction.input
  cases h : tx.inputs[index]? with
  | none => simp [bind, Except.bind]
  | some input =>
    cases hf : flag.fitsByte <;>
      simp [bind, Except.bind, pure, Except.pure, throw, throwThe, MonadExceptOf.throw]

theorem widthFits_preimageOf (input : Input) (h : code.length < 2 ^ 64) :
    (tx.preimageOf index input code amount flag).WidthFits :=
  VarInt.fits_size h

/-! ## From a commitment to the bytes -/

/-- The hash over outputs is a function of what is committed to of them. -/
theorem outputsHash_eq_of_committedOutputs_eq {base : SighashBase}
    (h : tx₁.committedOutputs index₁ base = tx₂.committedOutputs index₂ base)
    (hbase : flag.base = base) :
    tx₁.outputsHash index₁ (.classify flag index₁ tx₁.outputs.length) =
      tx₂.outputsHash index₂ (.classify flag index₂ tx₂.outputs.length) := by
  cases base with
  | all =>
    have houtputs : tx₁.outputs = tx₂.outputs := CommittedOutputs.all.inj h
    simp only [OutputsRule.classify, hbase, outputsHash, houtputs]
  | none => simp only [OutputsRule.classify, hbase, outputsHash]
  | single =>
    simp only [committedOutputs] at h
    by_cases h₁ : index₁ < tx₁.outputs.length <;> by_cases h₂ : index₂ < tx₂.outputs.length
    · rw [List.getElem?_eq_getElem h₁, List.getElem?_eq_getElem h₂] at h
      have hout := CommittedOutputs.beside.inj h
      simp only [OutputsRule.classify, hbase, h₁, h₂, if_true, outputsHash,
        List.getElem?_eq_getElem, hout]
    · rw [List.getElem?_eq_getElem h₁, List.getElem?_eq_none (by omega)] at h
      cases h
    · rw [List.getElem?_eq_none (by omega), List.getElem?_eq_getElem h₂] at h
      cases h
    · simp only [OutputsRule.classify, hbase, h₁, h₂, if_false, outputsHash]

theorem flatMap_outpoint (tx : Transaction) :
    (tx.inputs.flatMap fun i => i.outpoint.encode) =
      (tx.inputs.map (·.outpoint)).flatMap Outpoint.encode := by
  rw [List.flatMap_map]

theorem flatMap_sequence (tx : Transaction) :
    (tx.inputs.flatMap fun i => Wire.u32 i.sequence) =
      (tx.inputs.map (·.sequence)).flatMap Wire.u32 := by
  rw [List.flatMap_map]

/-- The preimage with the flag's decisions in the place of the report. -/
theorem preimageOf_eq (input : Input) :
    tx.preimageOf index input code amount flag =
      { version := tx.version
        prevoutsHash := if flag.anyoneCanPay then .zero 32 else tx.prevoutsHash
        sequenceHash := if flag.signsSequences then tx.sequenceHash else .zero 32
        outpoint := input.outpoint
        lengthWidth := VarInt.size code.length
        scriptCode := code
        amount
        sequence := input.sequence
        outputsHash := tx.outputsHash index (.classify flag index tx.outputs.length)
        lockTime := tx.lockTime
        flag } := by
  rw [preimageOf, ZeroReport.isZero_prevouts, ZeroReport.isZero_sequence]
  cases flag.signsSequences <;> simp [ZeroReport.forFlag]

/-- **A commitment determines the preimage.** -/
theorem preimageOf_eq_of_commitment_eq {input₁ input₂ : Input}
    (h₁ : tx₁.inputs[index₁]? = some input₁) (h₂ : tx₂.inputs[index₂]? = some input₂)
    (h : tx₁.commitment index₁ code₁ amount₁ flag₁ = tx₂.commitment index₂ code₂ amount₂ flag₂) :
    tx₁.preimageOf index₁ input₁ code₁ amount₁ flag₁ =
      tx₂.preimageOf index₂ input₂ code₂ amount₂ flag₂ := by
  simp only [commitment, h₁, h₂, Option.map_some, Option.some.injEq, Commitment.mk.injEq] at h
  obtain ⟨hversion, hlock, rfl, rfl, rfl, hpoint, hseq, hpoints, hseqs, houts⟩ := h
  have hprevouts : (if flag₁.anyoneCanPay then Block.zero 32 else tx₁.prevoutsHash) =
      if flag₁.anyoneCanPay then Block.zero 32 else tx₂.prevoutsHash := by
    cases ha : flag₁.anyoneCanPay with
    | true => rw [if_pos rfl, if_pos rfl]
    | false =>
      rw [ha, if_neg (by decide), if_neg (by decide)] at hpoints
      rw [prevoutsHash, prevoutsHash, flatMap_outpoint, flatMap_outpoint, Option.some.inj hpoints]
  have hsequences : (if flag₁.signsSequences then tx₁.sequenceHash else Block.zero 32) =
      if flag₁.signsSequences then tx₂.sequenceHash else Block.zero 32 := by
    cases hs : flag₁.signsSequences with
    | false => rw [if_neg (by decide), if_neg (by decide)]
    | true =>
      rw [hs, if_pos rfl, if_pos rfl] at hseqs
      rw [sequenceHash, sequenceHash, flatMap_sequence, flatMap_sequence, Option.some.inj hseqs]
  have houtputs := outputsHash_eq_of_committedOutputs_eq houts rfl
  rw [preimageOf_eq, preimageOf_eq, hversion, hlock, hpoint, hseq, hprevouts, hsequences, houtputs]

/-! ## From the bytes to the commitment -/

theorem outpoints_eq_of_prevoutsHash_eq (ha : flag.anyoneCanPay = false)
    (hapart : HashesApart (tx₁.hashedLists index₁ flag) (tx₂.hashedLists index₂ flag))
    (h : tx₁.prevoutsHash = tx₂.prevoutsHash) :
    tx₁.inputs.map (·.outpoint) = tx₂.inputs.map (·.outpoint) := by
  have hbytes := hapart.inj _ (by simp [hashedLists, ha]) _ (by simp [hashedLists, ha]) h
  rw [flatMap_outpoint, flatMap_outpoint] at hbytes
  refine prefixFree_outpoint.flatMap_injOn (fun o _ hnil => ?_) (fun _ _ => trivial)
    (fun _ _ => trivial) hbytes
  have hlen := congrArg List.length hnil
  simp [Outpoint.encode] at hlen

theorem sequences_eq_of_sequenceHash_eq (hs : flag.signsSequences = true)
    (hapart : HashesApart (tx₁.hashedLists index₁ flag) (tx₂.hashedLists index₂ flag))
    (h : tx₁.sequenceHash = tx₂.sequenceHash) :
    tx₁.inputs.map (·.sequence) = tx₂.inputs.map (·.sequence) := by
  have hbytes := hapart.inj _ (by simp [hashedLists, hs]) _ (by simp [hashedLists, hs]) h
  rw [flatMap_sequence, flatMap_sequence] at hbytes
  refine prefixFree_u32.flatMap_injOn (fun n _ hnil => ?_) (fun _ _ => trivial)
    (fun _ _ => trivial) hbytes
  have hlen := congrArg List.length hnil
  simp at hlen

theorem encode_output_ne_nil (o : Output) : o.encode ≠ [] := by
  intro hnil
  have hlen := congrArg List.length hnil
  simp [Output.encode] at hlen

theorem committedOutputs_eq_of_outputsHash_eq (hshort₁ : tx₁.ShortScripts code₁)
    (hshort₂ : tx₂.ShortScripts code₂)
    (hapart : HashesApart (tx₁.hashedLists index₁ flag) (tx₂.hashedLists index₂ flag))
    (h : tx₁.outputsHash index₁ (.classify flag index₁ tx₁.outputs.length) =
      tx₂.outputsHash index₂ (.classify flag index₂ tx₂.outputs.length)) :
    tx₁.committedOutputs index₁ flag.base = tx₂.committedOutputs index₂ flag.base := by
  cases hb : flag.base with
  | all =>
    simp only [OutputsRule.classify, hb, outputsHash] at h
    have hbytes := hapart.inj _ (by simp [hashedLists, hashedOutputs, hb]) _
      (by simp [hashedLists, hashedOutputs, hb]) h
    have houts := prefixFree_output.flatMap_injOn (fun o _ => encode_output_ne_nil o)
      hshort₁.outputs hshort₂.outputs hbytes
    rw [committedOutputs, committedOutputs, houts]
  | none => rfl
  | single =>
    simp only [committedOutputs]
    -- both outputs are there, or one is and its hash is not zero, or none is
    by_cases h₁ : index₁ < tx₁.outputs.length <;> by_cases h₂ : index₂ < tx₂.outputs.length
    · rw [List.getElem?_eq_getElem h₁, List.getElem?_eq_getElem h₂]
      simp only [OutputsRule.classify, hb, h₁, h₂, if_true, outputsHash,
        List.getElem?_eq_getElem, Option.map_some, Option.getD_some] at h
      have hbytes := hapart.inj _ (by simp [hashedLists, hashedOutputs, hb, h₁]) _
        (by simp [hashedLists, hashedOutputs, hb, h₂]) h
      have hout := (prefixFree_output _ _ (hshort₁.outputs _ (List.getElem_mem h₁))
        (hshort₂.outputs _ (List.getElem_mem h₂)) [] [] (by rw [hbytes])).1
      rw [hout]
    · simp only [OutputsRule.classify, hb, h₁, h₂, if_true, if_false, outputsHash,
        List.getElem?_eq_getElem, Option.map_some, Option.getD_some] at h
      exact absurd h (hapart.ne_zero _ (by simp [hashedLists, hashedOutputs, hb, h₁]))
    · simp only [OutputsRule.classify, hb, h₁, h₂, if_true, if_false, outputsHash,
        List.getElem?_eq_getElem, Option.map_some, Option.getD_some] at h
      exact absurd h.symm (hapart.ne_zero _ (by simp [hashedLists, hashedOutputs, hb, h₂]))
    · rw [List.getElem?_eq_none (by omega), List.getElem?_eq_none (by omega)]

/-- **The preimage determines the commitment**, if the hash tells the lists apart. -/
theorem commitment_eq_of_preimageOf_eq {input₁ input₂ : Input}
    (h₁ : tx₁.inputs[index₁]? = some input₁) (h₂ : tx₂.inputs[index₂]? = some input₂)
    (hshort₁ : tx₁.ShortScripts code₁) (hshort₂ : tx₂.ShortScripts code₂)
    (hapart : HashesApart (tx₁.hashedLists index₁ flag₁) (tx₂.hashedLists index₂ flag₂))
    (h : tx₁.preimageOf index₁ input₁ code₁ amount₁ flag₁ =
      tx₂.preimageOf index₂ input₂ code₂ amount₂ flag₂) :
    tx₁.commitment index₁ code₁ amount₁ flag₁ = tx₂.commitment index₂ code₂ amount₂ flag₂ := by
  rw [preimageOf_eq, preimageOf_eq, Preimage.mk.injEq] at h
  obtain ⟨hversion, hprevouts, hsequences, hpoint, -, rfl, rfl, hseq, houts, hlock, rfl⟩ := h
  have hpoints : (if flag₁.anyoneCanPay then none else some (tx₁.inputs.map (·.outpoint))) =
      if flag₁.anyoneCanPay then none else some (tx₂.inputs.map (·.outpoint)) := by
    cases ha : flag₁.anyoneCanPay with
    | true => rw [if_pos rfl, if_pos rfl]
    | false =>
      rw [ha, if_neg (by decide), if_neg (by decide)] at hprevouts
      rw [outpoints_eq_of_prevoutsHash_eq ha hapart hprevouts]
  have hseqs : (if flag₁.signsSequences then some (tx₁.inputs.map (·.sequence)) else none) =
      if flag₁.signsSequences then some (tx₂.inputs.map (·.sequence)) else none := by
    cases hs : flag₁.signsSequences with
    | false => rw [if_neg (by decide), if_neg (by decide)]
    | true =>
      rw [hs, if_pos rfl, if_pos rfl] at hsequences
      rw [sequences_eq_of_sequenceHash_eq hs hapart hsequences]
  have houtputs := committedOutputs_eq_of_outputsHash_eq hshort₁ hshort₂ hapart houts
  simp only [commitment, h₁, h₂, Option.map_some, hversion, hlock, hpoint, hseq, hpoints, hseqs,
    houtputs]

/-! ## What has no influence -/

/-- An input at a place is found in transactions that differ in scripts only. -/
theorem SameButScripts.getElem? (h : SameButScripts tx₁ tx₂) (i : Nat) :
    (tx₁.inputs[i]?.map fun input => (input.outpoint, input.sequence)) =
      tx₂.inputs[i]?.map fun input => (input.outpoint, input.sequence) := by
  have hpoints := congrArg (fun l => l[i]?) h.outpoints
  have hseqs := congrArg (fun l => l[i]?) h.sequences
  simp only [List.getElem?_map] at hpoints hseqs
  cases h₁ : tx₁.inputs[i]? <;> cases h₂ : tx₂.inputs[i]? <;>
    simp_all

/-- Scripts of inputs and spent outputs are not committed to. -/
theorem SameButScripts.commitment_eq (h : SameButScripts tx₁ tx₂) :
    tx₁.commitment index code amount flag = tx₂.commitment index code amount flag := by
  have hinput := h.getElem? index
  cases h₁ : tx₁.inputs[index]? <;> cases h₂ : tx₂.inputs[index]? <;>
    simp_all [commitment, h.version, h.lockTime, h.outpoints, h.sequences, committedOutputs,
      h.outputs]

theorem SameButScripts.preimage_eq (h : SameButScripts tx₁ tx₂)
    (hp : tx₂.preimage index code amount flag = .ok p) :
    tx₁.preimage index code amount flag = .ok p := by
  obtain ⟨input₂, h₂, hfits, rfl⟩ := preimage_eq_ok_iff.mp hp
  have hinput := h.getElem? index
  rw [h₂] at hinput
  obtain ⟨input₁, h₁, -⟩ := Option.map_eq_some_iff.mp hinput
  exact preimage_eq_ok_iff.mpr
    ⟨input₁, h₁, hfits, preimageOf_eq_of_commitment_eq h₁ h₂ h.commitment_eq⟩

/-- **What a preimage commits to.**  Two preimages have the same bytes exactly if the same data are
committed to, where only the direction from the bytes needs an assumption on the hash; and nothing
else of a transaction has an influence. -/
theorem preimage_eq_iff_commitment_eq (h₁ : tx₁.preimage index₁ code₁ amount₁ flag₁ = .ok p₁)
    (h₂ : tx₂.preimage index₂ code₂ amount₂ flag₂ = .ok p₂) (hshort₁ : tx₁.ShortScripts code₁)
    (hshort₂ : tx₂.ShortScripts code₂) :
    (tx₁.commitment index₁ code₁ amount₁ flag₁ = tx₂.commitment index₂ code₂ amount₂ flag₂ →
      p₁.encode = p₂.encode) ∧
    (HashesApart (tx₁.hashedLists index₁ flag₁) (tx₂.hashedLists index₂ flag₂) →
      p₁.encode = p₂.encode →
      tx₁.commitment index₁ code₁ amount₁ flag₁ = tx₂.commitment index₂ code₂ amount₂ flag₂) ∧
    ∀ tx : Transaction, tx.SameButScripts tx₁ →
      tx.preimage index₁ code₁ amount₁ flag₁ = .ok p₁ := by
  obtain ⟨input₁, hi₁, -, hp₁⟩ := preimage_eq_ok_iff.mp h₁
  obtain ⟨input₂, hi₂, -, hp₂⟩ := preimage_eq_ok_iff.mp h₂
  refine ⟨fun h => ?_, fun hapart h => ?_, fun tx htx => htx.preimage_eq h₁⟩
  · rw [← hp₁, ← hp₂, preimageOf_eq_of_commitment_eq hi₁ hi₂ h]
  · have hfits₁ : p₁.WidthFits := hp₁ ▸ widthFits_preimageOf input₁ hshort₁.code
    have hfits₂ : p₂.WidthFits := hp₂ ▸ widthFits_preimageOf input₂ hshort₂.code
    have hp : p₁ = p₂ := Preimage.encode_inj hfits₁ hfits₂ h
    rw [← hp₁, ← hp₂] at hp
    exact commitment_eq_of_preimageOf_eq hi₁ hi₂ hshort₁ hshort₂ hapart hp

/-- A transaction with one input and one output. -/
def paying (o : Output) : Transaction :=
  ⟨1, [⟨⟨.zero 32, 0⟩, [0x51], 7, none⟩], [o], 0⟩

/-- Two transactions that differ in the output beside the input, signed for this input and that
output alone: the preimages differ. -/
theorem preimage_ne_of_output_ne :
    ∃ p₁ p₂, (paying ⟨5, [0x51]⟩).preimage 0 [0xac] 9 ⟨0xc3⟩ = .ok p₁ ∧
      (paying ⟨5, [0x52]⟩).preimage 0 [0xac] 9 ⟨0xc3⟩ = .ok p₂ ∧ p₁.encode ≠ p₂.encode := by
  have h₁ : (paying ⟨5, [0x51]⟩).preimage 0 [0xac] 9 ⟨0xc3⟩ = .ok _ :=
    preimage_eq_ok_iff.mpr ⟨_, rfl, by decide, rfl⟩
  have h₂ : (paying ⟨5, [0x52]⟩).preimage 0 [0xac] 9 ⟨0xc3⟩ = .ok _ :=
    preimage_eq_ok_iff.mpr ⟨_, rfl, by decide, rfl⟩
  refine ⟨_, _, h₁, h₂, fun h => ?_⟩
  have hcommit := (preimage_eq_iff_commitment_eq h₁ h₂ ⟨by decide, by decide⟩
    ⟨by decide, by decide⟩).2.1 ⟨by decide +kernel, by decide +kernel⟩ h
  exact absurd hcommit (by decide +kernel)

end Transaction

end CoinScript
