import CoinScript.Proofs.Sighash.Commitment
import CoinScript.Proofs.Wire.Taking

/-!
# What is accepted as a preimage

There are three descriptions of a preimage: the builder, which goes from a transaction to the
fields, the reader, which goes from bytes to the fields, and the report, which says which hashes
have to be zero.  This module shows that they describe one thing.

* `ofBytes_eq_ok_iff`: bytes are read as a preimage exactly if they are what it is written as, with
  a width of the length in front of the script that can hold it.  Nothing is stored of this width:
  the reader finds it as a difference of places (`readScript_eq_ok`).
* `outputsHash_at_offset`: the place of the hash over outputs is where it stands, although the
  script before it may have any length.
* `check_preimageOf`: what is built for a transaction is as the report says, unless the hash of a
  list is zero.

`preimage_reading_exact` puts them together.
-/

namespace CoinScript

theorem Block.isZero_eq_true_iff {n : Nat} {b : Block n} : b.isZero = true ↔ b = .zero n := by
  unfold Block.isZero
  rw [List.all_eq_true]
  constructor
  · intro h
    refine Block.ext (List.eq_replicate_iff.mpr ⟨b.size_eq, fun x hx => ?_⟩)
    simpa using h x hx
  · rintro rfl x hx
    simpa using List.eq_of_mem_replicate hx

namespace Preimage

open Reader

variable {b b' : Bytes} {c c' : Cursor} {p : Preimage}

/-! ## The reader -/

/-- A script is read behind its length, of which the width is found too. -/
theorem readScript_eq_ok {found : Nat × Bytes} (h : readScript c = .ok found c') :
    VarInt.Fits found.1 found.2.length ∧
      c.rest = VarInt.encodeAs found.1 found.2.length ++ found.2 ++ c'.rest := by
  obtain ⟨before, c₁, hbefore, h₁⟩ := bind_eq_ok h
  cases hbefore
  obtain ⟨script, c₂, hscript, h₂⟩ := bind_eq_ok h₁
  obtain ⟨after, c₃, hafter, hvalue⟩ := bind_eq_ok h₂
  cases hafter
  cases hvalue
  obtain ⟨width, hfits, hrest⟩ := varBytes_eq_ok hscript
  rw [← List.append_assoc] at hrest
  -- what was written in this width is read with this width, and a reader has one result
  have hread := reads_readScript hfits c.position c'.rest
  rw [← hrest] at hread
  have hsame := h.symm.trans hread
  obtain ⟨hpair, -⟩ := EStateM.Result.ok.inj hsame
  rw [hpair]
  exact ⟨hfits, hrest⟩

/-- What is read is a preimage as it is written. -/
theorem read_eq_ok (h : read c = .ok p c') : p.WidthFits ∧ c.rest = p.encode ++ c'.rest := by
  obtain ⟨version, c₁, hversion, h₁⟩ := bind_eq_ok h
  obtain ⟨prevoutsHash, c₂, hprevouts, h₂⟩ := bind_eq_ok h₁
  obtain ⟨sequenceHash, c₃, hsequences, h₃⟩ := bind_eq_ok h₂
  obtain ⟨txid, c₄, htxid, h₄⟩ := bind_eq_ok h₃
  obtain ⟨index, c₅, hindex, h₅⟩ := bind_eq_ok h₄
  obtain ⟨found, c₆, hscript, h₆⟩ := bind_eq_ok h₅
  obtain ⟨amount, c₇, hamount, h₇⟩ := bind_eq_ok h₆
  obtain ⟨sequence, c₈, hsequence, h₈⟩ := bind_eq_ok h₇
  obtain ⟨outputsHash, c₉, houtputs, h₉⟩ := bind_eq_ok h₈
  obtain ⟨lockTime, c₁₀, hlock, h₁₀⟩ := bind_eq_ok h₉
  obtain ⟨flag, c₁₁, hflag, hvalue⟩ := bind_eq_ok h₁₀
  cases hvalue
  obtain ⟨hfits, hrest⟩ := readScript_eq_ok (mapError_eq_ok hscript)
  refine ⟨hfits, ?_⟩
  rw [u32_eq_ok (mapError_eq_ok hversion), block_eq_ok (mapError_eq_ok hprevouts),
    block_eq_ok (mapError_eq_ok hsequences), block_eq_ok (mapError_eq_ok htxid),
    u32_eq_ok (mapError_eq_ok hindex), hrest, u64_eq_ok (mapError_eq_ok hamount),
    u32_eq_ok (mapError_eq_ok hsequence), block_eq_ok (mapError_eq_ok houtputs),
    u32_eq_ok (mapError_eq_ok hlock), u32_eq_ok (mapError_eq_ok hflag)]
  simp only [encode, Outpoint.encode, SighashFlag.bytes, List.append_assoc]

/-- **Bytes are read as a preimage exactly if they are what it is written as.** -/
theorem ofBytes_eq_ok_iff : ofBytes b = .ok p ↔ p.WidthFits ∧ b = p.encode := by
  constructor
  · intro h
    unfold ofBytes at h
    split at h
    · cases h
    next q c' hread =>
    split at h
    · next hend =>
      cases h
      obtain ⟨hfits, hrest⟩ := read_eq_ok hread
      rw [List.eq_nil_of_length_eq_zero hend, List.append_nil] at hrest
      exact ⟨hfits, hrest⟩
    · cases h
  · rintro ⟨hfits, rfl⟩
    exact ofBytes_encode hfits

/-- The hash over outputs stands at its place. -/
theorem outputsHash_at_offset (h : p.WidthFits) :
    (p.encode.drop p.outputsOffset).take 32 = p.outputsHash.bytes := by
  have hparts : p.encode = (Wire.u32 p.version ++ p.prevoutsHash.bytes ++ p.sequenceHash.bytes ++
      p.outpoint.encode ++ (VarInt.encodeAs p.lengthWidth p.scriptCode.length ++ p.scriptCode) ++
      Wire.u64 p.amount ++ Wire.u32 p.sequence) ++
      (p.outputsHash.bytes ++ (Wire.u32 p.lockTime ++ p.flag.bytes)) := by
    simp only [encode, List.append_assoc]
  have hbefore : (Wire.u32 p.version ++ p.prevoutsHash.bytes ++ p.sequenceHash.bytes ++
      p.outpoint.encode ++ (VarInt.encodeAs p.lengthWidth p.scriptCode.length ++ p.scriptCode) ++
      Wire.u64 p.amount ++ Wire.u32 p.sequence).length = p.outputsOffset := by
    simp only [List.length_append, Outpoint.encode, Wire.length_u32, Wire.length_u64,
      Block.length_bytes, VarInt.length_encodeAs h, outputsOffset]
    omega
  rw [hparts, ← hbefore, List.drop_left, List.take_left' p.outputsHash.size_eq]

end Preimage

/-! ## The report -/

namespace ZeroReport

@[simp] theorem isZero_outputs (flag : SighashFlag) (index outputs : Nat) :
    (forFlag flag index outputs).isZero .outputs = (OutputsRule.classify flag index outputs).isZero := by
  cases h : flag.anyoneCanPay <;> cases hb : flag.base <;>
    by_cases hi : index < outputs <;>
      simp [forFlag, isZero, reasonFor, sequenceReason, outputsReason, OutputsRule.classify,
        OutputsRule.isZero, PreimageHash.all, h, hb, hi]

/-- A preimage is as a report says if each hash is zero exactly where the report says so. -/
theorem check_eq_nil {z : ZeroReport} {p : Preimage}
    (h : ∀ field, z.isZero field = (p.hash field).isZero) : z.check p = [] := by
  unfold check
  rw [List.map_eq_nil_iff, List.filter_eq_nil_iff]
  intro field _
  rw [h field]
  simp

end ZeroReport

namespace Transaction

variable {tx : Transaction} {index : Nat} {code : Bytes} {amount : UInt64} {flag : SighashFlag}

/-- The hash over outputs is zero exactly if nothing of them is committed to. -/
theorem isZero_outputsHash
    (h : ∀ a ∈ tx.hashedOutputs index flag.base, sha256d a ≠ .zero 32) :
    (tx.outputsHash index (.classify flag index tx.outputs.length)).isZero =
      (OutputsRule.classify flag index tx.outputs.length).isZero := by
  have hzero : (Block.zero 32).isZero = true := Block.isZero_eq_true_iff.mpr rfl
  have hne : ∀ a ∈ tx.hashedOutputs index flag.base, (sha256d a).isZero = false := by
    intro a ha
    rw [← Bool.not_eq_true, Block.isZero_eq_true_iff]
    exact h a ha
  unfold OutputsRule.classify hashedOutputs at *
  cases hbase : flag.base with
  | all =>
    rw [hbase] at hne
    exact hne _ List.mem_cons_self
  | none => exact hzero
  | single =>
    rw [hbase] at hne
    dsimp only at hne ⊢
    by_cases hindex : index < tx.outputs.length
    · rw [if_pos hindex]
      rw [List.getElem?_eq_getElem hindex] at hne
      refine hne _ ?_
      rw [List.getElem?_eq_getElem hindex]
      exact List.mem_cons_self
    · rw [if_neg hindex]
      exact hzero

/-- **What is built is as the report says**, if no list that is hashed has the hash zero. -/
theorem check_preimageOf (input : Input)
    (h : ∀ a ∈ tx.hashedLists index flag, sha256d a ≠ .zero 32) :
    (ZeroReport.forFlag flag index tx.outputs.length).check
      (tx.preimageOf index input code amount flag) = [] := by
  have hzero : (Block.zero 32).isZero = true := Block.isZero_eq_true_iff.mpr rfl
  have hne : ∀ a ∈ tx.hashedLists index flag, (sha256d a).isZero = false := by
    intro a ha
    rw [← Bool.not_eq_true, Block.isZero_eq_true_iff]
    exact h a ha
  rw [preimageOf_eq]
  refine ZeroReport.check_eq_nil fun field => ?_
  cases field with
  | prevouts =>
    rw [ZeroReport.isZero_prevouts]
    show _ = (if flag.anyoneCanPay then Block.zero 32 else tx.prevoutsHash).isZero
    cases hany : flag.anyoneCanPay with
    | true => exact hzero.symm
    | false => exact (hne _ (by simp [hashedLists, hany])).symm
  | sequence =>
    rw [ZeroReport.isZero_sequence]
    show _ = (if flag.signsSequences then tx.sequenceHash else Block.zero 32).isZero
    cases hsigns : flag.signsSequences with
    | true => exact (hne _ (by simp [hashedLists, hsigns])).symm
    | false => exact hzero.symm
  | outputs =>
    rw [ZeroReport.isZero_outputs]
    refine (isZero_outputsHash fun a ha => h a ?_).symm
    exact List.mem_append_right _ ha

end Transaction

/-! ## The statement -/

namespace Preimage

open Transaction

/-- **The builder, the reader and the report describe one layout.**  A preimage is built for every
input that is there, every script that has a length and every flag of one byte.  It is read back
with all that went into it and the shortest length in front of the script, and its hashes are zero
where the report says so, if no list that is hashed has the hash zero.  Any bytes are read as a
preimage exactly if they are its fields in their order, with the length in front of the script in
the width that the preimage tells; so the bytes are determined by what is read, and the hash over
outputs stands at its place in them. -/
theorem preimage_reading_exact (tx : Transaction) (index : Nat) (input : Input) (code : Bytes)
    (amount : UInt64) (flag : SighashFlag) (hinput : tx.inputs[index]? = some input)
    (hcode : code.length < 2 ^ 64) (hflag : flag.word ≤ 0xff) :
    (∃ p, tx.preimage index code amount flag = .ok p ∧ ofBytes p.encode = .ok p ∧
      p.version = tx.version ∧ p.outpoint = input.outpoint ∧ p.scriptCode = code ∧
      p.amount = amount ∧ p.sequence = input.sequence ∧ p.lockTime = tx.lockTime ∧
      p.flag = flag ∧ p.hasShortLength = true ∧
      ((∀ a ∈ tx.hashedLists index flag, sha256d a ≠ .zero 32) →
        (ZeroReport.forFlag flag index tx.outputs.length).check p = [])) ∧
    ∀ (b : Bytes) (p : Preimage),
      (ofBytes b = .ok p ↔
        VarInt.Fits p.lengthWidth p.scriptCode.length ∧
        b = Wire.u32 p.version ++ p.prevoutsHash.bytes ++ p.sequenceHash.bytes ++
          (p.outpoint.txid.bytes ++ Wire.u32 p.outpoint.index) ++
          (VarInt.encodeAs p.lengthWidth p.scriptCode.length ++ p.scriptCode) ++
          Wire.u64 p.amount ++ Wire.u32 p.sequence ++ p.outputsHash.bytes ++
          Wire.u32 p.lockTime ++ Wire.u32 p.flag.word) ∧
      (ofBytes b = .ok p →
        (∀ b', ofBytes b' = .ok p → b' = b) ∧
        (b.drop p.outputsOffset).take 32 = p.outputsHash.bytes) := by
  refine ⟨?_, fun b p => ⟨ofBytes_eq_ok_iff, fun h => ⟨fun b' h' => ?_, ?_⟩⟩⟩
  · have hbuilt : tx.preimage index code amount flag = .ok _ :=
      preimage_eq_ok_iff.mpr ⟨input, hinput, decide_eq_true hflag, rfl⟩
    have hfits : (tx.preimageOf index input code amount flag).WidthFits :=
      widthFits_preimageOf input hcode
    refine ⟨_, hbuilt, ofBytes_encode hfits, rfl, rfl, rfl, rfl, rfl, rfl, rfl, ?_,
      check_preimageOf input⟩
    exact beq_self_eq_true _
  · rw [(ofBytes_eq_ok_iff.mp h).2, (ofBytes_eq_ok_iff.mp h').2]
  · obtain ⟨hfits, rfl⟩ := ofBytes_eq_ok_iff.mp h
    exact outputsHash_at_offset hfits

/-- The input of a transaction with one output, signed for the output beside it: the preimage is
read back and is as the report says; and it is read from a length of three bytes too, which is not
the shortest. -/
theorem preimage_reading_beside :
    ∃ p, (paying ⟨5, [0x51]⟩).preimage 0 [0xac] 9 ⟨0x43⟩ = .ok p ∧ ofBytes p.encode = .ok p ∧
      p.scriptCode = [0xac] ∧ (ZeroReport.forFlag ⟨0x43⟩ 0 1).check p = [] ∧
      ofBytes { p with lengthWidth := 3 }.encode = .ok { p with lengthWidth := 3 } ∧
      { p with lengthWidth := 3 }.hasShortLength = false := by
  obtain ⟨⟨p, hbuilt, hread, -, -, hcode, -, -, -, -, -, hreport⟩, hlong⟩ :=
    preimage_reading_exact (paying ⟨5, [0x51]⟩) 0 ⟨⟨.zero 32, 0⟩, [0x51], 7, none⟩ [0xac] 9 ⟨0x43⟩
      rfl (by decide) (by decide)
  refine ⟨p, hbuilt, hread, hcode, hreport (by decide +kernel), ?_, ?_⟩
  · refine ((hlong _ _).1).mpr ⟨.inr (.inl ⟨rfl, ?_⟩), rfl⟩
    rw [hcode]
    decide
  · rw [hasShortLength, hcode]
    show (VarInt.size 1 == 3) = false
    decide

end Preimage

end CoinScript
