import CoinScript.Proofs.Sighash.Commitment

/-!
# Digests and unlocking scripts

The script that unlocks an input holds the signature, so no digest may depend on it: otherwise a
signature would not survive its own insertion.  `SameButScripts.amountDigest_eq` and
`SameButScripts.legacyDigest_eq` say that neither of the two digests does, errors included.
`withUnlocking` is the insertion.

There is a digest for every input that exists and every flag of one byte (`exists_amountDigest`,
`exists_legacyDigest`).
-/

namespace CoinScript.Transaction

variable {tx tx' : Transaction}

/-! ## Inputs that exist -/

section

variable {index : Nat} {i : Input} {source : Output} {flag : SighashFlag}

theorem input_eq_ok_iff : tx.input index = .ok i ↔ tx.inputs[index]? = some i := by
  unfold input
  cases tx.inputs[index]? with
  | none => simp
  | some i' => simp

theorem lt_of_input (h : tx.input index = .ok i) : index < tx.inputs.length :=
  (List.getElem?_eq_some_iff.mp (input_eq_ok_iff.mp h)).1

theorem source_eq_ok_iff :
    tx.source index = .ok source ↔ ∃ i, tx.input index = .ok i ∧ i.source = some source := by
  unfold Transaction.source
  cases hinput : tx.input index with
  | error e => simp [bind, Except.bind]
  | ok i => cases hsource : i.source <;> simp [bind, Except.bind, pure, Except.pure, throw,
      throwThe, MonadExceptOf.throw, hsource]

/-- An input that exists can be signed with a flag of one byte. -/
theorem signedInput_eq (h : tx.input index = .ok i) (hfits : flag.fitsByte = true) :
    tx.signedInput index flag = .ok i := by
  rw [signedInput, h]
  show (if flag.fitsByte = true then _ else _ : Except TransactionError Input) = _
  rw [if_pos hfits]
  rfl

theorem exists_amountDigest (h : tx.input index = .ok i) (hfits : flag.fitsByte = true)
    (code : Bytes) (amount : UInt64) :
    ∃ digest, tx.amountDigest index code amount flag = .ok digest := by
  unfold amountDigest preimage
  rw [signedInput_eq h hfits]
  exact ⟨_, rfl⟩

theorem exists_legacyDigest (h : tx.input index = .ok i) (hfits : flag.fitsByte = true)
    (code : Bytes) : ∃ digest, tx.legacyDigest index code flag = .ok digest := by
  unfold legacyDigest
  rw [signedInput_eq h hfits]
  exact ⟨_, rfl⟩

end

/-! ## Another script to unlock an input -/

/-- The transaction with another script to unlock the input at a place. -/
def withUnlocking (tx : Transaction) (index : Nat) (unlocking : Script) : Transaction :=
  { tx with inputs := tx.inputs.modify index fun i => { i with unlocking } }

theorem input_withUnlocking {index : Nat} {i : Input} (h : tx.input index = .ok i)
    (unlocking : Script) :
    (tx.withUnlocking index unlocking).input index = .ok { i with unlocking } := by
  rw [input_eq_ok_iff] at h ⊢
  rw [withUnlocking, List.getElem?_modify, h]
  simp

theorem map_inputs_withUnlocking {α : Type} (f : Input → α)
    (hf : ∀ (i : Input) (unlocking : Script), f { i with unlocking } = f i) (tx : Transaction)
    (index : Nat) (unlocking : Script) :
    (tx.withUnlocking index unlocking).inputs.map f = tx.inputs.map f := by
  refine List.ext_getElem? fun k => ?_
  rw [List.getElem?_map, List.getElem?_map, withUnlocking, List.getElem?_modify]
  cases tx.inputs[k]? with
  | none => rfl
  | some i =>
    by_cases h : index = k
    · simp [h, hf]
    · simp [h]

theorem sameButScripts_withUnlocking (tx : Transaction) (index : Nat) (unlocking : Script) :
    SameButScripts (tx.withUnlocking index unlocking) tx :=
  ⟨rfl, rfl, map_inputs_withUnlocking _ (fun _ _ => rfl) tx index unlocking,
    map_inputs_withUnlocking _ (fun _ _ => rfl) tx index unlocking, rfl⟩

/-! ## The digests -/

section

variable (h : SameButScripts tx tx')

include h

theorem SameButScripts.length_inputs : tx.inputs.length = tx'.inputs.length := by
  have hlength := congrArg List.length h.outpoints
  rwa [List.length_map, List.length_map] at hlength

theorem SameButScripts.map_inputs :
    (tx.inputs.map fun i => (i.outpoint, i.sequence)) =
      tx'.inputs.map fun i => (i.outpoint, i.sequence) := by
  refine List.ext_getElem? fun k => ?_
  rw [List.getElem?_map, List.getElem?_map]
  exact h.getElem? k

/-- The inputs that are signed are the same but for their scripts, or are both missing. -/
theorem SameButScripts.signedInput_cases (index : Nat) (flag : SighashFlag) :
    (∃ e, tx.signedInput index flag = .error e ∧ tx'.signedInput index flag = .error e) ∨
      ∃ i i', tx.signedInput index flag = .ok i ∧ tx'.signedInput index flag = .ok i' ∧
        i.outpoint = i'.outpoint ∧ i.sequence = i'.sequence := by
  have hinput := h.getElem? index
  have hlength := h.length_inputs
  unfold signedInput input
  cases h₁ : tx.inputs[index]? with
  | none =>
    cases h₂ : tx'.inputs[index]? with
    | none =>
      rw [hlength]
      exact .inl ⟨_, rfl, rfl⟩
    | some i' =>
      rw [h₁, h₂] at hinput
      cases hinput
  | some i =>
    cases h₂ : tx'.inputs[index]? with
    | none =>
      rw [h₁, h₂] at hinput
      cases hinput
    | some i' =>
      rw [h₁, h₂] at hinput
      have hpair := Option.some.inj hinput
      by_cases hfits : flag.fitsByte = true
      · refine .inr ⟨i, i', ?_, ?_, congrArg Prod.fst hpair, congrArg Prod.snd hpair⟩
        all_goals exact if_pos hfits
      · refine .inl ⟨.wideFlag flag, ?_, ?_⟩
        all_goals exact if_neg hfits

/-- The preimages are the same, or there is none of either for the same reason. -/
theorem SameButScripts.preimage_congr (index : Nat) (code : Bytes) (amount : UInt64)
    (flag : SighashFlag) :
    tx.preimage index code amount flag = tx'.preimage index code amount flag := by
  rcases h.signedInput_cases index flag with ⟨e, h₁, h₂⟩ | ⟨i, i', -, h₂, -, -⟩
  · unfold preimage
    rw [h₁, h₂]
    rfl
  · have hok : tx'.preimage index code amount flag =
        .ok (tx'.preimageOf index i' code amount flag) := by
      unfold preimage
      rw [h₂]
      rfl
    rw [h.preimage_eq hok, hok]

/-- **The digest with the amount does not depend on scripts of inputs.** -/
theorem SameButScripts.amountDigest_eq (index : Nat) (code : Bytes) (amount : UInt64)
    (flag : SighashFlag) :
    tx.amountDigest index code amount flag = tx'.amountDigest index code amount flag := by
  rw [amountDigest, amountDigest, h.preimage_congr]

omit h in
theorem legacyInput_congr {base : SighashBase} {code : Bytes} {signed : Bool} {i i' : Input}
    (houtpoint : i.outpoint = i'.outpoint) (hsequence : i.sequence = i'.sequence) :
    legacyInput base code signed i = legacyInput base code signed i' := by
  unfold legacyInput
  rw [houtpoint, hsequence]

omit h in
/-- The inputs as they are written for the older digest, by what is written of them. -/
theorem flatMap_legacyInput (inputs : List Input) (base : SighashBase) (code : Bytes)
    (index : Nat) :
    (inputs.zipIdx.flatMap fun (i, place) => legacyInput base code (place == index) i) =
      (inputs.map fun i => (i.outpoint, i.sequence)).zipIdx.flatMap fun (p, place) =>
        legacyInput base code (place == index) ⟨p.1, [], p.2, none⟩ := by
  rw [List.zipIdx_map, List.flatMap_map]
  exact congrArg (inputs.zipIdx.flatMap ·) (funext fun x => legacyInput_congr rfl rfl)

/-- **The older digest does not depend on scripts of inputs.** -/
theorem SameButScripts.legacyDigest_eq (index : Nat) (code : Bytes) (flag : SighashFlag) :
    tx.legacyDigest index code flag = tx'.legacyDigest index code flag := by
  unfold legacyDigest
  rcases h.signedInput_cases index flag with ⟨e, h₁, h₂⟩ | ⟨i, i', h₁, h₂, houtpoint, hsequence⟩
  · rw [h₁, h₂]
    show (Except.error e : Except TransactionError Hash256) = Except.error e
    rfl
  · have hlacks : tx.lacksOutput index flag = tx'.lacksOutput index flag := by
      rw [lacksOutput, lacksOutput, h.outputs]
    have hinputs : ∀ code, tx.legacyInputs index i code flag =
        tx'.legacyInputs index i' code flag := by
      intro code
      rw [legacyInputs, legacyInputs, legacyInput_congr houtpoint hsequence, h.length_inputs,
        flatMap_legacyInput, flatMap_legacyInput, h.map_inputs]
    have houtputs : tx.legacyOutputs index flag.base = tx'.legacyOutputs index flag.base := by
      unfold legacyOutputs
      rw [h.outputs]
    have hbytes : tx.legacyBytes index i code flag = tx'.legacyBytes index i' code flag := by
      rw [legacyBytes, legacyBytes, h.version, hinputs, houtputs, h.lockTime]
    have hdigest : (if tx.lacksOutput index flag = true then oneDigest
        else sha256d (tx.legacyBytes index i code flag)) =
        if tx'.lacksOutput index flag = true then oneDigest
        else sha256d (tx'.legacyBytes index i' code flag) := by
      rw [hlacks, hbytes]
    rw [h₁, h₂]
    exact congrArg Except.ok hdigest

end

end CoinScript.Transaction
