import CoinScript.Proofs.Spend.KeyHash

/-!
# Signing one input after another

The inputs of a transaction are signed one at a time, and each signer sees the scripts that the
others have already put in.  Nothing of that may matter: a later signature must not change what an
earlier one was made for, and the order in which the signers come must not show in the result.

* `SameButScripts.verifyScript_eq`: a verdict, with all that the run leaves in the log, does not
  depend on the scripts of the inputs, nor on the spent outputs that they carry.  The script that is
  verified is given apart.
* `SameButUnlocking.inputDigest_eq`: nor does the digest that a signer asks for depend on the
  scripts. It does depend on the spent output of the input that is signed.
* `signAll_eq_ok_of_perm`: so two signers of different inputs may be exchanged, and with them any
  number of signers.

An order-free description of the result is not needed for this: it is enough to exchange two signers
that come one after the other (`signAll_swap`).
-/

namespace CoinScript

namespace Transaction

/-- The transactions differ in the scripts that unlock their inputs at most. -/
structure SameButUnlocking (tx tx' : Transaction) : Prop extends SameButScripts tx tx' where
  sources : tx.inputs.map (·.source) = tx'.inputs.map (·.source)

variable {tx tx' : Transaction}

theorem sameButUnlocking_withUnlocking (tx : Transaction) (index : Nat) (unlocking : Script) :
    SameButUnlocking (tx.withUnlocking index unlocking) tx :=
  ⟨sameButScripts_withUnlocking tx index unlocking,
    map_inputs_withUnlocking _ (fun _ _ => rfl) tx index unlocking⟩

/-- Scripts for different inputs may be put in in either order. -/
theorem withUnlocking_comm {i j : Nat} (hne : i ≠ j) (tx : Transaction) (u w : Script) :
    (tx.withUnlocking i u).withUnlocking j w = (tx.withUnlocking j w).withUnlocking i u := by
  unfold withUnlocking
  dsimp only
  rw [List.modify_modify_ne _ _ _ hne]

/-! ## What the digests are asked of -/

theorem SameButUnlocking.source_eq (h : SameButUnlocking tx tx') (index : Nat) :
    tx.source index = tx'.source index := by
  have hsource := congrArg (fun l => l[index]?) h.sources
  simp only [List.getElem?_map] at hsource
  unfold source input
  rw [h.toSameButScripts.length_inputs]
  cases h₁ : tx.inputs[index]? with
  | none =>
    cases h₂ : tx'.inputs[index]? with
    | none => rfl
    | some i' =>
      rw [h₁, h₂] at hsource
      cases hsource
  | some i =>
    cases h₂ : tx'.inputs[index]? with
    | none =>
      rw [h₁, h₂] at hsource
      cases hsource
    | some i' =>
      rw [h₁, h₂] at hsource
      have hsame : i.source = i'.source := Option.some.inj hsource
      simp only [bind, Except.bind, hsame]

/-- **What a signer is given to sign does not depend on scripts of inputs.** -/
theorem SameButUnlocking.inputDigest_eq (h : SameButUnlocking tx tx') (index : Nat)
    (flag : SighashFlag) : tx.inputDigest index flag = tx'.inputDigest index flag := by
  unfold inputDigest
  rw [h.source_eq]
  simp only [h.amountDigest_eq, h.legacyDigest_eq]

theorem SameButScripts.preimageEvents_eq (h : SameButScripts tx tx') (index : Nat) (code : Bytes)
    (amount : UInt64) (flag : SighashFlag) :
    tx.preimageEvents index code amount flag = tx'.preimageEvents index code amount flag := by
  unfold preimageEvents
  rw [h.preimage_congr, h.outputs]

theorem SameButScripts.legacyEvents_eq (h : SameButScripts tx tx') (index : Nat)
    (flag : SighashFlag) : tx.legacyEvents index flag = tx'.legacyEvents index flag := by
  unfold legacyEvents lacksOutput
  rw [h.outputs]
  rcases h.signedInput_cases index flag with ⟨e, h₁, h₂⟩ | ⟨i, i', h₁, h₂, -, -⟩
  · rw [h₁, h₂]
  · rw [h₁, h₂]

/-- **Transactions that differ in scripts of inputs and in spent outputs look the same to a
run.** -/
theorem SameButScripts.context_eq (h : SameButScripts tx tx') (index : Nat) (amount : UInt64) :
    (⟨tx, index, amount⟩ : BoundInput).context = (⟨tx', index, amount⟩ : BoundInput).context := by
  have hdigest :
      BoundInput.digest ⟨tx, index, amount⟩ = BoundInput.digest ⟨tx', index, amount⟩ := by
    funext asked code flag forkId
    unfold BoundInput.digest
    simp only [h.amountDigest_eq, h.legacyDigest_eq]
    rfl
  have hevents : BoundInput.digestEvents ⟨tx, index, amount⟩ =
      BoundInput.digestEvents ⟨tx', index, amount⟩ := by
    funext asked code flag forkId
    unfold BoundInput.digestEvents
    simp only [h.preimageEvents_eq, h.legacyEvents_eq]
  have hsequence : (fun k : Nat => tx.inputs[k]?.map Input.sequence) =
      fun k : Nat => tx'.inputs[k]?.map Input.sequence := by
    funext k
    rw [← List.getElem?_map, ← List.getElem?_map, h.sequences]
  unfold BoundInput.context
  rw [hdigest, hevents, hsequence, h.lockTime, h.version]

/-- **A verdict does not depend on scripts of inputs or on spent outputs**, apart from those that
are verified, and neither does the log. -/
theorem SameButScripts.verifyScript_eq (h : SameButScripts tx tx') (v : Verifier)
    (unlocking locking : Script) (index : Nat) (flags : Flags) (amount : UInt64) :
    v.verifyScript unlocking locking tx index flags amount =
      v.verifyScript unlocking locking tx' index flags amount := by
  unfold Verifier.verifyScript Verifier.run
  rw [h.length_inputs, h.context_eq]

end Transaction

namespace PayToKeyHash

/-- One who unlocks an input, with a key and a flag. -/
structure Signer where
  index : Nat
  key : PrivateKey
  flag : SighashFlag

section

variable {scheme : Scheme} {tx tx' t : Transaction}

/-- The script that a signer makes for a transaction. -/
def Signer.unlock (scheme : Scheme) (s : Signer) (tx : Transaction) :
    Except TransactionError Script :=
  PayToKeyHash.unlock scheme s.key s.flag tx s.index

/-- The transaction after the signers, each of whom sees what those before have put in. -/
def signAll (scheme : Scheme) (signers : List Signer) (tx : Transaction) :
    Except TransactionError Transaction :=
  signers.foldlM (fun tx s => signInput scheme s.key s.flag tx s.index) tx

/-! ## One signer -/

/-- What a signer makes does not depend on scripts that are there already. -/
theorem unlock_withUnlocking (s : Signer) (tx : Transaction) (index : Nat) (u : Script) :
    s.unlock scheme (tx.withUnlocking index u) = s.unlock scheme tx := by
  unfold Signer.unlock PayToKeyHash.unlock
  rw [(Transaction.sameButUnlocking_withUnlocking tx index u).inputDigest_eq]

/-- There is an input where there is a script for it. -/
theorem exists_input_of_unlock {s : Signer} {u : Script} (h : s.unlock scheme tx = .ok u) :
    ∃ i, tx.input s.index = .ok i := by
  cases hinput : tx.input s.index with
  | ok i => exact ⟨i, rfl⟩
  | error e =>
    unfold Signer.unlock PayToKeyHash.unlock Transaction.inputDigest Transaction.source at h
    rw [hinput] at h
    cases h

/-- A signer succeeds if there is a script, and puts that in. -/
theorem signInput_eq_ok_iff (s : Signer) :
    signInput scheme s.key s.flag tx s.index = .ok t ↔
      ∃ u, s.unlock scheme tx = .ok u ∧ t = tx.withUnlocking s.index u := by
  cases hunlock : s.unlock scheme tx with
  | ok u =>
    obtain ⟨i, hinput⟩ := exists_input_of_unlock hunlock
    rw [signInput_eq_ok hinput hunlock]
    simp [eq_comm]
  | error e =>
    unfold signInput
    unfold Signer.unlock at hunlock
    rw [hunlock]
    simp [bind, Except.bind]

/-- What a signer needs of a transaction: an input that carries its source, a flag of one byte, and
a signature of the digest. -/
structure Signer.Ready (scheme : Scheme) (s : Signer) (tx : Transaction) : Prop where
  source : ∃ source, tx.source s.index = .ok source
  fits : s.flag.fitsByte = true
  signs : ∀ digest, tx.inputDigest s.index s.flag = .ok digest →
    (scheme.sign s.key digest).isSome = true

theorem Signer.Ready.exists_unlock {s : Signer} (h : s.Ready scheme tx) :
    ∃ u, s.unlock scheme tx = .ok u := by
  obtain ⟨source, hsource⟩ := h.source
  obtain ⟨digest, hdigest⟩ := exists_inputDigest hsource h.fits
  obtain ⟨sig, hsig⟩ := Option.isSome_iff_exists.mp (h.signs digest hdigest)
  exact ⟨_, unlock_eq_ok hdigest hsig⟩

/-! ## Many signers -/

theorem signAll_cons_eq_ok_iff {s : Signer} {signers : List Signer} :
    signAll scheme (s :: signers) tx = .ok t ↔
      ∃ u, s.unlock scheme tx = .ok u ∧
        signAll scheme signers (tx.withUnlocking s.index u) = .ok t := by
  unfold signAll
  rw [List.foldlM_cons]
  cases hfirst : signInput scheme s.key s.flag tx s.index with
  | ok tx' =>
    obtain ⟨u, hu, rfl⟩ := (signInput_eq_ok_iff s).mp hfirst
    simp [hu, bind, Except.bind]
  | error e =>
    -- no script, for otherwise the signer would have succeeded
    have hnone : ∀ u, s.unlock scheme tx ≠ .ok u := by
      intro u hu
      rw [(signInput_eq_ok_iff s).mpr ⟨u, hu, rfl⟩] at hfirst
      cases hfirst
    simp [hnone, bind, Except.bind]

/-- Two signers of different inputs, one after the other, may be exchanged. -/
theorem signAll_swap {a b : Signer} (hne : a.index ≠ b.index) (signers : List Signer) :
    signAll scheme (a :: b :: signers) tx = .ok t →
      signAll scheme (b :: a :: signers) tx = .ok t := by
  intro h
  obtain ⟨u, hu, hrest⟩ := signAll_cons_eq_ok_iff.mp h
  obtain ⟨w, hw, hrest⟩ := signAll_cons_eq_ok_iff.mp hrest
  rw [unlock_withUnlocking] at hw
  refine signAll_cons_eq_ok_iff.mpr ⟨w, hw, signAll_cons_eq_ok_iff.mpr ⟨u, ?_, ?_⟩⟩
  · rwa [unlock_withUnlocking]
  · rwa [← Transaction.withUnlocking_comm hne]

/-- **The order of signers of different inputs does not matter.** -/
theorem signAll_eq_ok_of_perm {signers signers' : List Signer} (hperm : signers.Perm signers')
    (hdistinct : (signers.map Signer.index).Nodup) (h : signAll scheme signers tx = .ok t) :
    signAll scheme signers' tx = .ok t := by
  induction hperm generalizing tx with
  | nil => exact h
  | cons s _ ih =>
    rw [List.map_cons, List.nodup_cons] at hdistinct
    obtain ⟨u, hu, hrest⟩ := signAll_cons_eq_ok_iff.mp h
    exact signAll_cons_eq_ok_iff.mpr ⟨u, hu, ih hdistinct.2 hrest⟩
  | swap a b signers =>
    simp only [List.map_cons, List.nodup_cons, List.mem_cons, not_or] at hdistinct
    exact signAll_swap hdistinct.1.1 signers h
  | trans hfirst _ ih ih' => exact ih' ((hfirst.map _).nodup_iff.mp hdistinct) (ih hdistinct h)

/-- All signers succeed if each of them does on the transaction as it was. -/
theorem exists_signAll {signers : List Signer}
    (h : ∀ s ∈ signers, ∃ u, s.unlock scheme tx = .ok u) :
    ∃ t, signAll scheme signers tx = .ok t := by
  induction signers generalizing tx with
  | nil => exact ⟨tx, rfl⟩
  | cons s signers ih =>
    obtain ⟨u, hu⟩ := h s (.head _)
    have hrest : ∀ s' ∈ signers, ∃ w, s'.unlock scheme (tx.withUnlocking s.index u) = .ok w := by
      intro s' hs'
      rw [unlock_withUnlocking]
      exact h s' (.tail _ hs')
    obtain ⟨t, ht⟩ := ih hrest
    exact ⟨t, signAll_cons_eq_ok_iff.mpr ⟨u, hu, ht⟩⟩

end

/-! ## The statement -/

/-- **The order of signing does not matter, and a later signature never invalidates an earlier
one.** Other scripts of inputs change neither the digest that is signed, errors included, nor the
verdict on a script, for which the spent outputs that the inputs carry may be others too.  So
signers of different inputs make the same transaction in any order; and if each of them has what it
needs of the transaction as it was, they make one. -/
theorem signatures_independent :
    (∀ tx tx' : Transaction, tx.SameButUnlocking tx' → ∀ (index : Nat) (flag : SighashFlag),
      tx.inputDigest index flag = tx'.inputDigest index flag) ∧
    (∀ tx tx' : Transaction, tx.SameButScripts tx' →
      ∀ (v : Verifier) (unlocking locking : Script) (index : Nat) (flags : Flags) (amount : UInt64),
        v.verifyScript unlocking locking tx index flags amount =
          v.verifyScript unlocking locking tx' index flags amount) ∧
    ∀ (scheme : Scheme) (tx : Transaction) (signers signers' : List Signer),
      signers.Perm signers' → (signers.map Signer.index).Nodup →
        (∀ t, signAll scheme signers tx = .ok t ↔ signAll scheme signers' tx = .ok t) ∧
        ((∀ s ∈ signers, s.Ready scheme tx) →
          ∃ t, signAll scheme signers tx = .ok t ∧ signAll scheme signers' tx = .ok t) := by
  refine ⟨fun _ _ h => h.inputDigest_eq, fun _ _ h => h.verifyScript_eq,
    fun scheme tx signers signers' hperm hdistinct => ?_⟩
  have hdistinct' : (signers'.map Signer.index).Nodup := (hperm.map _).nodup_iff.mp hdistinct
  refine ⟨fun t => ⟨signAll_eq_ok_of_perm hperm hdistinct,
    signAll_eq_ok_of_perm hperm.symm hdistinct'⟩, fun hready => ?_⟩
  obtain ⟨t, ht⟩ := exists_signAll fun s hs => (hready s hs).exists_unlock
  exact ⟨t, ht, signAll_eq_ok_of_perm hperm hdistinct ht⟩

/-! ## Two inputs -/

namespace TwoInputs

/-- A transaction with two inputs, both of which carry their sources. -/
def tx : Transaction :=
  ⟨1, [⟨⟨.zero 32, 0⟩, [], 7, some ⟨1000, [0x51]⟩⟩, ⟨⟨.zero 32, 1⟩, [], 8, some ⟨2000, [0x52]⟩⟩],
    [⟨2500, [0x51]⟩], 0⟩

theorem two_lt_order : 2 < Secp256k1.order := by decide

/-- The key beside the smallest one. -/
def key : PrivateKey := ⟨2, Nat.two_pos, two_lt_order⟩

/-- The first input, signed with the amount. -/
def first : Signer := ⟨0, key, .allForkId⟩

/-- The second input, signed with the smallest key and without the amount, for the output beside it,
of which there is none. -/
def second : Signer := ⟨1, Beside.key, ⟨0x03⟩⟩

/-- What is signed for the first input.  For the second it is the number one. -/
def digest : Hash256 := ⟨
  [0x15, 0x79, 0xb9, 0x71, 0x19, 0xfb, 0x0f, 0x43, 0x80, 0xdd, 0xe6, 0xa2, 0x97, 0xdb, 0x38, 0xfb,
    0xb0, 0xd2, 0xbf, 0x2a, 0xa6, 0x70, 0x41, 0xdd, 0x42, 0xba, 0x8d, 0x30, 0xb5, 0x9a, 0x73, 0xff],
  rfl⟩

theorem digest_of_first {d : Hash256} (h : tx.inputDigest 0 .allForkId = .ok d) : d = digest := by
  have hdigest : (tx.inputDigest 0 .allForkId).toOption = some digest := by decide +kernel
  rw [h] at hdigest
  exact Option.some.inj hdigest

theorem digest_of_second {d : Hash256} (h : tx.inputDigest 1 ⟨0x03⟩ = .ok d) :
    d = Beside.digest false := by
  have hdigest : tx.inputDigest 1 ⟨0x03⟩ = .ok (Beside.digest false) := rfl
  rw [h] at hdigest
  exact Except.ok.inj hdigest

/-- The curve signs for the first input. -/
theorem isSome_sign : (Scheme.secp256k1.sign key digest).isSome = true := by decide +kernel

/-- The two make one transaction on the curve, whoever comes first. -/
theorem signed_in_either_order :
    ∃ t, signAll .secp256k1 [first, second] tx = .ok t ∧
      signAll .secp256k1 [second, first] tx = .ok t := by
  refine (signatures_independent.2.2 .secp256k1 tx [first, second] [second, first] (.swap _ _ _)
    (by decide)).2 fun s hs => ?_
  simp only [List.mem_cons, List.not_mem_nil, or_false] at hs
  rcases hs with rfl | rfl
  · refine ⟨⟨_, rfl⟩, by decide, fun d hd => ?_⟩
    rw [digest_of_first hd]
    exact isSome_sign
  · refine ⟨⟨_, rfl⟩, by decide, fun d hd => ?_⟩
    rw [digest_of_second hd]
    exact Option.isSome_iff_exists.mpr ⟨_, Beside.sign_eq false⟩

end TwoInputs

end PayToKeyHash

end CoinScript
