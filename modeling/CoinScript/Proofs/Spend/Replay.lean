import CoinScript.Proofs.Machine.Encodings
import CoinScript.Proofs.Machine.Places
import CoinScript.Proofs.Sighash.Unlocking
import CoinScript.Spend.Verify

/-!
# Which digests are asked for

There are two digests, and the flag for the amount decides which of them signatures are to commit
to.  A signature that commits to one and is checked with the other could be replayed elsewhere, so
the choice must not be left to the signature.

Every digest that a run asks for belongs to a trial (`execute_cases`), and a trial comes after the
check of the sighash byte.  With the flag for the amount that check is in force, whatever the other
flags are, and it ties the bit in the byte to the flag; without the flag the bit is not looked at.
So `Rules.Guards` holds of every question, and `replay_protection` adds what follows for a
transaction: its context is never asked for what it would refuse.
-/

namespace CoinScript

/-- The question is about the input that is spent, with a flag of one byte, and the digest with the
amount is meant exactly if it is in use; then the flag says so too, and has one of the three
bases. -/
structure Rules.Guards (r : Rules) (q : DigestRequest) : Prop where
  input : q.input = r.input
  byte : q.flag.word ≤ 0xff
  digest : q.forkId = true ↔ r.flags.has .forkId = true
  marked : r.flags.has .forkId = true → q.flag.hasForkId = true
  base : r.flags.has .forkId = true → 1 ≤ q.flag.strictBase ∧ q.flag.strictBase ≤ 3

theorem SighashFlag.word_ofByte_le (b : UInt8) : (SighashFlag.ofByte b).word ≤ 0xff := by
  rw [UInt32.le_iff_toNat_le]
  have hb : b.toNat < 256 := b.toNat_lt
  have hword : (SighashFlag.ofByte b).word.toNat = b.toNat := UInt8.toNat_toUInt32 b
  rw [hword]
  exact Nat.le_of_lt_succ hb

/-- What the check of a signature has found out about its last byte. -/
theorem Rules.byte_of_checkSignature {r : Rules} {sig : Bytes} {b : UInt8}
    (hchecked : r.checkSignature sig = .ok ()) (hb : sig.getLast? = some b)
    (hstrict : r.flags.has .strictEncoding = true) :
    (1 ≤ (SighashFlag.ofByte b).strictBase ∧ (SighashFlag.ofByte b).strictBase ≤ 3) ∧
      (SighashFlag.ofByte b).hasForkId = r.flags.has .forkId :=
  checkSighashByte_eq_ok_iff.mp (checkSignature_eq_ok_iff.mp hchecked b hb).1 hstrict

/-- The question of a trial is guarded. -/
theorem guards_of_asks {r e : Rules} {script : List Instruction} {m : Machine} {x : Operation}
    {t : Trial} {q : DigestRequest} (he : r.effective = .ok e) (ht : Run.Tried e script m x t)
    (hq : t.Asks e q) : r.Guards q := by
  obtain ⟨b, hb, rfl⟩ := hq
  have hforkId := Rules.has_forkId_of_effective he
  have hbyte : r.flags.has .forkId = true →
      (1 ≤ (SighashFlag.ofByte b).strictBase ∧ (SighashFlag.ofByte b).strictBase ≤ 3) ∧
        (SighashFlag.ofByte b).hasForkId = true := by
    intro h
    have hfound := Rules.byte_of_checkSignature ht.checkSignature_eq hb
      (Rules.has_strictEncoding_of_effective he h)
    rwa [hforkId, h] at hfound
  have huses : e.usesForkId t.signature =
      (r.flags.has .forkId && (SighashFlag.ofByte b).hasForkId) := by
    unfold Rules.usesForkId
    rw [hb, hforkId]
  refine ⟨?_, SighashFlag.word_ofByte_le b, ?_, fun h => (hbyte h).2, fun h => (hbyte h).1⟩
  · obtain ⟨rfl, -⟩ := Rules.effective_eq_ok_iff.mp he
    rfl
  · show e.usesForkId t.signature = true ↔ _
    rw [huses, Bool.and_eq_true]
    exact ⟨fun h => h.1, fun h => ⟨h, (hbyte h).2⟩⟩

/-! ## What a transaction is not asked for -/

/-- The faults that are the fault of the request, and not of a script. -/
theorem Fault.cases_of_kind {fault : Fault} (h : fault.kind = .invalidFlags) :
    fault = .cleanStackWithoutScriptHash ∨ (∃ op, fault = .missingContext op) ∨
      (∃ input, fault = .inputOutOfRange input) ∨ ∃ cause, fault = .context cause := by
  cases fault with
  | cleanStackWithoutScriptHash => exact .inl rfl
  | missingContext op => exact .inr (.inl ⟨op, rfl⟩)
  | inputOutOfRange input => exact .inr (.inr (.inl ⟨input, rfl⟩))
  | context cause => exact .inr (.inr (.inr ⟨cause, rfl⟩))
  | checkFailed op =>
    unfold kind code checkCode at h
    dsimp only at h
    split at h <;> cases h
  | number cause => cases cause <;> cases h
  | der cause =>
    cases cause with
    | missingIntegerTag which => cases which <;> cases h
    | zeroLengthInteger which => cases which <;> cases h
    | integerLengthOverflow which => cases which <;> cases h
    | negativeInteger which => cases which <;> cases h
    | excessivePadding which => cases which <;> cases h
    | _ => cases h
  | _ => cases h

theorem SighashFlag.fitsByte_ofByte (b : UInt8) : (SighashFlag.ofByte b).fitsByte = true :=
  decide_eq_true (word_ofByte_le b)

/-- A transaction gives every digest of the input that it is bound to. -/
theorem BoundInput.exists_digest {b : BoundInput} (h : b.index < b.tx.inputs.length) (code : Bytes)
    (byte : UInt8) (forkId : Bool) :
    ∃ digest, b.context.digest b.index code (.ofByte byte) forkId = .ok digest := by
  have hinput : b.tx.input b.index = .ok b.tx.inputs[b.index] :=
    Transaction.input_eq_ok_iff.mpr (List.getElem?_eq_getElem h)
  have hfits := SighashFlag.fitsByte_ofByte byte
  show ∃ digest, b.digest b.index code (.ofByte byte) forkId = .ok digest
  unfold BoundInput.digest
  rw [if_pos rfl]
  cases forkId with
  | true =>
    obtain ⟨digest, hdigest⟩ := Transaction.exists_amountDigest hinput hfits code b.amount
    exact ⟨digest, congrArg (Except.mapError _) hdigest⟩
  | false =>
    obtain ⟨digest, hdigest⟩ := Transaction.exists_legacyDigest hinput hfits code
    exact ⟨digest, congrArg (Except.mapError _) hdigest⟩

/-- A run with an input that exists, under flags that can be run under, is never stopped by what is
asked for. -/
theorem kind_verdict_ne {r : Rules} {b : BoundInput} (hcontext : r.context = some b.context)
    (hinput : r.input = b.index) (hindex : b.index < b.tx.inputs.length)
    (hflags : r.flags.Accepted) {unlocking locking : Script} {fault : Fault}
    (h : (execute r unlocking locking).verdict = .error fault) : fault.kind ≠ .invalidFlags := by
  rcases execute_cases r unlocking locking with ⟨herror, -⟩ | ⟨e, he, -, hpossible⟩
  · obtain ⟨e, he⟩ := Rules.accepted_iff.mp hflags
    rw [he] at herror
    cases herror
  · have hfault := hpossible fault h
    obtain ⟨rfl, -⟩ := Rules.effective_eq_ok_iff.mp he
    intro hkind
    rcases Fault.cases_of_kind hkind with rfl | ⟨op, rfl⟩ | ⟨input, rfl⟩ | ⟨cause, rfl⟩
    · exact hfault
    · have hnone : r.context = none := hfault
      rw [hcontext] at hnone
      cases hnone
    · obtain ⟨c, hc, hsequence⟩ := hfault
      obtain rfl : b.context = c := Option.some.inj (hcontext.symm.trans hc)
      have hnone : (b.tx.inputs[r.input]?.map (·.sequence)) = none := hsequence
      rw [hinput, List.getElem?_eq_getElem hindex] at hnone
      cases hnone
    · obtain ⟨c, code, byte, forkId, hc, hdigest⟩ := hfault
      obtain rfl : b.context = c := Option.some.inj (hcontext.symm.trans hc)
      obtain ⟨digest, hok⟩ := BoundInput.exists_digest hindex code byte forkId
      change b.context.digest r.input _ _ _ = _ at hdigest
      rw [hinput, hok] at hdigest
      cases hdigest

/-- **Replay protection.**  Every digest that is asked for in a run is guarded: it is for the input
that is spent, with the last byte of a signature that stands on the stack of an executed check as
its flag, and the digest with the amount is asked for exactly if its flag is set.  So a transaction
is asked only for digests and sequence numbers that it has: with an input that exists and flags that
can be run under no spend is refused because of what was asked for. -/
theorem replay_protection :
    (∀ (r : Rules) (unlocking locking : Script), ∀ q ∈ (execute r unlocking locking).requests,
      r.Guards q ∧ ∃ e s first offset i found t b, r.effective = .ok e ∧
        Run.TrialAt e unlocking locking (.begun r unlocking locking) s first offset i found t ∧
        t.signature ∈ found.main ∧ t.signature.getLast? = some b ∧ q.flag = .ofByte b) ∧
    ∀ (v : Verifier) (unlocking locking : Script) (tx : Transaction) (index : Nat) (flags : Flags)
      (amount : UInt64), index < tx.inputs.length → flags.Accepted →
      (v.verifyScript unlocking locking tx index flags amount).1.kind ≠ some .invalidFlags := by
  constructor
  · intro r unlocking locking q hq
    rcases execute_cases r unlocking locking with ⟨-, -, hnone⟩ | ⟨e, he, hasked, -⟩
    · rw [hnone] at hq
      cases hq
    · obtain ⟨s, first, offset, i, found, t, ht, hasks⟩ := hasked q hq
      have hmem := ht.tried.signatures_subset _ ht.tried.signature_mem
      refine ⟨guards_of_asks he ht.tried hasks, ?_⟩
      obtain ⟨b, hb, rfl⟩ := hasks
      exact ⟨e, s, first, offset, i, found, t, b, he, ht, hmem, hb, rfl⟩
  · intro v unlocking locking tx index flags amount hindex hflags
    unfold Verifier.verifyScript
    rw [if_pos hindex]
    dsimp only
    cases hverdict : (v.run ⟨tx, index, amount⟩ flags unlocking locking).verdict with
    | ok u =>
      intro h
      cases h
    | error fault =>
      have hne := kind_verdict_ne
        (r := ⟨v.limits, flags, v.scheme, some (BoundInput.context ⟨tx, index, amount⟩), index⟩)
        (b := ⟨tx, index, amount⟩) rfl rfl hindex hflags hverdict
      exact fun h => hne (Option.some.inj h)

/-! ## A spend with one question -/

namespace OneQuestion

/-- A transaction with one input and no output. -/
def tx : Transaction := ⟨1, [⟨⟨.zero 32, 0⟩, [], 0xffffffff, none⟩], [], 0⟩

/-- A signature that is encoded strictly, with a byte for all outputs and the amount. -/
def signature : Bytes := Signature.toDer ⟨1, 1⟩ ++ [0x41]

/-- The signature and the base of the curve as a key. -/
def unlocking : Script :=
  (Instruction.push signature).encode ++
    (Instruction.push (⟨Secp256k1.base⟩ : PublicKey).compressed).encode

/-- The rules of a run that checks them. -/
def rules : Rules :=
  ⟨.consensus, .ofList [.forkId, .cleanStack, .payToScriptHash], .secp256k1,
    some (BoundInput.context ⟨tx, 0, 1000⟩), 0⟩

/-- The signature is tried and does not fit, so one digest has been asked for. -/
theorem guards_question : ∃ q, (execute rules unlocking [0xac]).requests = [q] ∧ rules.Guards q ∧
    (Verifier.verifyScript ⟨.secp256k1, .consensus⟩ unlocking [0xac] tx 0 rules.flags 1000).1.kind ≠
      some .invalidFlags := by
  have hlength : (execute rules unlocking [0xac]).requests.length = 1 := by decide +kernel
  obtain ⟨q, hq⟩ := List.length_eq_one_iff.mp hlength
  have hmem : q ∈ (execute rules unlocking [0xac]).requests := by
    rw [hq]
    exact .head _
  exact ⟨q, hq, (replay_protection.1 rules unlocking [0xac] q hmem).1,
    replay_protection.2 _ _ _ tx 0 rules.flags 1000 (by decide) (by decide)⟩

end OneQuestion

end CoinScript
